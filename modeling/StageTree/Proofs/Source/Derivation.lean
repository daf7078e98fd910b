import StageTree.Proofs.Source.Reads

/-! The parser against the grammar: it returns a pipeline exactly if the lexemes are a derivation of it. So
lexemes have at most one tree, although a keyword may stand wherever a word may. -/

namespace StageTree.Source

variable {stop : Position} {n : Nat}

abbrev anywhere : List Token → Prop := fun _ => True

theorem reads_agentKind : Reads n DerivesAgentKind anywhere (parseAgentKind stop) where
  sound := by
    intro ts a rest hr
    match ts with
    | [] => simp [parseAgentKind] at hr
    | ⟨.word name, p⟩ :: ts =>
      rw [parseAgentKind] at hr
      split at hr
      · rename_i hn
        obtain ⟨rfl, rfl⟩ := Prod.mk.inj (Except.ok.inj hr)
        exact ⟨[⟨.word name, p⟩], rfl, hn ▸ .none⟩
      · simp at hr
    | ⟨.openBrace, p⟩ :: ts =>
      obtain ⟨ts₁, hdocker, hr⟩ := bind_eq_ok.1 hr
      obtain ⟨⟨image, ts₂⟩, hvalue, hr⟩ := bind_eq_ok.1 hr
      obtain ⟨ts₃, hclose, hr⟩ := bind_eq_ok.1 hr
      obtain ⟨rfl, rfl⟩ := Prod.mk.inj (Except.ok.inj hr)
      obtain ⟨p₁, rfl⟩ := needKeyword_eq_ok.1 hdocker
      obtain ⟨p₂, rfl⟩ := needText_eq_ok.1 hvalue
      obtain ⟨p₃, rfl⟩ := needMark_eq_ok.1 hclose
      exact ⟨[⟨_, p⟩, ⟨_, p₁⟩, ⟨_, p₂⟩, ⟨_, p₃⟩], rfl, .container image⟩
    | ⟨.text _, _⟩ :: _ | ⟨.closeBrace, _⟩ :: _ | ⟨.openParen, _⟩ :: _ | ⟨.closeParen, _⟩ :: _
    | ⟨.colon, _⟩ :: _ | ⟨.comma, _⟩ :: _ => simp [parseAgentKind] at hr
  complete := by
    intro used a rest _ hd _
    generalize hls : used.map Token.lexeme = ls at hd
    cases hd with
    | none =>
      obtain ⟨p, rfl⟩ := map_lexeme_eq_singleton.1 hls
      simp [parseAgentKind]
    | container image =>
      simp only [map_lexeme_eq_cons, List.map_eq_nil_iff] at hls
      obtain ⟨p, _, rfl, p₁, _, rfl, p₂, _, rfl, p₃, _, rfl, rfl⟩ := hls
      rfl

theorem reads_param : Reads n DerivesParam anywhere (parseParam stop) where
  sound := by
    intro ts a rest hr
    obtain ⟨⟨key, ts₁⟩, hkey, hr⟩ := bind_eq_ok.1 hr
    obtain ⟨ts₂, hcolon, hr⟩ := bind_eq_ok.1 hr
    obtain ⟨⟨value, ts₃⟩, hvalue, hr⟩ := bind_eq_ok.1 hr
    obtain ⟨rfl, rfl⟩ := Prod.mk.inj (Except.ok.inj hr)
    obtain ⟨p₁, rfl⟩ := needWord_eq_ok.1 hkey
    obtain ⟨p₂, rfl⟩ := needMark_eq_ok.1 hcolon
    obtain ⟨p₃, rfl⟩ := needText_eq_ok.1 hvalue
    exact ⟨[⟨_, p₁⟩, ⟨_, p₂⟩, ⟨_, p₃⟩], rfl, .mk key value⟩
  complete := by
    intro used a rest _ hd _
    generalize hls : used.map Token.lexeme = ls at hd
    cases hd with
    | mk key value =>
      simp only [map_lexeme_eq_cons, List.map_eq_nil_iff] at hls
      obtain ⟨p₁, _, rfl, p₂, _, rfl, p₃, _, rfl, rfl⟩ := hls
      rfl

theorem loop_moreParams : Loop (atLexeme .comma)
    (fun ts => need stop .comma (.mark .comma) ts >>= parseParam stop) (parseMoreParams stop) where
  stop fuel ts h := by
    rcases h with rfl | h
    · rfl
    · unfold parseMoreParams
      split
      · simp [atLexeme] at h
      · rfl
  go fuel ts h := by
    match ts with
    | [] => cases h
    | ⟨l, p⟩ :: ts =>
      obtain rfl : l = .comma := by simpa [atLexeme] using h
      simp [parseMoreParams, need]
      rfl

theorem reads_moreParams : Reads n (Star (After .comma DerivesParam))
    (fun rest => atLexeme .comma rest = false ∧ anywhere rest) (parseMoreParams stop n) := by
  have hitem (n : Nat) : Reads n (After .comma DerivesParam) anywhere fun ts =>
      need stop .comma (.mark .comma) ts >>= parseParam stop := reads_param.after .comma (.mark .comma)
  refine Reads.star hitem loop_moreParams (fun used rest a h => ?_) fun _ _ => trivial
  generalize hls : used.map Token.lexeme = ls at h
  cases h with
  | mk h =>
    obtain ⟨p, us, rfl, _⟩ := map_lexeme_eq_cons.1 hls
    simp [atLexeme]

/-- A further parameter after a step would belong to it. -/
theorem reads_step : Reads n DerivesStep (fun rest => atLexeme .comma rest = false) (parseStep stop) where
  sound := by
    intro ts a rest hr
    obtain ⟨⟨command, ts₁⟩, hword, hstep⟩ := bind_eq_ok.1 hr
    obtain ⟨p, rfl⟩ := needWord_eq_ok.1 hword
    simp only at hstep
    split at hstep
    · obtain ⟨rfl, rfl⟩ := Prod.mk.inj (Except.ok.inj hstep)
      exact ⟨[_, _], rfl, .single command _⟩
    · obtain ⟨⟨param, ts₂⟩, hparam, hrest⟩ := bind_eq_ok.1 hstep
      obtain ⟨⟨params, ts₃⟩, hmore, hrest⟩ := bind_eq_ok.1 hrest
      obtain ⟨rfl, rfl⟩ := Prod.mk.inj (Except.ok.inj hrest)
      obtain ⟨used, hused, hd⟩ := (reads_param (n := 0)).sound hparam
      obtain ⟨used', rfl, hds⟩ := reads_moreParams.sound hmore
      rw [hused]
      exact ⟨⟨.word command, p⟩ :: (used ++ used'), by simp, by simpa using DerivesStep.multi command hd hds⟩
    · simp at hstep
  complete := by
    intro used a rest hl hd hf
    generalize hls : used.map Token.lexeme = ls at hd
    cases hd with
    | single command value =>
      simp only [map_lexeme_eq_cons, List.map_eq_nil_iff] at hls
      obtain ⟨p₁, _, rfl, p₂, _, rfl, rfl⟩ := hls
      rfl
    | multi command head tail =>
      obtain ⟨p, us, rfl, hus⟩ := map_lexeme_eq_cons.1 hls
      obtain ⟨used, used', rfl, hused, rfl⟩ := List.map_eq_append_iff.1 hus
      have hparam : parseParam stop (used ++ (used' ++ rest)) = .ok (_, used' ++ rest) :=
        reads_param.complete (Nat.le_refl _) (hused.symm ▸ head) trivial
      have hmore : parseMoreParams stop _ (used' ++ rest) = .ok (_, rest) :=
        reads_moreParams.complete (Nat.le_refl _) tail ⟨hf, trivial⟩
      cases head with
      | mk key value =>
        simp only [map_lexeme_eq_cons, List.map_eq_nil_iff] at hused
        obtain ⟨p₁, _, rfl, p₂, _, rfl, p₃, _, rfl, rfl⟩ := hused
        exact bind_eq_ok.2 ⟨_, rfl, bind_eq_ok.2 ⟨_, hparam, bind_eq_ok.2 ⟨_, hmore, rfl⟩⟩⟩

def atWord : List Token → Bool
  | ⟨.word _, _⟩ :: _ => true
  | _ => false

theorem exists_of_atWord {ts : List Token} (h : atWord ts = true) :
    ∃ name p ts', ts = ⟨.word name, p⟩ :: ts' := by
  match ts with
  | ⟨.word name, p⟩ :: ts => exact ⟨name, p, ts, rfl⟩

theorem atComma_of_atWord {ts : List Token} (h : atWord ts = true) : atLexeme .comma ts = false := by
  obtain ⟨name, p, ts, rfl⟩ := exists_of_atWord h
  simp [atLexeme]

theorem atWord_of_derivesStep (used rest : List Token) (a : Step) (h : DerivesStep (used.map Token.lexeme) a) :
    atWord (used ++ rest) = true := by
  generalize hls : used.map Token.lexeme = ls at h
  cases h <;>
  · obtain ⟨p, us, rfl, _⟩ := map_lexeme_eq_cons.1 hls
    rfl

theorem loop_moreSteps : Loop atWord (parseStep stop) (parseMoreSteps stop) where
  stop fuel ts h := by
    rcases h with rfl | h
    · rfl
    · unfold parseMoreSteps
      split
      · cases h
      · rfl
  go fuel ts h := by
    obtain ⟨name, p, ts, rfl⟩ := exists_of_atWord h
    rfl

theorem reads_moreSteps : Reads n (Star DerivesStep)
    (fun rest => atWord rest = false ∧ atLexeme .comma rest = false) (parseMoreSteps stop n) := by
  have hitem (n : Nat) : Reads n DerivesStep (fun rest => atLexeme .comma rest = false) (parseStep stop) :=
    reads_step
  exact Reads.star hitem loop_moreSteps atWord_of_derivesStep fun _ => atComma_of_atWord

theorem reads_steps : Reads n (Plus DerivesStep)
    (fun rest => atWord rest = false ∧ atLexeme .comma rest = false) (parseSteps stop) :=
  Reads.plus reads_step (fun _ => reads_moreSteps) atWord_of_derivesStep fun _ => atComma_of_atWord

theorem reads_boolean : Reads n DerivesBoolean anywhere (parseBoolean stop) where
  sound := by
    intro ts a rest hr
    rw [parseBoolean.eq_def] at hr
    split at hr
    · rename_i name p ts
      split at hr
      · rename_i hname
        obtain ⟨rfl, rfl⟩ := Prod.mk.inj (Except.ok.inj hr)
        exact ⟨[⟨.word name, p⟩], rfl, hname ▸ .true⟩
      · split at hr
        · rename_i hname
          obtain ⟨rfl, rfl⟩ := Prod.mk.inj (Except.ok.inj hr)
          exact ⟨[⟨.word name, p⟩], rfl, hname ▸ .false⟩
        · simp at hr
    · simp at hr
  complete := by
    intro used a rest _ hd _
    generalize hls : used.map Token.lexeme = ls at hd
    cases hd <;>
    · obtain ⟨p, rfl⟩ := map_lexeme_eq_singleton.1 hls
      rfl

/-! ### Stages -/

/-- Whatever the clauses of a stage are, each of the keywords stands only before its own. -/
theorem Optional.atKeyword {α : Type} {D : List Lexeme → α → Prop} {word other : String} {a : Option α}
    {used rest : List Token} (h : Optional (After (.word word) D) (used.map Token.lexeme) a)
    (hne : word ≠ other) (hrest : atKeyword other rest = false) : atKeyword other (used ++ rest) = false := by
  generalize hls : used.map Token.lexeme = ls at h
  cases h with
  | absent =>
    obtain rfl := List.map_eq_nil_iff.1 hls
    exact hrest
  | present h =>
    cases h with
    | mk h =>
      obtain ⟨p, us, rfl, _⟩ := map_lexeme_eq_cons.1 hls
      simpa [Source.atKeyword] using hne

theorem reads_stage {fuel : Nat} (h : Reads (fuel - 1) (Plus DerivesStage)
      (fun rest => atKeyword "stage" rest = false) (parseStages stop fuel)) :
    Reads (fuel + 1) DerivesStage anywhere (parseStage stop (fuel + 1)) := by
  have hagent : Reads (fuel - 1) (Optional DerivesAgent) _ (optional "agent" (parseAgentKind stop)) :=
    reads_agentKind.optional "agent"
  have hsteps : Reads (fuel - 1) (Optional DerivesSteps) _ (optional "steps" (braced stop (parseSteps stop))) :=
    (reads_steps.braced fun _ _ => ⟨rfl, by simp [atLexeme]⟩).optional "steps"
  have hfailFast : Reads (fuel - 1) (Optional DerivesFailFast) _ (optional "failFast" (parseBoolean stop)) :=
    reads_boolean.optional "failFast"
  have hparallel : Reads (fuel - 1) (Optional (After (.word "parallel") (Braces (Plus DerivesStage)))) _
      (optional "parallel" (braced stop (parseStages stop fuel))) :=
    (h.braced fun _ _ => by simp [atKeyword]).optional "parallel"
  constructor
  · intro ts a rest hr
    rw [parseStage] at hr
    obtain ⟨ts₁, h₁, hr⟩ := bind_eq_ok.1 hr
    obtain ⟨ts₂, h₂, hr⟩ := bind_eq_ok.1 hr
    obtain ⟨⟨name, ts₃⟩, h₃, hr⟩ := bind_eq_ok.1 hr
    obtain ⟨ts₄, h₄, hr⟩ := bind_eq_ok.1 hr
    obtain ⟨ts₅, h₅, hr⟩ := bind_eq_ok.1 hr
    obtain ⟨⟨agent, ts₆⟩, h₆, hr⟩ := bind_eq_ok.1 hr
    obtain ⟨⟨steps, ts₇⟩, h₇, hr⟩ := bind_eq_ok.1 hr
    obtain ⟨⟨failFast, ts₈⟩, h₈, hr⟩ := bind_eq_ok.1 hr
    obtain ⟨⟨parallel, ts₉⟩, h₉, hr⟩ := bind_eq_ok.1 hr
    obtain ⟨ts₁₀, h₁₀, hr⟩ := bind_eq_ok.1 hr
    obtain ⟨rfl, rfl⟩ := Prod.mk.inj (Except.ok.inj hr)
    obtain ⟨p₁, rfl⟩ := needKeyword_eq_ok.1 h₁
    obtain ⟨p₂, rfl⟩ := needMark_eq_ok.1 h₂
    obtain ⟨p₃, rfl⟩ := needText_eq_ok.1 h₃
    obtain ⟨p₄, rfl⟩ := needMark_eq_ok.1 h₄
    obtain ⟨p₅, rfl⟩ := needMark_eq_ok.1 h₅
    obtain ⟨us₁, rfl, hd₁⟩ := hagent.sound h₆
    obtain ⟨us₂, rfl, hd₂⟩ := hsteps.sound h₇
    obtain ⟨us₃, rfl, hd₃⟩ := hfailFast.sound h₈
    obtain ⟨us₄, rfl, hd₄⟩ := hparallel.sound h₉
    obtain ⟨p₆, rfl⟩ := needStageEnd_eq_ok.1 h₁₀
    refine ⟨⟨.word "stage", p₁⟩ :: ⟨.openParen, p₂⟩ :: ⟨.text name, p₃⟩ :: ⟨.closeParen, p₄⟩ ::
      ⟨.openBrace, p₅⟩ :: (us₁ ++ (us₂ ++ (us₃ ++ (us₄ ++ [⟨.closeBrace, p₆⟩])))), by simp, ?_⟩
    simpa using DerivesStage.mk name hd₁ hd₂ hd₃ hd₄
  · intro used a rest hl hd _
    generalize hls : used.map Token.lexeme = ls at hd
    cases hd with
    | @mk as ss fs ps name agent steps failFast parallel hd₁ hd₂ hd₃ hd₄ =>
      simp only [map_lexeme_eq_cons, List.map_eq_append_iff, List.map_eq_nil_iff] at hls
      obtain ⟨p₁, _, rfl, p₂, _, rfl, p₃, _, rfl, p₄, _, rfl, p₅, _, rfl, us₁, _, rfl, rfl, us₂, _, rfl, rfl,
        us₃, _, rfl, rfl, us₄, _, rfl, rfl, p₆, _, rfl, rfl⟩ := hls
      have hend (other : String) : atKeyword other (⟨.closeBrace, p₆⟩ :: rest) = false := by simp [atKeyword]
      have h₄ (other : String) (ho : "parallel" ≠ other) := hd₄.atKeyword ho (hend other)
      have h₃ (other : String) (ho : "parallel" ≠ other) (ho' : "failFast" ≠ other) :=
        hd₃.atKeyword ho' (h₄ other ho)
      have h₂ := hd₂.atKeyword (by decide) (h₃ "agent" (by decide) (by decide))
      simp only [List.cons_append, List.append_assoc, List.nil_append, List.length_cons, List.length_append] at hl ⊢
      have r₄ : optional "parallel" _ (us₄ ++ ⟨.closeBrace, p₆⟩ :: rest) = .ok (parallel, _) :=
        hparallel.complete (by simp; omega) hd₄ (hend "parallel")
      have r₃ : optional "failFast" _ (us₃ ++ (us₄ ++ ⟨.closeBrace, p₆⟩ :: rest)) = .ok (failFast, _) :=
        hfailFast.complete (by simp; omega) hd₃ (h₄ "failFast" (by decide))
      have r₂ : optional "steps" _ (us₂ ++ (us₃ ++ (us₄ ++ ⟨.closeBrace, p₆⟩ :: rest))) = .ok (steps, _) :=
        hsteps.complete (by simp; omega) hd₂ (h₃ "steps" (by decide) (by decide))
      have r₁ : optional "agent" _ (us₁ ++ (us₂ ++ (us₃ ++ (us₄ ++ ⟨.closeBrace, p₆⟩ :: rest)))) = .ok (agent, _) :=
        hagent.complete (by simp; omega) hd₁ h₂
      rw [parseStage]
      refine bind_eq_ok.2 ⟨_, needKeyword_eq_ok.2 ⟨p₁, rfl⟩, bind_eq_ok.2 ⟨_, needMark_eq_ok.2 ⟨p₂, rfl⟩, ?_⟩⟩
      refine bind_eq_ok.2 ⟨_, needText_eq_ok.2 ⟨p₃, rfl⟩, bind_eq_ok.2 ⟨_, needMark_eq_ok.2 ⟨p₄, rfl⟩, ?_⟩⟩
      refine bind_eq_ok.2 ⟨_, needMark_eq_ok.2 ⟨p₅, rfl⟩, bind_eq_ok.2 ⟨_, r₁, bind_eq_ok.2 ⟨_, r₂, ?_⟩⟩⟩
      refine bind_eq_ok.2 ⟨_, r₃, bind_eq_ok.2 ⟨_, r₄, bind_eq_ok.2 ⟨_, ?_, rfl⟩⟩⟩
      exact needStageEnd_eq_ok.2 ⟨p₆, rfl⟩

theorem atKeyword_of_derivesStage {used : List Token} {a : Stage} (rest : List Token)
    (h : DerivesStage (used.map Token.lexeme) a) : atKeyword "stage" (used ++ rest) = true := by
  generalize hls : used.map Token.lexeme = ls at h
  cases h with
  | mk =>
    obtain ⟨p, us, rfl, _⟩ := map_lexeme_eq_cons.1 hls
    simp [atKeyword]

theorem reads_stages {fuel : Nat} (hstage : Reads fuel DerivesStage anywhere (parseStage stop fuel))
    (h : Reads (fuel - 1) (Plus DerivesStage) (fun rest => atKeyword "stage" rest = false)
      (parseStages stop fuel)) :
    Reads fuel (Plus DerivesStage) (fun rest => atKeyword "stage" rest = false)
      (parseStages stop (fuel + 1)) where
  sound := by
    intro ts as rest hr
    rw [parseStages] at hr
    obtain ⟨⟨a, ts₁⟩, hread, hrest⟩ := bind_eq_ok.1 hr
    obtain ⟨used, rfl, hd⟩ := hstage.sound hread
    simp only at hrest
    split at hrest
    · obtain ⟨⟨as', ts₂⟩, hmore, hrest⟩ := bind_eq_ok.1 hrest
      obtain ⟨rfl, rfl⟩ := Prod.mk.inj (Except.ok.inj hrest)
      obtain ⟨used', rfl, hds⟩ := h.sound hmore
      refine ⟨used ++ used', by simp, ?_⟩
      rw [List.map_append]
      exact .mk hd hds.star
    · obtain ⟨rfl, rfl⟩ := Prod.mk.inj (Except.ok.inj hrest)
      exact ⟨used, rfl, by simpa using Plus.mk hd .nil⟩
  complete := by
    intro used as rest hl hd hf
    generalize hls : used.map Token.lexeme = ls at hd
    cases hd with
    | @mk ls ms a as head tail =>
      obtain ⟨used, used', rfl, rfl, rfl⟩ := List.map_eq_append_iff.1 hls
      rw [List.append_assoc] at hl ⊢
      rw [parseStages]
      refine bind_eq_ok.2 ⟨_, hstage.complete hl head trivial, ?_⟩
      simp only
      generalize hms : used'.map Token.lexeme = ms at tail
      cases tail with
      | nil =>
        obtain rfl := List.map_eq_nil_iff.1 hms
        rw [List.nil_append, if_neg (by simp [hf])]
        rfl
      | cons head' tail' =>
        have hne : used ≠ [] := fun e => by
          subst e
          have := atKeyword_of_derivesStage [] head
          cases this
        have hmore : parseStages stop fuel (used' ++ rest) = .ok (_, rest) :=
          h.complete (by have := List.length_pos_iff.2 hne; simp at hl ⊢; omega) (hms ▸ Plus.mk head' tail') hf
        obtain ⟨us, us', rfl, rfl, rfl⟩ := List.map_eq_append_iff.1 hms
        rw [if_pos (by rw [List.append_assoc]; exact atKeyword_of_derivesStage _ head')]
        exact bind_eq_ok.2 ⟨_, hmore, rfl⟩

/-- Stages are read whole, however deep they nest, by readers that may go as deep as there are tokens. -/
theorem reads_nested (fuel : Nat) : Reads fuel DerivesStage anywhere (parseStage stop fuel) ∧
    Reads (fuel - 1) (Plus DerivesStage) (fun rest => atKeyword "stage" rest = false)
      (parseStages stop fuel) := by
  induction fuel with
  | zero =>
    have hnil {used rest : List Token} {a : Stage} (hl : (used ++ rest).length ≤ 0)
        (hd : DerivesStage (used.map Token.lexeme) a) : False := by
      have := atKeyword_of_derivesStage rest hd
      rw [List.length_eq_zero_iff.1 (Nat.le_zero.1 hl)] at this
      cases this
    refine ⟨⟨fun hr => by simp [parseStage] at hr, fun hl hd _ => (hnil hl hd).elim⟩,
      fun hr => by simp [parseStages] at hr, fun {used as rest} hl hd _ => ?_⟩
    generalize hls : used.map Token.lexeme = ls at hd
    cases hd with
    | mk head _ =>
      obtain ⟨us, us', rfl, rfl, rfl⟩ := List.map_eq_append_iff.1 hls
      rw [List.append_assoc] at hl
      exact (hnil hl head).elim
  | succ fuel ih => exact ⟨reads_stage ih.2, reads_stages ih.1 ih.2⟩

theorem reads_stageBlock : Reads n DerivesStages anywhere (parseStageBlock stop) where
  sound := by
    intro ts a rest hr
    obtain ⟨ts₁, hkeyword, hread⟩ := bind_eq_ok.1 hr
    obtain ⟨used, rfl, hd⟩ := ((reads_nested _).2.braced fun _ _ => by simp [atKeyword]).sound hread
    obtain ⟨p, rfl⟩ := needKeyword_eq_ok.1 hkeyword
    exact ⟨⟨.word "stages", p⟩ :: used, rfl, .mk hd⟩
  complete := by
    intro used a rest _ hd _
    generalize hls : used.map Token.lexeme = ls at hd
    cases hd with
    | mk hd =>
      obtain ⟨p, used, rfl, rfl⟩ := map_lexeme_eq_cons.1 hls
      refine bind_eq_ok.2 ⟨used ++ rest, needKeyword_eq_ok.2 ⟨p, rfl⟩, ?_⟩
      refine ((reads_nested _).2.braced fun _ _ => by simp [atKeyword]).complete ?_ hd trivial
      simp only [List.cons_append, List.length_cons]
      omega

theorem reads_body : Reads n DerivesBody anywhere (parsePipelineBody stop) where
  sound := by
    intro ts a rest hr
    obtain ⟨⟨agent, ts₁⟩, hagent, hr⟩ := bind_eq_ok.1 hr
    obtain ⟨⟨stages, ts₂⟩, hstages, hr⟩ := bind_eq_ok.1 hr
    obtain ⟨rfl, rfl⟩ := Prod.mk.inj (Except.ok.inj hr)
    obtain ⟨used, rfl, hd⟩ :=
      ((reads_agentKind (n := 0)).after (.word "agent") (.keyword "agent")).sound hagent
    obtain ⟨used', rfl, hd'⟩ := (reads_stageBlock (n := 0)).sound hstages
    exact ⟨used ++ used', by simp, by simpa using DerivesBody.mk hd hd'⟩
  complete := by
    intro used a rest hl hd _
    generalize hls : used.map Token.lexeme = ls at hd
    cases hd with
    | mk hagent hstages =>
      obtain ⟨used, used', rfl, rfl, rfl⟩ := List.map_eq_append_iff.1 hls
      rw [List.append_assoc]
      have hread : parseAgent stop (used ++ (used' ++ rest)) = .ok (_, used' ++ rest) :=
        (reads_agentKind.after (.word "agent") (.keyword "agent")).complete (Nat.le_refl _) hagent trivial
      have hread' : parseStageBlock stop (used' ++ rest) = .ok (_, rest) :=
        reads_stageBlock.complete (Nat.le_refl _) hstages trivial
      exact bind_eq_ok.2 ⟨_, hread, bind_eq_ok.2 ⟨_, hread', rfl⟩⟩

theorem parseAll_eq_ok {ts : List Token} {p : Pipeline} :
    parseAll stop ts = .ok p ↔ DerivesPipeline (ts.map Token.lexeme) p := by
  have hpipeline (n : Nat) : Reads n DerivesPipeline anywhere fun ts =>
      needKeyword stop "pipeline" ts >>= braced stop (parsePipelineBody stop) :=
    (reads_body.braced fun _ _ => trivial).after (.word "pipeline") (.keyword "pipeline")
  constructor
  · intro hr
    obtain ⟨ts₁, hkeyword, hrest⟩ := bind_eq_ok.1 hr
    obtain ⟨⟨q, ts₂⟩, hread, hend⟩ := bind_eq_ok.1 hrest
    obtain ⟨used, rfl, hd⟩ := (hpipeline 0).sound (bind_eq_ok.2 ⟨ts₁, hkeyword, hread⟩)
    simp only at hend
    split at hend
    · obtain rfl := Except.ok.inj hend
      rwa [List.append_nil]
    · simp at hend
  · intro hd
    obtain ⟨ts₁, hkeyword, hread⟩ :=
      bind_eq_ok.1 ((hpipeline _).complete (Nat.le_refl (ts ++ []).length) hd trivial)
    rw [List.append_nil] at hkeyword
    exact bind_eq_ok.2 ⟨ts₁, hkeyword, bind_eq_ok.2 ⟨_, hread, rfl⟩⟩

/-- The parser returns a pipeline exactly if the lexemes of the tokens, from the first to the last, are a
derivation of it, and they are a derivation of no more than one. -/
theorem parse_eq_ok_iff (ts : Tokens) :
    (∀ p, ts.parse = .ok p ↔ DerivesPipeline (ts.list.map Token.lexeme) p) ∧
      ∀ p q, DerivesPipeline (ts.list.map Token.lexeme) p → DerivesPipeline (ts.list.map Token.lexeme) q →
        p = q := by
  refine ⟨fun p => parseAll_eq_ok, fun p q hp hq => ?_⟩
  have hparse : ts.parse = .ok p := parseAll_eq_ok.2 hp
  exact Except.ok.inj (hparse.symm.trans (parseAll_eq_ok.2 hq))

end StageTree.Source

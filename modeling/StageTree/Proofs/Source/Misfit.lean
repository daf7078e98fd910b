import StageTree.Proofs.Source.Strict

/-! Where the parser refuses tokens. Each of its readers is strict, so the error names the first token that no
sentence goes on with, and the tokens before it start a sentence. A word after the command of a step is refused
itself where the token after it tells that it is not the name of a parameter. -/

namespace StageTree.Source

variable {stop : Position} {n : Nat}

/-! ### Tokens and steps -/

def words : Language Lexeme := {ls | ∃ name, ls = [.word name]}

def texts : Language Lexeme := {ls | ∃ value, ls = [.text value]}

theorem exists_word : ∃ ls, ls ∈ words := ⟨_, "", rfl⟩

theorem exists_text : ∃ ls, ls ∈ texts := ⟨_, "", rfl⟩

theorem strict_word (expected : Expected) : Strict stop n words (needWord stop expected) where
  inhabited := exists_word
  settled ts _ := by
    match ts with
    | [] => exact .refuse_nil expected exists_word rfl
    | ⟨l, p⟩ :: ts =>
      cases l with
      | word name => exact .one name ⟨name, rfl⟩ fun us => rfl
      | _ => exact .refuse_cons expected exists_word fun us => rfl

theorem strict_text (expected : Expected) : Strict stop n texts (needText stop expected) where
  inhabited := exists_text
  settled ts _ := by
    match ts with
    | [] => exact .refuse_nil expected exists_text rfl
    | ⟨l, p⟩ :: ts =>
      cases l with
      | text value => exact .one value ⟨value, rfl⟩ fun us => rfl
      | _ => exact .refuse_cons expected exists_text fun us => rfl

theorem strict_param : Strict stop n (language DerivesParam) (parseParam stop) := by
  have hvalue (key : String) : Strict stop n ({[.colon]} * texts) fun ts =>
      needMark stop .colon ts >>= fun ts => needText stop .paramValue ts >>= fun x => .ok (Param.mk key x.1, x.2) :=
    ((strict_text .paramValue).map (Param.mk key)).need .colon (.mark .colon)
  refine ((strict_word .paramName).bind hvalue).mono ?_
  rintro _ ⟨_, ⟨key, rfl⟩, _, ⟨_, rfl, _, ⟨value, rfl⟩, rfl⟩, rfl⟩
  exact ⟨_, .mk key value⟩

theorem not_after_nil (l : Lexeme) {α : Type} {D : List Lexeme → α → Prop} (a : α) : ¬After l D [] a := by
  rintro ⟨⟩

theorem strict_moreParams : Strict stop n (language (Star (After .comma DerivesParam)))
    fun ts => parseMoreParams stop ts.length ts := by
  have hread : Reads 0 (After .comma DerivesParam) anywhere fun ts =>
      need stop .comma (.mark .comma) ts >>= parseParam stop := reads_param.after .comma (.mark .comma)
  exact Strict.star (fun n => strict_param.after .comma (.mark .comma)) loop_moreParams
    (fun h => h.congr _ fun _ _ _ => rfl) rfl (not_after_nil .comma) (hread.length_lt (not_after_nil .comma))

/-- A word after the command of a step is refused itself if no colon follows it. -/
theorem parseStep_of_not_colon (command word : String) (p q : Position) {ts : List Token}
    (h : ∀ t ∈ ts.head?, t.lexeme ≠ .colon) :
    parseStep stop (⟨.word command, p⟩ :: ⟨.word word, q⟩ :: ts) =
      refuse stop .stepArgument (⟨.word word, q⟩ :: ts) := by
  match ts with
  | [] => rfl
  | ⟨l, r⟩ :: ts =>
    cases l with
    | colon => exact absurd rfl (h _ rfl)
    | _ => rfl

example (p q r : Position) : parseStep stop [⟨.word "echo", p⟩, ⟨.word "loud", q⟩, ⟨.text "hi", r⟩] =
    .error ⟨.unexpected .stepArgument (.word "loud"), q⟩ := rfl

theorem settled_argument (command word : String) (p q : Position) (ts : List Token) :
    Settled stop (language DerivesStep) (parseStep stop) (⟨.word command, p⟩ :: ⟨.word word, q⟩ :: ts) := by
  by_cases hcolon : ∀ t ∈ ts.head?, t.lexeme ≠ .colon
  · have hnext : (ts.map Token.lexeme).head? ≠ some .colon := by
      rw [List.head?_map]
      rintro h
      obtain ⟨t, ht, hl⟩ := Option.map_eq_some_iff.1 h
      exact hcolon t ht hl
    apply Settled.refused [⟨.word command, p⟩] (⟨.word word, q⟩ :: ts) .stepArgument 2
      (@Misfit.argument (language DerivesStep) [] _ command word (fun ms s hs => ⟨[], s, by simpa using hs⟩) hnext)
    intro us hus
    obtain ⟨vs, rfl, hvs⟩ := hus.exists_cons
    have hhead : vs.head? = ts.head? := hvs.congr List.head? fun _ _ _ => rfl
    rw [List.singleton_append, parseStep_of_not_colon command word p q (hhead ▸ hcolon), refuse_eq]
    rfl
  · match ts with
    | [] => exact absurd (by simp) hcolon
    | ⟨l, r⟩ :: ts =>
      obtain rfl : l = .colon := by simpa using hcolon
      have hparams := ((@strict_text stop ts.length .paramValue).bind fun value =>
        strict_moreParams.map fun ps => Step.multi command (⟨word, value⟩ :: ps)).settled ts (Nat.le_refl _)
      refine (Settled.cons (Settled.cons (Settled.cons (hparams.of_head fun us _ => ?_)))).mono ?_
      · show ((needText stop .paramValue us >>= _) >>= _) = _
        cases needText stop .paramValue us <;> rfl
      · rintro _ ⟨_, rfl, _, ⟨_, rfl, _, ⟨_, rfl, _, ⟨_, ⟨value, rfl⟩, ms, ⟨ps, hps⟩, rfl⟩, rfl⟩, rfl⟩, rfl⟩
        exact ⟨_, @DerivesStep.multi _ ms ⟨word, value⟩ ps command (.mk word value) hps⟩

theorem strict_step : Strict stop n (language DerivesStep) (parseStep stop) where
  inhabited := ⟨_, _, .single "" ""⟩
  settled ts hts := by
    have hstep : ∃ ls, ls ∈ language DerivesStep := ⟨_, _, .single "" ""⟩
    have hsingle (command : String) :
        ∀ ls ∈ ({[.word command]} * texts : Language Lexeme), ls ∈ language DerivesStep := by
      rintro _ ⟨_, rfl, _, ⟨value, rfl⟩, rfl⟩
      exact ⟨_, .single command value⟩
    match ts with
    | [] => exact .refuse_nil .stepCommand hstep rfl
    | ⟨.word command, p⟩ :: [] =>
      exact (Settled.cons (.refuse_nil .stepArgument exists_text rfl)).mono (hsingle command)
    | ⟨.word command, p⟩ :: ⟨l, q⟩ :: ts =>
      cases l with
      | word word => exact settled_argument command word p q ts
      | text value =>
        have htext : [.text value] ∈ texts := ⟨value, rfl⟩
        exact (Settled.cons (.one (.single command value) htext fun us => rfl)).mono (hsingle command)
      | _ => exact (Settled.cons (.refuse_cons .stepArgument exists_text fun us => rfl)).mono (hsingle command)
    | ⟨.text _, p⟩ :: ts | ⟨.openBrace, p⟩ :: ts | ⟨.closeBrace, p⟩ :: ts | ⟨.openParen, p⟩ :: ts
    | ⟨.closeParen, p⟩ :: ts | ⟨.colon, p⟩ :: ts | ⟨.comma, p⟩ :: ts =>
      exact .refuse_cons .stepCommand hstep fun us => rfl

theorem not_derivesStep_nil (s : Step) : ¬DerivesStep [] s := by
  rintro ⟨⟩

theorem length_lt_of_parseStep {ts rest : List Token} {s : Step} (h : parseStep stop ts = .ok (s, rest)) :
    rest.length < ts.length := (reads_step (n := 0)).length_lt not_derivesStep_nil h

theorem strict_steps : Strict stop n (language (Plus DerivesStep)) (parseSteps stop) :=
  strict_step.plus <| Strict.star (fun _ => strict_step) loop_moreSteps
    (fun h => h.congr atWord fun ⟨l, _⟩ _ _ => by cases l <;> rfl) rfl not_derivesStep_nil length_lt_of_parseStep

/-! ### Clauses -/

theorem strict_boolean : Strict stop n (language DerivesBoolean) (parseBoolean stop) where
  inhabited := ⟨_, _, .true⟩
  settled ts _ := by
    have hword : ∃ ls, ls ∈ language DerivesBoolean := ⟨_, _, .true⟩
    match ts with
    | [] => exact .refuse_nil .boolean hword rfl
    | ⟨.word name, p⟩ :: ts =>
      by_cases htrue : name = "true"
      · subst htrue
        exact .one true ⟨_, .true⟩ fun us => rfl
      · by_cases hfalse : name = "false"
        · subst hfalse
          exact .one false ⟨_, .false⟩ fun us => rfl
        · exact .refuse_cons .boolean hword fun us => by rw [parseBoolean, if_neg htrue, if_neg hfalse]
    | ⟨.text _, p⟩ :: ts | ⟨.openBrace, p⟩ :: ts | ⟨.closeBrace, p⟩ :: ts | ⟨.openParen, p⟩ :: ts
    | ⟨.closeParen, p⟩ :: ts | ⟨.colon, p⟩ :: ts | ⟨.comma, p⟩ :: ts =>
      exact .refuse_cons .boolean hword fun us => rfl

theorem strict_agentKind : Strict stop n (language DerivesAgentKind) (parseAgentKind stop) where
  inhabited := ⟨_, _, .none⟩
  settled ts _ := by
    have hword : ∃ ls, ls ∈ language DerivesAgentKind := ⟨_, _, .none⟩
    match ts with
    | [] => exact .refuse_nil .agent hword rfl
    | ⟨.word name, p⟩ :: ts =>
      by_cases hnone : name = "none"
      · subst hnone
        exact .one .none ⟨_, .none⟩ fun us => rfl
      · exact .refuse_cons .agent hword fun us => by rw [parseAgentKind, if_neg hnone]
    | ⟨.openBrace, p⟩ :: ts =>
      have hclose (image : String) : Strict stop ts.length ({[.closeBrace]} * 1) fun ts =>
          needMark stop .closeBrace ts >>= fun ts => .ok (Agent.container image, ts) :=
        (Strict.ok _).need .closeBrace (.mark .closeBrace)
      have hdocker := (((strict_text .image).bind hclose).of_le (Nat.sub_le _ 1)).need (.word "docker")
        (.keyword "docker")
      refine (Settled.cons ((hdocker.settled ts (Nat.le_refl _)).of_head fun _ _ => rfl)).mono ?_
      rintro _ ⟨_, rfl, _, ⟨_, rfl, _, ⟨_, ⟨image, rfl⟩, _, ⟨_, rfl, _, rfl, rfl⟩, rfl⟩, rfl⟩, rfl⟩
      exact ⟨_, .container image⟩
    | ⟨.text _, p⟩ :: ts | ⟨.closeBrace, p⟩ :: ts | ⟨.openParen, p⟩ :: ts
    | ⟨.closeParen, p⟩ :: ts | ⟨.colon, p⟩ :: ts | ⟨.comma, p⟩ :: ts =>
      exact .refuse_cons .agent hword fun us => rfl

/-! ### Stages -/

theorem derivesStage_empty : DerivesStage
    [.word "stage", .openParen, .text "", .closeParen, .openBrace, .closeBrace] { name := "" } :=
  .mk "" .absent .absent .absent .absent

theorem strict_stageWith {inner : List Token → Except Error (List Stage × List Token)}
    (h : Strict stop (n - 1) (language (Plus DerivesStage)) inner) :
    Strict stop n (language DerivesStage) (parseStageWith stop inner) := by
  have hagent : Strict stop (n - 1) (language (Optional DerivesAgent)) (optional "agent" (parseAgentKind stop)) :=
    strict_agentKind.optional "agent"
  have hsteps : Strict stop (n - 1) (language (Optional DerivesSteps))
      (optional "steps" (braced stop (parseSteps stop))) := strict_steps.braced.optional "steps"
  have hfailFast : Strict stop (n - 1) (language (Optional DerivesFailFast))
      (optional "failFast" (parseBoolean stop)) := strict_boolean.optional "failFast"
  have hparallel : Strict stop (n - 1) (language (Optional (After (.word "parallel") (Braces (Plus DerivesStage)))))
      (optional "parallel" (braced stop inner)) := (h.of_le (by omega)).braced.optional "parallel"
  have hend (s : Stage) : Strict stop (n - 1) ({[.closeBrace]} * 1) fun ts =>
      needStageEnd stop ts >>= fun ts => .ok (s, ts) := (Strict.ok s).need .closeBrace .stageClause
  have hclauses (name : String) := hagent.bind fun agent => hsteps.bind fun steps => hfailFast.bind fun failFast =>
    hparallel.bind fun parallel => hend { name, agent, steps := steps.getD [], failFast, parallel }
  have hbody (name : String) := ((hclauses name).of_le (Nat.sub_le _ 1)).need .openBrace (.mark .openBrace)
  have hclose (name : String) := ((hbody name).of_le (Nat.sub_le _ 1)).need .closeParen (.mark .closeParen)
  have hname := (strict_text .stageName).bind hclose
  have hopen := (hname.of_le (Nat.sub_le _ 1)).need .openParen (.mark .openParen)
  refine (hopen.need (.word "stage") (.keyword "stage")).mono ?_
  rintro _ ⟨_, rfl, _, ⟨_, rfl, _, ⟨_, ⟨name, rfl⟩, _, ⟨_, rfl, _, ⟨_, rfl, _, ⟨as, ⟨agent, ha⟩, _, ⟨ss, ⟨steps, hs⟩,
    _, ⟨fs, ⟨failFast, hf⟩, _, ⟨ps, ⟨parallel, hp⟩, _, ⟨_, rfl, _, rfl, rfl⟩, rfl⟩, rfl⟩, rfl⟩, rfl⟩, rfl⟩, rfl⟩,
    rfl⟩, rfl⟩, rfl⟩
  exact ⟨_, .mk name ha hs hf hp⟩

theorem strict_stages : Strict stop n (language (Plus DerivesStage)) (stages stop) := by
  have hword : ∃ ls, ls ∈ language (Plus DerivesStage) := ⟨_, _, .mk derivesStage_empty .nil⟩
  have hnone : ∃ ls, ls ∈ language (Star DerivesStage) := ⟨[], [], .nil⟩
  -- a stage takes a token, so fewer are left for the ones inside it and for the ones after it
  induction n with
  | zero =>
    refine ⟨hword, fun ts hts => ?_⟩
    obtain rfl := List.length_eq_zero_iff.1 (Nat.le_zero.1 hts)
    exact .refuse_nil (.keyword "stage") hword (parseStages_nil _)
  | succ n ih =>
    have hstage : Strict stop (n + 1) (language DerivesStage) (parseStageWith stop (stages stop)) :=
      strict_stageWith ih
    have hlength : ∀ ls ∈ language DerivesStage, 1 ≤ ls.length := by
      rintro _ ⟨_, ⟨⟩⟩
      exact Nat.le_add_left 1 _
    have hmore (s : Stage) : Strict stop n (language (Star DerivesStage)) fun ts =>
        if atKeyword "stage" ts then stages stop ts >>= fun x => .ok (s :: x.1, x.2) else .ok ([s], ts) := by
      refine ⟨hnone, fun ts hts => ?_⟩
      cases hat : atKeyword "stage" ts with
      | false =>
        refine ((Settled.ok [s]).of_head fun us hus => ?_).mono ?_
        · rw [hus.atKeyword_eq, hat]
          rfl
        · rintro _ rfl
          exact ⟨[], .nil⟩
      | true =>
        refine (((ih.map (s :: ·)).settled ts hts).of_head fun us hus => ?_).mono ?_
        · rw [hus.atKeyword_eq, hat]
          rfl
        · rintro ls ⟨ss, hss⟩
          exact ⟨ss, hss.star⟩
    refine ⟨hword, fun ts hts => ?_⟩
    refine (((hstage.bind_of_length 1 hlength hnone hmore).settled ts hts).of_head fun us _ => ?_).mono ?_
    · exact stages_eq us
    · rintro _ ⟨ls, ⟨s, hs⟩, ms, ⟨ss, hss⟩, rfl⟩
      exact ⟨_, .mk hs hss⟩

/-! ### Pipelines -/

theorem strict_body : Strict stop n (language DerivesBody) (parsePipelineBody stop) := by
  have hblock : Strict stop n (language DerivesStages) (parseStageBlock stop) := by
    rw [show parseStageBlock stop = _ from funext parseStageBlock_eq]
    exact strict_stages.braced.after (.word "stages") (.keyword "stages")
  have hagent : Strict stop n (language DerivesAgent) (parseAgent stop) :=
    strict_agentKind.after (.word "agent") (.keyword "agent")
  refine (hagent.bind fun agent => hblock.map (Pipeline.mk agent)).mono ?_
  rintro _ ⟨ls, ⟨agent, ha⟩, ms, ⟨ss, hs⟩, rfl⟩
  exact ⟨_, .mk ha hs⟩

/-- Nothing may come after a pipeline. -/
def needEnding (stop : Position) (p : Pipeline) : List Token → Except Error (Pipeline × List Token)
  | [] => .ok (p, [])
  | ts => refuse stop .ending ts

theorem strict_ending (p : Pipeline) : Strict stop n 1 (needEnding stop p) where
  inhabited := ⟨[], rfl⟩
  settled ts _ := by
    cases ts with
    | nil => exact .read [] [] p rfl fun us hus => by rw [hus.eq_nil]; rfl
    | cons t ts => exact .refuse_cons .ending ⟨[], rfl⟩ fun us => rfl

/-- The parser reads all tokens or refuses the first of them that does not fit. -/
theorem strict_parseAll : Strict stop n (language DerivesPipeline)
    fun ts => parseAll stop ts >>= fun p => .ok (p, []) := by
  have hpipeline : Strict stop n (language DerivesPipeline) fun ts =>
      needKeyword stop "pipeline" ts >>= braced stop (parsePipelineBody stop) :=
    strict_body.braced.after (.word "pipeline") (.keyword "pipeline")
  have hall := hpipeline.bind strict_ending
  rw [mul_one] at hall
  refine ⟨hall.inhabited, fun ts hts => (hall.settled ts hts).of_head fun us _ => ?_⟩
  unfold parseAll
  simp only [bind_assoc]
  apply bind_congr_ok
  intro vs _
  apply bind_congr_ok
  rintro ⟨p, rest⟩ _
  cases rest with
  | nil => rfl
  | cons t rest =>
    simp only [refuse_eq, needEnding]
    rfl

/-! ### Sentences, with the end as their last sign -/

def signs (ls : List Lexeme) : List (Option Lexeme) := ls.map some ++ [none]

/-- The sentences of the grammar. -/
def sentences : Language (Option Lexeme) := {ws | ∃ ls p, DerivesPipeline ls p ∧ signs ls = ws}

/-- The first signs of lexemes start a sentence. -/
def Begins (ls : List Lexeme) (k : Nat) : Prop := Viable sentences ((signs ls).take k)

/-- A word stands right after the command of a step, and no colon follows it. It is the command of a step that
stands where any step may. -/
def StrayWord (ls : List Lexeme) (i : Nat) : Prop :=
  ∃ before command word after, ls = before ++ .word command :: .word word :: after ∧ i = before.length + 1 ∧
    after.head? ≠ some .colon ∧ ∀ ms s, DerivesStep ms s → Viable sentences ((before ++ ms).map some)

theorem take_signs {i : Nat} {ls : List Lexeme} (h : i ≤ ls.length) : (signs ls).take i = (ls.take i).map some := by
  rw [signs, List.take_append_of_le_length (by rwa [List.length_map]), List.map_take]

/-- A sentence that goes on from the same signs has the same lexemes so far. -/
theorem take_eq_of_signs {k : Nat} {ls ks : List Lexeme} {ws : List (Option Lexeme)}
    (h : (signs ls).take k ++ ws = signs ks) : ks.take k = ls.take k := by
  induction k generalizing ls ks with
  | zero => rfl
  | succ k ih =>
    cases ls with
    | nil =>
      cases ks with
      | nil => rfl
      | cons k ks => simp [signs] at h
    | cons l ls =>
      cases ks with
      | nil => simp [signs] at h
      | cons l' ks =>
        obtain ⟨hl, htail⟩ := List.cons.inj h
        rw [List.take_succ_cons, List.take_succ_cons, Option.some.inj hl, ih htail]

theorem Viable.sentences {ls : List Lexeme} (h : Viable (language DerivesPipeline) ls) :
    Viable Source.sentences (ls.map some) := by
  obtain ⟨ms, p, hp⟩ := h
  exact ⟨ms.map some ++ [none], ls ++ ms, p, hp, by rw [signs, List.map_append, List.append_assoc]⟩

/-- Tokens of lexemes that begin with the same ones. -/
theorem exists_tokens {k : Nat} {ts : List Token} {ks : List Lexeme}
    (h : ks.take k = (ts.map Token.lexeme).take k) : ∃ us, us.map Token.lexeme = ks ∧ Agree k ts us := by
  induction k generalizing ts ks with
  | zero => exact ⟨ks.map fun l => ⟨l, default⟩, by simp [Function.comp_def], rfl⟩
  | succ k ih =>
    cases ts with
    | nil =>
      obtain rfl : ks = [] := by simpa using h
      exact ⟨[], rfl, rfl⟩
    | cons t ts =>
      cases ks with
      | nil => simp at h
      | cons l ks =>
        simp only [List.map_cons, List.take_succ_cons, List.cons.injEq] at h
        obtain ⟨us, hus, hagree⟩ := ih h.2
        refine ⟨t :: us, by rw [List.map_cons, hus, h.1], ?_⟩
        unfold Agree at hagree ⊢
        rw [List.take_succ_cons, List.take_succ_cons, hagree]

/-- No sentence goes on from what the parser saw when it refused. -/
theorem not_begins_of_again {used rest : List Token} {seen : Nat} {e : Error}
    (h : ∀ us, Agree seen rest us → parseAll stop (used ++ us) = .error e) :
    ¬Begins ((used ++ rest).map Token.lexeme) (used.length + seen) := by
  rintro ⟨ws, ks, p, hp, hks⟩
  obtain ⟨us, rfl, hus⟩ := exists_tokens (take_eq_of_signs hks.symm)
  obtain ⟨vs, rfl, hvs⟩ := hus.exists_append
  have hok : parseAll stop (used ++ vs) = .ok p := parseAll_eq_ok.2 hp
  rw [h vs hvs] at hok
  cases hok

theorem exists_of_parseAll_eq_error {ts : List Token} {e : Error} (h : parseAll stop ts = .error e) :
    ∃ used rest expected seen, ts = used ++ rest ∧ e = refusal stop expected rest ∧
      Misfit (language DerivesPipeline) (used.map Token.lexeme) (rest.map Token.lexeme) seen ∧
      ∀ us, Agree seen rest us → parseAll stop (used ++ us) = .error e := by
  have hsettled := (@strict_parseAll stop ts.length).settled ts (Nat.le_refl _)
  cases hsettled with
  | read used rest p hword hagain =>
    have hok := hagain rest (.refl 1 rest)
    rw [h] at hok
    cases hok
  | refused used rest expected seen hmisfit hagain =>
    have herror (us : List Token) (hus : Agree seen rest us) :
        parseAll stop (used ++ us) = .error (refusal stop expected rest) := by
      have hus' := hagain us hus
      cases hparse : parseAll stop (used ++ us) with
      | error e' =>
        rw [hparse] at hus'
        exact congrArg Except.error (Except.error.inj hus')
      | ok p =>
        rw [hparse] at hus'
        cases hus'
    have he : e = refusal stop expected rest := by
      rw [herror rest (.refl seen rest)] at h
      exact (Except.error.inj h).symm
    exact ⟨used, rest, expected, seen, rfl, he, hmisfit, fun us hus => he ▸ herror us hus⟩

/-- More than one token is looked at only if the first one is a stray word. -/
theorem Misfit.eq_one_or {ls next : List Lexeme} {seen : Nat} (h : Misfit (language DerivesPipeline) ls next seen) :
    seen = 1 ∨ seen = 2 ∧ StrayWord (ls ++ next) ls.length := by
  cases h with
  | next => exact .inl rfl
  | @argument before after command word hstep hnext =>
    refine .inr ⟨rfl, before, command, word, after, ?_, ?_, hnext, fun ms s hs => (hstep ms s hs).sentences⟩
    · rw [List.append_assoc, List.singleton_append]
    · rw [List.length_append, List.length_singleton]

/-- Up to a stray word, the signs may be those of a step with a parameter. -/
theorem StrayWord.begins {ls : List Lexeme} {i : Nat} (h : StrayWord ls i) : Begins ls (i + 1) := by
  obtain ⟨before, command, word, after, rfl, rfl, _, hstep⟩ := h
  have hparam := hstep _ _ (.multi command (.mk word "") .nil)
  have htake : (before ++ .word command :: .word word :: after).take (before.length + 1 + 1) =
      before ++ [.word command, .word word] := List.take_length_add_append 2
  rw [Begins, take_signs (by simp only [List.length_append, List.length_cons]; omega), htake]
  exact @Viable.of_append _ _ _ [some .colon, some (.text "")] (by simpa using hparam)

/-- A source that cannot be cut into tokens is refused with the same error. One whose tokens spell no pipeline is
refused at a token, or at the end, where the tokens before it start a sentence, and with it they do not. Only a
stray word after the command of a step still goes with them, and then they start none with the token after it. -/
theorem refused_at_first_misfit (source : String) :
    (∀ e, tokenize source = .error e → parse source = .error e) ∧
      ∀ ts e, tokenize source = .ok ts → parse source = .error e →
        ∃ i ≤ ts.list.length,
          (match ts.list[i]? with
            | some t => ∃ expected, e = ⟨.unexpected expected t.lexeme, t.position⟩
            | none => ∃ expected, e = ⟨.unexpectedEnd expected, ts.stop⟩) ∧
          Begins (ts.list.map Token.lexeme) i ∧
          (¬StrayWord (ts.list.map Token.lexeme) i → ¬Begins (ts.list.map Token.lexeme) (i + 1)) ∧
          (StrayWord (ts.list.map Token.lexeme) i →
            Begins (ts.list.map Token.lexeme) (i + 1) ∧ ¬Begins (ts.list.map Token.lexeme) (i + 2)) := by
  constructor
  · intro e he
    unfold parse
    rw [he]
    rfl
  · intro ts e hts he
    obtain ⟨list, stop⟩ := ts
    unfold parse at he
    rw [hts] at he
    obtain ⟨used, rest, expected, seen, rfl, rfl, hmisfit, hagain⟩ := exists_of_parseAll_eq_error he
    have hnot := not_begins_of_again hagain
    refine ⟨used.length, by rw [List.length_append]; omega, ?_, ?_, ?_, ?_⟩
    · simp only [List.getElem?_append_right (Nat.le_refl _), Nat.sub_self]
      cases rest with
      | nil => exact ⟨expected, rfl⟩
      | cons t rest => exact ⟨expected, rfl⟩
    · have hused := hmisfit.viable.sentences
      rw [Begins, take_signs (by simp)]
      simpa using hused
    · intro hstray
      obtain rfl | ⟨-, h⟩ := hmisfit.eq_one_or
      · exact hnot
      · exact absurd (by simpa using h) hstray
    · intro hstray
      refine ⟨hstray.begins, ?_⟩
      obtain rfl | ⟨rfl, -⟩ := hmisfit.eq_one_or
      · exact absurd hstray.begins hnot
      · exact hnot

end StageTree.Source

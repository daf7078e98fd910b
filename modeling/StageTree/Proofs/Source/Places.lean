import StageTree.Source.Parser

/-! Reading looks at lexemes alone. Wherever the tokens of the same lexemes stand, the parser reads the same
from them, or refuses them with the same fault. -/

namespace StageTree.Source

variable {α β γ δ : Type}

/-- Results that are related, or errors with the same fault. -/
inductive Alike (R : α → β → Prop) : Except Error α → Except Error β → Prop
  | ok {a : α} {b : β} (h : R a b) : Alike R (.ok a) (.ok b)
  | error {e f : Error} (h : e.fault = f.fault) : Alike R (.error e) (.error f)

theorem Alike.bind {R : α → β → Prop} {S : γ → δ → Prop} {x : Except Error α} {y : Except Error β}
    {f : α → Except Error γ} {g : β → Except Error δ} (h : Alike R x y)
    (hf : ∀ a b, R a b → Alike S (f a) (g b)) : Alike S (x >>= f) (y >>= g) := by
  cases h with
  | ok h => exact hf _ _ h
  | error h => exact .error h

/-- Tokens of the same lexemes. -/
inductive SameLexemes : List Token → List Token → Prop
  | nil : SameLexemes [] []
  | cons {ts ts' : List Token} (l : Lexeme) (p p' : Position) (h : SameLexemes ts ts') :
      SameLexemes (⟨l, p⟩ :: ts) (⟨l, p'⟩ :: ts')

theorem SameLexemes.of_map_eq {ts ts' : List Token} (h : ts.map Token.lexeme = ts'.map Token.lexeme) :
    SameLexemes ts ts' := by
  induction ts generalizing ts' with
  | nil =>
    rw [List.map_nil, eq_comm, List.map_eq_nil_iff] at h
    exact h ▸ .nil
  | cons t ts ih =>
    obtain ⟨t', us, rfl, hl, hts⟩ := List.map_eq_cons_iff.1 h.symm
    obtain ⟨l, p⟩ := t
    obtain ⟨l', p'⟩ := t'
    obtain rfl : l' = l := hl
    exact .cons l' p p' (ih hts.symm)

theorem SameLexemes.length_eq {ts ts' : List Token} (h : SameLexemes ts ts') : ts.length = ts'.length := by
  induction h with
  | nil => rfl
  | cons l p p' _ ih => rw [List.length_cons, List.length_cons, ih]

theorem SameLexemes.tail {ts ts' : List Token} (h : SameLexemes ts ts') : SameLexemes ts.tail ts'.tail := by
  cases h with
  | nil => exact .nil
  | cons _ _ _ h => exact h

theorem SameLexemes.atKeyword_eq {ts ts' : List Token} (h : SameLexemes ts ts') (word : String) :
    atKeyword word ts = atKeyword word ts' := by
  cases h <;> rfl

/-- The same part, before tokens of the same lexemes. -/
def SamePart (x y : α × List Token) : Prop := x.1 = y.1 ∧ SameLexemes x.2 y.2

/-- What follows from the same part. -/
theorem Alike.part {R : γ → δ → Prop} {x y : Except Error (α × List Token)}
    {f : α × List Token → Except Error γ} {g : α × List Token → Except Error δ} (h : Alike SamePart x y)
    (hf : ∀ a ts ts', SameLexemes ts ts' → Alike R (f (a, ts)) (g (a, ts'))) : Alike R (x >>= f) (y >>= g) := by
  refine h.bind ?_
  rintro ⟨a, ts⟩ ⟨_, ts'⟩ ⟨rfl, hts⟩
  exact hf a ts ts' hts

/-- A reader that looks at lexemes alone. -/
def Placeless (read : Position → List Token → Except Error (α × List Token)) : Prop :=
  ∀ ⦃stop stop' ts ts'⦄, SameLexemes ts ts' → Alike SamePart (read stop ts) (read stop' ts')

/-! ### Single tokens -/

section

variable {stop stop' : Position} {ts ts' : List Token} (h : SameLexemes ts ts')

include h

theorem alike_refuse {R : α → β → Prop} (expected : Expected) :
    Alike R (refuse stop expected ts) (refuse stop' expected ts') := by
  cases h <;> exact .error rfl

theorem alike_need (l : Lexeme) (expected : Expected) :
    Alike SameLexemes (need stop l expected ts) (need stop' l expected ts') := by
  cases h with
  | nil => exact .error rfl
  | cons l' p p' h =>
    by_cases hl : l' = l
    · simpa [need, hl] using Alike.ok h
    · simpa [need, hl] using alike_refuse (.cons l' p p' h) expected

theorem alike_needMark (l : Lexeme) : Alike SameLexemes (needMark stop l ts) (needMark stop' l ts') :=
  alike_need h l (.mark l)

theorem alike_needKeyword (word : String) :
    Alike SameLexemes (needKeyword stop word ts) (needKeyword stop' word ts') :=
  alike_need h (.word word) (.keyword word)

theorem alike_needText (expected : Expected) :
    Alike SamePart (needText stop expected ts) (needText stop' expected ts') := by
  cases h with
  | nil => exact .error rfl
  | cons l p p' h =>
    cases l with
    | text value => exact .ok ⟨rfl, h⟩
    | _ => exact .error rfl

theorem alike_needWord (expected : Expected) :
    Alike SamePart (needWord stop expected ts) (needWord stop' expected ts') := by
  cases h with
  | nil => exact .error rfl
  | cons l p p' h =>
    cases l with
    | word name => exact .ok ⟨rfl, h⟩
    | _ => exact .error rfl

end

/-! ### Parts of the grammar -/

theorem Placeless.optional {read : Position → List Token → Except Error (α × List Token)} (hr : Placeless read)
    (word : String) : Placeless fun stop => Source.optional word (read stop) := by
  intro stop stop' ts ts' h
  simp only [Source.optional, h.atKeyword_eq word]
  split
  · exact (hr h.tail).part fun a ts ts' h => .ok ⟨rfl, h⟩
  · exact .ok ⟨rfl, h⟩

theorem Placeless.braced {read : Position → List Token → Except Error (α × List Token)} (hr : Placeless read) :
    Placeless fun stop => Source.braced stop (read stop) := fun _ _ _ _ h =>
  (alike_needMark h .openBrace).bind fun _ _ h =>
    (hr h).part fun _ _ _ h => (alike_needMark h .closeBrace).bind fun _ _ h => .ok ⟨rfl, h⟩

theorem placeless_agentKind : Placeless parseAgentKind := by
  intro stop stop' ts ts' h
  cases h with
  | nil => exact .error rfl
  | cons l p p' h =>
    cases l with
    | word name =>
      by_cases hn : name = "none"
      · subst hn
        exact .ok ⟨rfl, h⟩
      · simpa [parseAgentKind, hn] using alike_refuse (.cons (.word name) p p' h) .agent
    | openBrace =>
      refine (alike_needKeyword h "docker").bind fun _ _ h => (alike_needText h .image).part fun image _ _ h => ?_
      exact (alike_needMark h .closeBrace).bind fun _ _ h => .ok ⟨rfl, h⟩
    | _ => exact .error rfl

theorem placeless_agent : Placeless parseAgent := fun _ _ _ _ h =>
  (alike_needKeyword h "agent").bind fun _ _ h => placeless_agentKind h

theorem placeless_param : Placeless parseParam := fun _ _ _ _ h =>
  (alike_needWord h .paramName).part fun _ _ _ h => (alike_needMark h .colon).bind fun _ _ h =>
    (alike_needText h .paramValue).part fun _ _ _ h => .ok ⟨rfl, h⟩

theorem placeless_moreParams (fuel : Nat) : Placeless fun stop => parseMoreParams stop fuel := by
  induction fuel with
  | zero => exact fun _ _ _ _ h => .ok ⟨rfl, h⟩
  | succ fuel ih =>
    intro stop stop' ts ts' h
    cases h with
    | nil => exact .ok ⟨rfl, .nil⟩
    | cons l p p' h =>
      cases l with
      | comma => exact (placeless_param h).part fun _ _ _ h => (ih h).part fun _ _ _ h => .ok ⟨rfl, h⟩
      | _ => exact .ok ⟨rfl, .cons _ p p' h⟩

theorem placeless_step : Placeless parseStep := by
  intro stop stop' ts ts' h
  refine (alike_needWord h .stepCommand).part fun command ts ts' h => ?_
  cases h with
  | nil => exact .error rfl
  | cons l p p' h =>
    cases l with
    | text value => exact .ok ⟨rfl, h⟩
    | word key =>
      cases h with
      | nil => exact .error rfl
      | cons l q q' h =>
        cases l with
        | colon =>
          refine (placeless_param (.cons (.word key) p p' (.cons .colon q q' h))).part fun a ts ts' h => ?_
          simp only [h.length_eq]
          exact (placeless_moreParams _ h).part fun _ _ _ h => .ok ⟨rfl, h⟩
        | _ => exact .error rfl
    | _ => exact .error rfl

theorem placeless_moreSteps (fuel : Nat) : Placeless fun stop => parseMoreSteps stop fuel := by
  induction fuel with
  | zero => exact fun _ _ _ _ h => .ok ⟨rfl, h⟩
  | succ fuel ih =>
    intro stop stop' ts ts' h
    cases h with
    | nil => exact .ok ⟨rfl, .nil⟩
    | cons l p p' h =>
      cases l with
      | word name =>
        exact (placeless_step (.cons (.word name) p p' h)).part fun _ _ _ h =>
          (ih h).part fun _ _ _ h => .ok ⟨rfl, h⟩
      | _ => exact .ok ⟨rfl, .cons _ p p' h⟩

theorem placeless_steps : Placeless parseSteps := by
  intro stop stop' ts ts' h
  refine (placeless_step h).part fun a ts ts' h => ?_
  simp only [h.length_eq]
  exact (placeless_moreSteps _ h).part fun _ _ _ h => .ok ⟨rfl, h⟩

theorem placeless_boolean : Placeless parseBoolean := by
  intro stop stop' ts ts' h
  cases h with
  | nil => exact .error rfl
  | cons l p p' h =>
    cases l with
    | word name =>
      by_cases ht : name = "true"
      · subst ht
        exact .ok ⟨rfl, h⟩
      · by_cases hf : name = "false"
        · subst hf
          exact .ok ⟨rfl, h⟩
        · simpa [parseBoolean, ht, hf] using alike_refuse (.cons (.word name) p p' h) .boolean
    | _ => exact .error rfl

/-! ### Stages -/

theorem placeless_stage {fuel : Nat} (hr : Placeless fun stop => parseStages stop fuel) :
    Placeless fun stop => parseStage stop (fuel + 1) := by
  intro stop stop' ts ts' h
  simp only [parseStage]
  refine (alike_needKeyword h "stage").bind fun _ _ h => (alike_needMark h .openParen).bind fun _ _ h => ?_
  refine (alike_needText h .stageName).part fun name _ _ h => (alike_needMark h .closeParen).bind fun _ _ h => ?_
  refine (alike_needMark h .openBrace).bind fun _ _ h => ?_
  refine (placeless_agentKind.optional "agent" h).part fun agent _ _ h => ?_
  refine (placeless_steps.braced.optional "steps" h).part fun steps _ _ h => ?_
  refine (placeless_boolean.optional "failFast" h).part fun failFast _ _ h => ?_
  refine (hr.braced.optional "parallel" h).part fun parallel _ _ h => ?_
  exact (alike_need h .closeBrace .stageClause).bind fun _ _ h => .ok ⟨rfl, h⟩

theorem placeless_stages {fuel : Nat} (hstage : Placeless fun stop => parseStage stop fuel)
    (hr : Placeless fun stop => parseStages stop fuel) : Placeless fun stop => parseStages stop (fuel + 1) := by
  intro stop stop' ts ts' h
  simp only [parseStages]
  refine (hstage h).part fun a ts ts' h => ?_
  simp only [h.atKeyword_eq "stage"]
  split
  · exact (hr h).part fun _ _ _ h => .ok ⟨rfl, h⟩
  · exact .ok ⟨rfl, h⟩

theorem placeless_nested (fuel : Nat) :
    (Placeless fun stop => parseStage stop fuel) ∧ Placeless fun stop => parseStages stop fuel := by
  induction fuel with
  | zero =>
    exact ⟨fun _ _ _ _ h => alike_refuse h (.keyword "stage"), fun _ _ _ _ h => alike_refuse h (.keyword "stage")⟩
  | succ fuel ih => exact ⟨placeless_stage ih.2, placeless_stages ih.1 ih.2⟩

theorem placeless_stageBlock : Placeless parseStageBlock := by
  intro stop stop' ts ts' h
  simp only [parseStageBlock, h.length_eq]
  exact (alike_needKeyword h "stages").bind fun _ _ h => (placeless_nested _).2.braced h

theorem placeless_body : Placeless parsePipelineBody := fun _ _ _ _ h =>
  (placeless_agent h).part fun _ _ _ h => (placeless_stageBlock h).part fun _ _ _ h => .ok ⟨rfl, h⟩

/-- From tokens of the same lexemes the same pipeline is read, or they are refused with the same fault. -/
theorem alike_parse {ts ts' : Tokens} (h : ts.list.map Token.lexeme = ts'.list.map Token.lexeme) :
    Alike Eq ts.parse ts'.parse := by
  refine (alike_needKeyword (.of_map_eq h) "pipeline").bind fun _ _ h => ?_
  refine (placeless_body.braced h).part fun p _ _ h => ?_
  cases h with
  | nil => exact .ok rfl
  | cons => exact .error rfl

end StageTree.Source

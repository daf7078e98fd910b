import StageTree.Proofs.Source.Derivation

/-! The limits of the parser. A loop may turn as often as there are tokens, and stages may nest twice as deep:
no reading gets there, since every turn and every two levels take a token. So a larger limit changes nothing,
errors included, and the readers satisfy the equations that they would have without one. -/

namespace StageTree.Source

variable {α β : Type} {stop : Position} {n : Nat}

/-- What goes on with the result of a reader may assume that there is one. -/
theorem bind_congr_ok {x : Except Error α} {f g : α → Except Error β} (h : ∀ a, x = .ok a → f a = g a) :
    (x >>= f) = (x >>= g) := by
  cases x with
  | error e => rfl
  | ok a => exact h a rfl

namespace Reads

variable {D : List Lexeme → α → Prop} {follow : List Token → Prop}
  {read : List Token → Except Error (α × List Token)} {ts rest : List Token} {a : α}

theorem length_le (h : Reads n D follow read) (hr : read ts = .ok (a, rest)) : rest.length ≤ ts.length := by
  obtain ⟨used, rfl, _⟩ := h.sound hr
  rw [List.length_append]
  omega

/-- A part that cannot be empty takes a token. -/
theorem length_lt (h : Reads n D follow read) (hne : ∀ a, ¬D [] a) (hr : read ts = .ok (a, rest)) :
    rest.length < ts.length := by
  obtain ⟨used, rfl, hd⟩ := h.sound hr
  have hpos : 0 < used.length := List.length_pos_iff.2 fun e => hne a (by simpa [e] using hd)
  rw [List.length_append]
  omega

end Reads

/-! ### Loops -/

namespace Loop

variable {starts : List Token → Bool} {read : List Token → Except Error (α × List Token)}
  {more : Nat → List Token → Except Error (List α × List Token)}

theorem eq_of_le (h : Loop starts read more) (hnil : starts [] = false)
    (hread : ∀ {ts a rest}, read ts = .ok (a, rest) → rest.length < ts.length) {fuel fuel' : Nat}
    {ts : List Token} (hfuel : ts.length ≤ fuel) (hfuel' : ts.length ≤ fuel') : more fuel ts = more fuel' ts := by
  induction fuel generalizing fuel' ts with
  | zero =>
    obtain rfl := List.length_eq_zero_iff.1 (Nat.le_zero.1 hfuel)
    rw [h.stop 0 [] (.inl rfl), h.stop fuel' [] (.inr hnil)]
  | succ fuel ih =>
    cases hs : starts ts with
    | false => rw [h.stop _ ts (.inr hs), h.stop _ ts (.inr hs)]
    | true =>
      have hne : ts ≠ [] := fun e => by simp [e, hnil] at hs
      have hpos : 0 < ts.length := List.length_pos_iff.2 hne
      obtain ⟨k, rfl⟩ : ∃ k, fuel' = k + 1 := Nat.exists_eq_succ_of_ne_zero (by omega)
      rw [h.go fuel ts hs, h.go k ts hs]
      apply bind_congr_ok
      rintro ⟨a, rest⟩ hr
      have hlt : rest.length < ts.length := hread hr
      show (more fuel rest >>= _) = (more k rest >>= _)
      rw [ih (show rest.length ≤ fuel by omega) (show rest.length ≤ k by omega)]

/-- With as many turns as there are tokens left, a loop goes on the same after each of them. -/
theorem go_length (h : Loop starts read more) (hnil : starts [] = false)
    (hread : ∀ {ts a rest}, read ts = .ok (a, rest) → rest.length < ts.length) {ts : List Token}
    (hs : starts ts = true) :
    more ts.length ts = do
      let (a, ts) ← read ts
      let (as, ts) ← more ts.length ts
      return (a :: as, ts) := by
  have hpos : 0 < ts.length := List.length_pos_iff.2 fun e => by simp [e, hnil] at hs
  obtain ⟨k, hk⟩ : ∃ k, ts.length = k + 1 := Nat.exists_eq_succ_of_ne_zero (by omega)
  rw [hk, h.go k ts hs]
  apply bind_congr_ok
  rintro ⟨a, rest⟩ hr
  have hlt : rest.length < ts.length := hread hr
  show (more k rest >>= _) = (more rest.length rest >>= _)
  rw [h.eq_of_le hnil hread (show rest.length ≤ k by omega) (Nat.le_refl _)]

end Loop

/-! ### Stages -/

theorem optional_congr {word : String} {clause clause' : List Token → Except Error (α × List Token)}
    {ts : List Token} (h : ∀ us, us.length < ts.length → clause us = clause' us) :
    optional word clause ts = optional word clause' ts := by
  match ts with
  | [] => rfl
  | t :: ts =>
    unfold optional
    rw [List.tail_cons, h ts (by simp)]

theorem braced_congr {content content' : List Token → Except Error (α × List Token)} {ts : List Token}
    (h : ∀ us, us.length < ts.length → content us = content' us) :
    braced stop content ts = braced stop content' ts := by
  apply bind_congr_ok
  intro us hopen
  obtain ⟨p, rfl⟩ := needMark_eq_ok.1 hopen
  rw [h us (by simp)]

/-- A stage, with a reader of the stages inside it. -/
def parseStageWith (stop : Position) (inner : List Token → Except Error (List Stage × List Token))
    (ts : List Token) : Except Error (Stage × List Token) := do
  let ts ← needKeyword stop "stage" ts
  let ts ← needMark stop .openParen ts
  let (name, ts) ← needText stop .stageName ts
  let ts ← needMark stop .closeParen ts
  let ts ← needMark stop .openBrace ts
  let (agent, ts) ← optional "agent" (parseAgentKind stop) ts
  let (steps, ts) ← optional "steps" (braced stop (parseSteps stop)) ts
  let (failFast, ts) ← optional "failFast" (parseBoolean stop) ts
  let (parallel, ts) ← optional "parallel" (braced stop inner) ts
  let ts ← needStageEnd stop ts
  return ({ name, agent, steps := steps.getD [], failFast, parallel }, ts)

theorem parseStage_succ (fuel : Nat) (ts : List Token) :
    parseStage stop (fuel + 1) ts = parseStageWith stop (parseStages stop fuel) ts := by
  rw [parseStage]
  rfl

/-- The stages inside a stage stand where fewer tokens are left. -/
theorem parseStageWith_congr {inner inner' : List Token → Except Error (List Stage × List Token)}
    {ts : List Token} (h : ∀ us, us.length < ts.length → inner us = inner' us) :
    parseStageWith stop inner ts = parseStageWith stop inner' ts := by
  apply bind_congr_ok
  intro ts₁ h₁
  obtain ⟨p₁, rfl⟩ := needKeyword_eq_ok.1 h₁
  apply bind_congr_ok
  intro ts₂ h₂
  obtain ⟨p₂, rfl⟩ := needMark_eq_ok.1 h₂
  apply bind_congr_ok
  rintro ⟨name, ts₃⟩ h₃
  obtain ⟨p₃, rfl⟩ := needText_eq_ok.1 h₃
  apply bind_congr_ok
  intro ts₄ h₄
  obtain ⟨p₄, rfl⟩ := needMark_eq_ok.1 h₄
  apply bind_congr_ok
  intro ts₅ h₅
  obtain ⟨p₅, rfl⟩ := needMark_eq_ok.1 h₅
  apply bind_congr_ok
  rintro ⟨agent, ts₆⟩ h₆
  have hagent : ts₆.length ≤ ts₅.length := ((reads_agentKind (n := 0)).optional "agent").length_le h₆
  apply bind_congr_ok
  rintro ⟨steps, ts₇⟩ h₇
  have hsteps : ts₇.length ≤ ts₆.length :=
    (((reads_steps (n := 0)).braced fun _ _ => ⟨rfl, by simp [atLexeme]⟩).optional "steps").length_le h₇
  apply bind_congr_ok
  rintro ⟨failFast, ts₈⟩ h₈
  have hfailFast : ts₈.length ≤ ts₇.length := ((reads_boolean (n := 0)).optional "failFast").length_le h₈
  show (optional "parallel" (braced stop inner) ts₈ >>= _) = (optional "parallel" (braced stop inner') ts₈ >>= _)
  rw [optional_congr fun us hus => braced_congr fun vs hvs => h vs (by simp only [List.length_cons]; omega)]

theorem parseStage_nil (fuel : Nat) : parseStage stop fuel [] = refuse stop (.keyword "stage") [] := by
  cases fuel with
  | zero => rfl
  | succ fuel =>
    rw [parseStage_succ]
    rfl

theorem parseStages_nil (fuel : Nat) : parseStages stop fuel [] = refuse stop (.keyword "stage") [] := by
  cases fuel with
  | zero => rfl
  | succ fuel =>
    rw [parseStages, parseStage_nil]
    rfl

theorem length_lt_of_parseStage {fuel : Nat} {ts rest : List Token} {s : Stage}
    (h : parseStage stop fuel ts = .ok (s, rest)) : rest.length < ts.length := by
  refine (reads_nested fuel).1.length_lt (fun s hs => ?_) h
  cases @atKeyword_of_derivesStage [] s [] hs

/-- Limits that are large enough are all the same. -/
theorem parseStage_eq_of_le (fuel : Nat) :
    (∀ {fuel' : Nat} {ts : List Token}, 2 * ts.length ≤ fuel + 1 → 2 * ts.length ≤ fuel' + 1 →
      parseStage stop fuel ts = parseStage stop fuel' ts) ∧
    ∀ {fuel' : Nat} {ts : List Token}, 2 * ts.length ≤ fuel → 2 * ts.length ≤ fuel' →
      parseStages stop fuel ts = parseStages stop fuel' ts := by
  induction fuel with
  | zero =>
    constructor
    · intro fuel' ts h _
      obtain rfl : ts = [] := List.length_eq_zero_iff.1 (by omega)
      rw [parseStage_nil, parseStage_nil]
    · intro fuel' ts h _
      obtain rfl : ts = [] := List.length_eq_zero_iff.1 (by omega)
      rw [parseStages_nil, parseStages_nil]
  | succ fuel ih =>
    constructor
    · intro fuel' ts h h'
      cases fuel' with
      | zero =>
        obtain rfl : ts = [] := List.length_eq_zero_iff.1 (by omega)
        rw [parseStage_nil, parseStage_nil]
      | succ k =>
        rw [parseStage_succ, parseStage_succ]
        exact parseStageWith_congr fun us hus => ih.2 (by omega) (by omega)
    · intro fuel' ts h h'
      cases fuel' with
      | zero =>
        obtain rfl : ts = [] := List.length_eq_zero_iff.1 (by omega)
        rw [parseStages_nil, parseStages_nil]
      | succ k =>
        rw [parseStages, parseStages, ih.1 h h']
        apply bind_congr_ok
        rintro ⟨s, rest⟩ hs
        have hlt : rest.length < ts.length := length_lt_of_parseStage hs
        show (if atKeyword "stage" rest then parseStages stop fuel rest >>= _ else _) =
          if atKeyword "stage" rest then parseStages stop k rest >>= _ else _
        rw [ih.2 (show 2 * rest.length ≤ fuel by omega) (show 2 * rest.length ≤ k by omega)]

/-- Stages to as many levels as the tokens may have. -/
def stages (stop : Position) (ts : List Token) : Except Error (List Stage × List Token) :=
  parseStages stop (2 * ts.length) ts

theorem parseStages_eq {fuel : Nat} {ts : List Token} (h : 2 * ts.length ≤ fuel) :
    parseStages stop fuel ts = stages stop ts := (parseStage_eq_of_le fuel).2 h (Nat.le_refl _)

theorem parseStage_eq {fuel : Nat} {ts : List Token} (h : 2 * ts.length ≤ fuel + 1) :
    parseStage stop fuel ts = parseStageWith stop (stages stop) ts := by
  rw [(parseStage_eq_of_le fuel).1 h (show 2 * ts.length ≤ 2 * ts.length + 1 + 1 by omega), parseStage_succ]
  exact parseStageWith_congr fun us hus => parseStages_eq (by omega)

/-- Stages are read as if there were no limit to them. -/
theorem stages_eq (ts : List Token) :
    stages stop ts = do
      let (s, ts) ← parseStageWith stop (stages stop) ts
      if atKeyword "stage" ts then
        let (ss, ts) ← stages stop ts
        return (s :: ss, ts)
      else return ([s], ts) := by
  rw [← parseStages_eq (show 2 * ts.length ≤ 2 * ts.length + 1 by omega), parseStages,
    parseStage_eq (Nat.le_succ _)]
  apply bind_congr_ok
  rintro ⟨s, rest⟩ hs
  have hlt : rest.length < ts.length := length_lt_of_parseStage ((parseStage_eq (Nat.le_succ _)).trans hs)
  show (if atKeyword "stage" rest then parseStages stop (2 * ts.length) rest >>= _ else _) =
    if atKeyword "stage" rest then stages stop rest >>= _ else _
  rw [parseStages_eq (show 2 * rest.length ≤ 2 * ts.length by omega)]

theorem parseStageBlock_eq (ts : List Token) :
    parseStageBlock stop ts = needKeyword stop "stages" ts >>= braced stop (stages stop) := by
  apply bind_congr_ok
  intro us hus
  obtain ⟨p, rfl⟩ := needKeyword_eq_ok.1 hus
  exact braced_congr fun vs hvs => parseStages_eq (by simp only [List.length_cons]; omega)

end StageTree.Source

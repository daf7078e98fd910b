import Mathlib.Algebra.BigOperators.Group.Finset.Basic
import StageTree.Proofs.Unit.Played

/-! The course of the attempts at a unit that nobody cancels. How long each attempt takes and what it
returns is given beforehand, and what chance gives too; from these follow the instants at which attempts
begin and end, what is said of them, and how the unit ends. -/

namespace StageTree

/-! ### Attempts given beforehand -/

/-- The instants at which attempts began, and the attempts that were given up, numbered from 0. -/
structure AttemptLog where
  starts : List Nat := []
  dropped : List Nat := []
  deriving DecidableEq, Repr

/-- An attempt that is being made. -/
structure InHand where
  index : Nat
  ends : Nat
  result : AttemptResult

/-- The backend whose attempts are given: how long each takes, and what it returns. -/
def Backend.given (attempts : Nat → Nat × AttemptResult) : Backend AttemptLog InHand where
  start _ now log :=
    let i := log.starts.length
    ({ log with starts := log.starts ++ [now] },
      if (attempts i).1 = 0 then .returns (attempts i).2 else .waits ⟨i, now + (attempts i).1, (attempts i).2⟩)
  look x now log := (log, if x.ends ≤ now then .returns x.result else .waits x)
  drop x log := { log with dropped := log.dropped ++ [x.index] }
  due x := some x.ends

theorem Backend.given_punctual (attempts : Nat → Nat × AttemptResult) : (Backend.given attempts).Punctual := by
  intro x now log h
  have hle : x.ends ≤ now := by simpa [given] using h
  exact ⟨x.result, if_pos hle⟩

/-- What the attempts at a unit depend on: the policy, how long each attempt takes and what it returns,
and what chance gives at each look. Attempts are numbered from 0. -/
structure Course where
  policy : RetryPolicy
  attempts : Nat → Nat × AttemptResult
  draws : Nat → Nat

namespace Course

variable (C : Course) {unit : UnitOfWork} {i j : Nat} {p : Option (Progress (Trial InHand) UnitResult)}

def runner : Runner AttemptLog (Trial InHand) := .retrying C.policy (.given C.attempts)

def play (unit : UnitOfWork) (cancels : List (Nat × String)) : Solo AttemptLog (Trial InHand) :=
  .under C.runner unit C.draws cancels {}

def limit : Nat := min C.policy.timeoutMs longestWaitMs

def span (i : Nat) : Nat := min (C.attempts i).1 C.limit

/-- The failure of an attempt after which another one may be made, if it ends in one. -/
def failure? (i : Nat) : Option UnitFailure :=
  if C.limit < (C.attempts i).1 then some (.timedOut C.policy.timeoutMs)
  else
    match (C.attempts i).2 with
    | .ok _ => none
    | .error e => if e.isRetryable then some (.failed e.message) else none

/-- The look by which an attempt is started. An attempt that takes no time is over at that look. -/
def startLook : Nat → Nat
  | 0 => 0
  | i + 1 => startLook i + if (C.attempts i).1 = 0 then 1 else 2

/-- The look by which an attempt is found to be over. -/
def endLook (i : Nat) : Nat := C.startLook i + if (C.attempts i).1 = 0 then 0 else 1

/-- How long to wait after an attempt before the next one. -/
def delay (i : Nat) : Nat := (C.policy.delay i.toUInt64 (C.draws (C.endLook i))).toNat

def begins : Nat → Nat
  | 0 => 0
  | i + 1 => begins i + C.span i + min (C.delay i) longestWaitMs

def ends (i : Nat) : Nat := C.begins i + C.span i

def GoesOn (i : Nat) : Prop := (C.failure? i).isSome = true ∧ i + 1 < C.policy.attempts

def Gets (i : Nat) : Prop := i < C.policy.attempts ∧ ∀ j < i, (C.failure? j).isSome = true

/-- What a unit returns whose attempt of a number was the last that could help. -/
def conclusion (unit : UnitOfWork) (n : Nat) : AttemptResult → UnitResult
  | .ok outputs => .ok outputs
  | .error e => .error (.unit ⟨unit.name, n, .notRetryable e.message⟩)

def next (unit : UnitOfWork) (i : Nat) : Progress (Trial InHand) UnitResult :=
  match C.failure? i with
  | some failure =>
    if C.policy.attempts ≤ i + 1 then .returns (.error (.unit ⟨unit.name, i + 1, failure⟩))
    else .waits (.resting unit (i + 1) (C.begins (i + 1)))
  | none => .returns (conclusion unit (i + 1) (C.attempts i).2)

def endNotes (i : Nat) : List Note :=
  match C.failure? i with
  | some failure => .attemptFailed (i + 1) failure ::
      if C.policy.attempts ≤ i + 1 then [] else [.retrying (i + 2) (C.delay i)]
  | none =>
    match (C.attempts i).2 with
    | .ok _ => []
    | .error e => [.attemptRefused (i + 1) e.message]

def notesOf (i : Nat) : List (Nat × Note) :=
  (C.begins i, .attemptStarted (i + 1)) :: (C.endNotes i).map fun n => (C.ends i, n)

def notes (n : Nat) : List (Nat × Note) := (List.range n).flatMap C.notesOf

def starts (n : Nat) : List Nat := (List.range n).map C.begins

/-- Those of the first attempts that last too long. -/
def overdue (n : Nat) : List Nat := (List.range n).filter fun i => C.limit < (C.attempts i).1

variable {C}

theorem Gets.succ (h : C.Gets i) (hgo : C.GoesOn i) : C.Gets (i + 1) := by
  refine ⟨hgo.2, fun j hj => ?_⟩
  rcases Nat.lt_succ_iff_lt_or_eq.1 hj with hj | rfl
  · exact h.2 j hj
  · exact hgo.1

/-- The attempts that are made are those up to one that none follows. -/
theorem Gets.le_of_last (h : C.Gets j) (hlast : ¬ C.GoesOn i) : j ≤ i := by
  by_contra hij
  exact hlast ⟨h.2 i (Nat.lt_of_not_le hij), Nat.lt_of_le_of_lt (Nat.lt_of_not_le hij) h.1⟩

theorem next_of_goesOn (h : C.GoesOn i) : C.next unit i = .waits (.resting unit (i + 1) (C.begins (i + 1))) := by
  obtain ⟨failure, hf⟩ := Option.isSome_iff_exists.1 h.1
  rw [next, hf]
  exact if_neg (Nat.not_le_of_lt h.2)

theorem next_of_not_goesOn (unit : UnitOfWork) (h : ¬ C.GoesOn i) : ∃ r, C.next unit i = .returns r := by
  rw [next]
  cases hf : C.failure? i with
  | none => exact ⟨_, rfl⟩
  | some failure =>
    refine ⟨_, if_pos (Nat.le_of_not_lt fun hlt => h ⟨?_, hlt⟩)⟩
    rw [hf]
    rfl

theorem starts_succ (n : Nat) : C.starts (n + 1) = C.starts n ++ [C.begins n] := by
  rw [starts, List.range_succ, List.map_append]
  rfl

theorem notes_succ (n : Nat) : C.notes (n + 1) = C.notes n ++ C.notesOf n := by
  rw [notes, List.range_succ, List.flatMap_append, List.flatMap_singleton]
  rfl

theorem overdue_succ (n : Nat) :
    C.overdue (n + 1) = C.overdue n ++ if C.limit < (C.attempts n).1 then [n] else [] := by
  rw [overdue, List.range_succ, List.filter_append, List.filter_singleton]
  simp [overdue]

theorem begins_succ (n : Nat) : C.begins (n + 1) = waitEnd (C.ends n) (C.delay n) := rfl

theorem startLook_succ (n : Nat) : C.startLook (n + 1) = C.endLook n + 1 := by
  rw [startLook, endLook]
  split <;> rfl

/-- An attempt is looked at when it is over. -/
theorem due_attempting : C.runner.due (.attempting unit (i + 1) (C.begins i + C.limit)
    ⟨i, C.begins i + (C.attempts i).1, (C.attempts i).2⟩) = some (C.ends i) := by
  have hmin : min (C.begins i + C.limit) (C.begins i + (C.attempts i).1) = C.ends i := by
    rw [ends, span]
    omega
  exact congrArg some hmin

theorem begins_le_ends (C : Course) (i : Nat) : C.begins i ≤ C.ends i := Nat.le_add_right _ _

theorem ends_le_begins (C : Course) (i : Nat) : C.ends i ≤ C.begins (i + 1) := Nat.le_add_right _ _

theorem runner_due (C : Course) (u : Trial InHand) : (C.runner.due u).isSome = true := by
  cases u <;> rfl

/-! ### The end of an attempt -/

def endTurn (C : Course) (unit : UnitOfWork) (i : Nat) (log : AttemptLog) : Turn AttemptLog (Trial InHand) :=
  { world := log, notes := C.endNotes i, progress := C.next unit i }

theorem retry_eq {failure : UnitFailure} (hf : C.failure? i = some failure) (log : AttemptLog) :
    C.policy.retry unit (i + 1) failure ⟨C.ends i, none, C.draws (C.endLook i)⟩ log = C.endTurn unit i log := by
  rw [RetryPolicy.retry, endTurn, next, endNotes, hf]
  by_cases h : C.policy.attempts ≤ i + 1
  · simp [h]
  · simp only [h, if_false, Nat.add_sub_cancel, begins_succ]
    rfl

theorem settle_eq (unit : UnitOfWork) (h : ¬ C.limit < (C.attempts i).1) (log : AttemptLog) :
    C.policy.settle unit (i + 1) (C.attempts i).2 ⟨C.ends i, none, C.draws (C.endLook i)⟩ log =
      C.endTurn unit i log := by
  have hf : C.failure? i = match (C.attempts i).2 with
      | .ok _ => none
      | .error e => if e.isRetryable then some (.failed e.message) else none := if_neg h
  cases hr : (C.attempts i).2 with
  | ok outputs =>
    rw [hr] at hf
    simp [RetryPolicy.settle, endTurn, next, endNotes, hf, hr, conclusion]
  | error e =>
    rw [hr] at hf
    rw [RetryPolicy.settle]
    by_cases he : e.isRetryable = true
    · rw [if_pos he]
      exact retry_eq (hf.trans (if_pos he)) log
    · rw [if_neg he]
      simp [endTurn, next, endNotes, hf, hr, conclusion, he]

theorem timedOut_eq (h : C.limit < (C.attempts i).1) (log : AttemptLog) :
    C.policy.retry unit (i + 1) (.timedOut C.policy.timeoutMs) ⟨C.ends i, none, C.draws (C.endLook i)⟩ log =
      C.endTurn unit i log :=
  retry_eq (if_pos h) log

/-! ### The unit on its course -/

/-- A unit that nobody cancels, as it stands on its course: not started yet, with an attempt that is being
made, or after one. Time stands where the unit was last looked at, or where it is due. -/
inductive OnCourse (C : Course) (unit : UnitOfWork) : Solo AttemptLog (Trial InHand) → Prop
  | fresh : OnCourse C unit { world := {} }
  | attempting {i now : Nat} (hi : C.Gets i) (hms : (C.attempts i).1 ≠ 0)
      (hnow : now = C.begins i ∨ now = C.ends i) :
      OnCourse C unit
        { now
          world := ⟨C.starts (i + 1), C.overdue i⟩
          progress := some (.waits (.attempting unit (i + 1) (C.begins i + C.limit)
            ⟨i, C.begins i + (C.attempts i).1, (C.attempts i).2⟩))
          looks := C.startLook i + 1
          notes := C.notes i ++ [(C.begins i, .attemptStarted (i + 1))] }
  | settled {i now : Nat} (hi : C.Gets i) (hnow : now = C.ends i ∨ C.GoesOn i ∧ now = C.begins (i + 1)) :
      OnCourse C unit
        { now
          world := ⟨C.starts (i + 1), C.overdue (i + 1)⟩
          progress := some (C.next unit i)
          looks := C.startLook (i + 1)
          notes := C.notes (i + 1) }

namespace OnCourse

theorem free {s : Solo AttemptLog (Trial InHand)} (h : OnCourse C unit s) : s.Free := by
  cases h <;> exact ⟨rfl, rfl⟩

/-- An attempt that begins. -/
theorem start (hi : C.Gets i) : OnCourse C unit <|
    Solo.take { now := C.begins i, world := ⟨C.starts i, C.overdue i⟩, progress := p,
                looks := C.startLook i, notes := C.notes i }
      (C.policy.attempt (.given C.attempts) unit (i + 1) ⟨C.begins i, none, C.draws (C.startLook i)⟩
        ⟨C.starts i, C.overdue i⟩) := by
  have hlength : (C.starts i).length = i := by rw [starts, List.length_map, List.length_range]
  by_cases hms : (C.attempts i).1 = 0
  · have hlimit : ¬ C.limit < (C.attempts i).1 := by omega
    have hends : C.ends i = C.begins i := by rw [ends, span, hms, Nat.zero_min, Nat.add_zero]
    have hlook : C.endLook i = C.startLook i := by rw [endLook, if_pos hms, Nat.add_zero]
    have hsettle := settle_eq unit hlimit ⟨C.starts i ++ [C.begins i], C.overdue i⟩
    rw [hends, hlook] at hsettle
    have hturn : C.policy.attempt (.given C.attempts) unit (i + 1) ⟨C.begins i, none, C.draws (C.startLook i)⟩
        ⟨C.starts i, C.overdue i⟩ =
        { world := ⟨C.starts (i + 1), C.overdue (i + 1)⟩, notes := .attemptStarted (i + 1) :: C.endNotes i,
          progress := C.next unit i } := by
      simp only [RetryPolicy.attempt, Backend.given, hlength, hms, if_true, hsettle]
      rw [endTurn, starts_succ, overdue_succ, if_neg hlimit, List.append_nil]
    rw [hturn]
    have h : OnCourse C unit _ := .settled hi (.inl rfl)
    rw [startLook_succ, hlook, notes_succ, notesOf, hends] at h
    exact h
  · have hturn : C.policy.attempt (.given C.attempts) unit (i + 1) ⟨C.begins i, none, C.draws (C.startLook i)⟩
        ⟨C.starts i, C.overdue i⟩ =
        { world := ⟨C.starts (i + 1), C.overdue i⟩, notes := [.attemptStarted (i + 1)]
          progress := .waits (.attempting unit (i + 1) (C.begins i + C.limit)
            ⟨i, C.begins i + (C.attempts i).1, (C.attempts i).2⟩) } := by
      simp only [RetryPolicy.attempt, Backend.given, hlength, hms, if_false, starts_succ]
      rfl
    rw [hturn]
    exact .attempting hi hms (.inl rfl)

/-- An attempt that is over. -/
theorem finish (hi : C.Gets i) (hms : (C.attempts i).1 ≠ 0) : OnCourse C unit <|
    Solo.take { now := C.ends i, world := ⟨C.starts (i + 1), C.overdue i⟩, progress := p,
                looks := C.startLook i + 1, notes := C.notes i ++ [(C.begins i, .attemptStarted (i + 1))] }
      (C.policy.look (.given C.attempts) (.attempting unit (i + 1) (C.begins i + C.limit)
          ⟨i, C.begins i + (C.attempts i).1, (C.attempts i).2⟩)
        ⟨C.ends i, none, C.draws (C.startLook i + 1)⟩ ⟨C.starts (i + 1), C.overdue i⟩) := by
  have hlook : C.endLook i = C.startLook i + 1 := by rw [endLook, if_neg hms]
  have hturn : C.policy.look (.given C.attempts) (.attempting unit (i + 1) (C.begins i + C.limit)
        ⟨i, C.begins i + (C.attempts i).1, (C.attempts i).2⟩)
      ⟨C.ends i, none, C.draws (C.startLook i + 1)⟩ ⟨C.starts (i + 1), C.overdue i⟩ =
      C.endTurn unit i ⟨C.starts (i + 1), C.overdue (i + 1)⟩ := by
    rw [← hlook, overdue_succ]
    by_cases hlimit : C.limit < (C.attempts i).1
    · have hends : C.ends i = C.begins i + C.limit := by rw [ends, span, Nat.min_eq_right (Nat.le_of_lt hlimit)]
      have hearly : ¬ C.begins i + (C.attempts i).1 ≤ C.ends i := by omega
      simp only [RetryPolicy.look, Backend.given, hearly, if_false, hends.ge, if_true, hlimit]
      exact timedOut_eq hlimit _
    · have hends : C.ends i = C.begins i + (C.attempts i).1 := by
        rw [ends, span, Nat.min_eq_left (Nat.le_of_not_lt hlimit)]
      simp only [RetryPolicy.look, Backend.given, hends.ge, if_true, hlimit, if_false, List.append_nil]
      exact settle_eq unit hlimit _
  rw [hturn]
  have h : OnCourse C unit _ := .settled hi (.inl rfl)
  rw [startLook_succ, hlook, notes_succ, notesOf, ← List.singleton_append, ← List.append_assoc] at h
  exact h

theorem turn {s t : Solo AttemptLog (Trial InHand)} (h : OnCourse C unit s)
    (ht : s.turn? C.runner unit C.draws = some t) : OnCourse C unit t := by
  have hcases := h.free.turn_cases C.runner_due ht
  cases h with
  | fresh =>
    rcases hcases with ⟨_, rfl⟩ | ⟨_, _, hp, _⟩
    · exact start ⟨Nat.lt_of_lt_of_le Nat.zero_lt_one (le_max_left _ _), by simp⟩
    · cases hp
  | @attempting i now hi hms hnow =>
    rcases hcases with ⟨hp, _⟩ | ⟨u, d, hp, hd, hcase⟩
    · cases hp
    obtain rfl := Progress.waits.inj (Option.some.inj hp)
    rw [due_attempting] at hd
    obtain rfl := Option.some.inj hd
    rcases hcase with ⟨hle, rfl⟩ | ⟨_, rfl⟩
    · have hle' : C.ends i ≤ now := hle
      have hbegins := C.begins_le_ends i
      obtain rfl : now = C.ends i := by omega
      exact finish hi hms
    · exact .attempting hi hms (.inr rfl)
  | @settled i now hi hnow =>
    by_cases hgo : C.GoesOn i
    · rcases hcases with ⟨hp, _⟩ | ⟨u, d, hp, hd, hcase⟩
      · cases hp
      rw [next_of_goesOn hgo] at hp
      obtain rfl := Progress.waits.inj (Option.some.inj hp)
      obtain rfl : C.begins (i + 1) = d := Option.some.inj hd
      rcases hcase with ⟨hle, rfl⟩ | ⟨_, rfl⟩
      · have hle' : C.begins (i + 1) ≤ now := hle
        have hends := C.ends_le_begins i
        obtain rfl : now = C.begins (i + 1) := by omega
        have hlook (l : Look) (log : AttemptLog) (hl : l.now = C.begins (i + 1)) :
            C.runner.look (.resting unit (i + 1) (C.begins (i + 1))) l log =
              C.policy.attempt (.given C.attempts) unit (i + 1 + 1) l log := if_pos (.inl (Nat.le_of_eq hl.symm))
        rw [hlook _ _ rfl]
        exact start (hi.succ hgo)
      · exact .settled hi (.inr ⟨hgo, rfl⟩)
    · obtain ⟨r, hr⟩ := next_of_not_goesOn unit hgo
      rw [Solo.turn?_returned (by rw [hr])] at ht
      cases ht

theorem play (C : Course) (unit : UnitOfWork) (k : Nat) :
    OnCourse C unit (Solo.play C.runner unit C.draws k { world := {} }) :=
  Solo.play_induction .fresh (fun _ _ h ht => h.turn ht) k

end OnCourse

/-! ### How the unit ends -/

theorem prompt (C : Course) : C.runner.Prompt (Trial.rank C.policy.attempts) :=
  C.policy.prompt (Backend.given_punctual C.attempts)

/-- A unit that nobody cancels returns after the last attempt of its course. -/
theorem exists_last (C : Course) (unit : UnitOfWork) : ∃ i, C.Gets i ∧ ¬ C.GoesOn i ∧
    C.play unit [] =
      { now := C.ends i, world := ⟨C.starts (i + 1), C.overdue (i + 1)⟩, progress := some (C.next unit i),
        looks := C.startLook (i + 1), notes := C.notes (i + 1) } := by
  obtain ⟨r, hr⟩ := Solo.returned_under C.prompt unit C.draws {}
  have hcourse : OnCourse C unit (C.play unit []) := OnCourse.play C unit _
  change (C.play unit []).progress = _ at hr
  generalize C.play unit [] = s at hcourse hr
  cases hcourse with
  | fresh => cases hr
  | attempting => cases hr
  | @settled i now hi hnow =>
    have hlast : ¬ C.GoesOn i := fun hgo => by
      rw [next_of_goesOn hgo] at hr
      cases hr
    obtain rfl := hnow.resolve_right fun h => hlast h.1
    exact ⟨i, hi, hlast, rfl⟩

def events (C : Course) (unit : UnitOfWork) (i : Nat) : List (Nat × Event) :=
  match C.failure? i with
  | none => []
  | some failure =>
    (C.ends i, ⟨"unit.attempt_failed", some <| .object
      [("stage", .string unit.name), ("attempt", .nat (i + 1)), ("error", .string failure.message)]⟩) ::
    if i + 1 < C.policy.attempts then
      [(C.ends i, ⟨"unit.retrying", some <| .object
        [("stage", .string unit.name), ("attempt", .nat (i + 2)), ("delay_ms", .nat (C.delay i))]⟩)]
    else []

def told (unit : UnitOfWork) (notes : List (Nat × Note)) : List (Nat × Event) :=
  notes.filterMap fun (ms, note) => (note.event? unit.name).map fun e => (ms, e)

theorem told_append (unit : UnitOfWork) (notes more : List (Nat × Note)) :
    told unit (notes ++ more) = told unit notes ++ told unit more := List.filterMap_append

theorem told_notesOf (i : Nat) : told unit (C.notesOf i) = C.events unit i := by
  rw [notesOf, endNotes, events]
  cases hf : C.failure? i with
  | some failure =>
    by_cases h : C.policy.attempts ≤ i + 1
    · simp [told, Note.event?, h, Nat.not_lt_of_le h]
    · simp [told, Note.event?, h, Nat.lt_of_not_le h]
  | none =>
    cases hr : (C.attempts i).2 with
    | ok outputs => simp [told, Note.event?]
    | error e => simp [told, Note.event?]

theorem told_notes (n : Nat) : told unit (C.notes n) = (List.range n).flatMap (C.events unit) := by
  induction n with
  | zero => rfl
  | succ n ih =>
    rw [notes_succ, told_append, ih, told_notesOf, List.range_succ, List.flatMap_append, List.flatMap_singleton]

/-- An attempt is over when all attempts up to it and all waits between them are. -/
theorem ends_eq_sum (C : Course) (i : Nat) : C.ends i =
    ∑ j ∈ Finset.range (i + 1), C.span j + ∑ j ∈ Finset.range i, min (C.delay j) longestWaitMs := by
  induction i with
  | zero => simp [ends, begins]
  | succ i ih =>
    have hbegins : C.begins (i + 1) = C.ends i + min (C.delay i) longestWaitMs := rfl
    rw [ends, hbegins, ih, Finset.sum_range_succ _ (i + 1),
      Finset.sum_range_succ (fun j => min (C.delay j) longestWaitMs) i]
    omega

/-- The attempts at a unit that nobody cancels: how many there are, what the unit returns, which events tell
of them, and how long all of it takes. -/
theorem attempts_course (C : Course) (unit : UnitOfWork) :
    let s := C.play unit []
    let n := s.world.starts.length
    -- up to the first attempt that succeeds or fails for ever
    (∀ k < C.policy.attempts, C.failure? k = none → (∀ j < k, C.failure? j ≠ none) →
        n = k + 1 ∧ s.result? = some (conclusion unit (k + 1) (C.attempts k).2)) ∧
      -- or all that the policy leaves
      ((∀ k < C.policy.attempts, C.failure? k ≠ none) → n = C.policy.attempts ∧
        ∃ failure, C.failure? (n - 1) = some failure ∧
          s.result? = some (.error (.unit ⟨unit.name, n, failure⟩))) ∧
      s.world.starts = (List.range n).map C.begins ∧
      told unit s.notes = (List.range n).flatMap (C.events unit) ∧
      s.now = ∑ i ∈ Finset.range n, min (C.attempts i).1 (min C.policy.timeoutMs longestWaitMs) +
        ∑ i ∈ Finset.range (n - 1), min (C.delay i) longestWaitMs := by
  obtain ⟨i, hi, hlast, hplay⟩ := C.exists_last unit
  have hlength : (C.starts (i + 1)).length = i + 1 := by rw [starts, List.length_map, List.length_range]
  intro s n
  have hs : s = _ := hplay
  have hn : n = i + 1 := by
    change s.world.starts.length = _
    rw [hs, hlength]
  have hresult {r : UnitResult} (hr : C.next unit i = .returns r) : s.result? = some r := by
    rw [hs, Solo.result?, hr]
  refine ⟨fun k hk hnone hfail => ?_, fun hfail => ?_, ?_, ?_, ?_⟩
  · have hki : k ≤ i := Gets.le_of_last ⟨hk, fun j hj => Option.isSome_iff_ne_none.2 (hfail j hj)⟩ hlast
    obtain rfl : k = i := by
      refine Nat.le_antisymm hki (Nat.le_of_not_lt fun hlt => ?_)
      have hsome := hi.2 k hlt
      rw [hnone] at hsome
      cases hsome
    exact ⟨hn, hresult (by rw [next, hnone])⟩
  · have hsome := Option.isSome_iff_ne_none.2 (hfail i hi.1)
    obtain ⟨failure, hf⟩ := Option.isSome_iff_exists.1 hsome
    have hle : C.policy.attempts ≤ i + 1 := Nat.le_of_not_lt fun hlt => hlast ⟨hsome, hlt⟩
    refine ⟨by rw [hn]; exact Nat.le_antisymm hi.1 hle, failure, by rw [hn]; exact hf, ?_⟩
    rw [hn]
    exact hresult (by rw [next, hf]; exact if_pos hle)
  · rw [hn, hs]
    rfl
  · rw [hn, hs]
    exact told_notes (i + 1)
  · rw [hn, hs]
    exact C.ends_eq_sum i

def oneStep : UnitOfWork := ⟨"u", [.single "e" "x"], .none, .empty⟩

/-- Two attempts that fail at once, with a wait between them that is meant to take as long as can be. -/
def longRest : Course where
  policy :=
    { maxAttempts := 2, attemptTimeoutSecs := 1, baseDelayMs := maxWord, maxDelayMs := maxWord, jitter := .none }
  attempts _ := (0, .error (.spawn "p" "r"))
  draws _ := 0

/-- A wait between two attempts that is meant to take longer than the longest wait is over after the longest
wait, though the event names the delay. -/
theorem long_rest_ends_early :
    let s := longRest.play oneStep []
    (∀ i, (longRest.attempts i).1 ≠ longRest.policy.timeoutMs) ∧
      s.world.starts.length = 2 ∧ longRest.delay 0 = 18446744073709551615 ∧ s.now = 946080000000 ∧
      s.now ≠ ∑ i ∈ Finset.range s.world.starts.length, min (longRest.attempts i).1 longRest.policy.timeoutMs +
        ∑ i ∈ Finset.range (s.world.starts.length - 1), longRest.delay i := by
  have hplay : (longRest.play oneStep []).world.starts.length = 2 ∧
      longRest.delay 0 = 18446744073709551615 ∧
      (longRest.play oneStep []).now = 946080000000 := by
    decide +kernel
  obtain ⟨hlength, hdelay, hnow⟩ := hplay
  have htimeout : (0 : Nat) ≠ longRest.policy.timeoutMs := by decide
  refine ⟨fun _ => htimeout, hlength, hdelay, hnow, ?_⟩
  rw [hlength, hnow, Finset.sum_range_one, hdelay]
  decide

end Course

end StageTree

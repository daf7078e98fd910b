import StageTree.Proofs.Activity.Work
import StageTree.Proofs.Run.Moves

/-! Runs in virtual time, in whatever order the stages that can go on are taken. Time stands still as long
as something can happen, and then jumps to the next instant at which something does by itself. Such a run
never gets stuck before its end, and it comes to its end after a number of moves that is known before. -/

namespace StageTree

variable {W U : Type}

/-- A run in virtual time, with the cancellations from outside that are to come, in their order. -/
structure Timed (W U : Type) where
  run : Run W U
  cancels : List (Nat × String) := []

namespace Timed

/-- The stages that can go on, with what they can do. -/
def ready (s : Setting W U) (t : Timed W U) : List (List Nat × List Act) :=
  t.run.present.elim [] (Activity.ready s.runner.due t.run.now t.run.cancelled)

/-- The instants at which something happens by itself: a unit is due, or a cancellation comes. -/
def waits (s : Setting W U) (t : Timed W U) : List Nat :=
  t.run.present.elim [] (Activity.dues s.runner.due) ++ t.cancels.map Prod.fst

def cancelDue (t : Timed W U) : Bool := t.cancels.head?.any fun c => c.1 ≤ t.run.now

/-- Whether a move may come next. At one instant the stages that can go on and the cancellations that are
due come in any order. Time passes when nothing else can happen. -/
def allows (s : Setting W U) (t : Timed W U) : Move → Bool
  | .stage position x _ => (t.ready s).any fun able => able.1 == position && able.2.contains x
  | .cancel reason => t.cancelDue && t.cancels.head?.any fun c => c.2 == reason
  | .tick ms => (t.ready s).isEmpty && !t.cancelDue && (t.waits s).min? == some ms

def cancelsAfter (t : Timed W U) : Move → List (Nat × String)
  | .cancel _ => t.cancels.tail
  | _ => t.cancels

def step (s : Setting W U) (t : Timed W U) (move : Move) : Option (Timed W U) :=
  if t.allows s move then (t.run.step s move).map fun r => ⟨r, t.cancelsAfter move⟩ else none

def moved (s : Setting W U) (t : Timed W U) (moves : List Move) : Option (Timed W U) := moves.foldlM (step s) t

/-- A run of a pipeline at its beginning, with the cancellations that were asked for. -/
def begin (p : Pipeline) (w : W) (cancels : List (Nat × String)) : Timed W U :=
  ⟨.begin p w, cancelsInOrder cancels⟩

variable {s : Setting W U} {t t' : Timed W U} {p : Pipeline} {w : W} {move : Move}

theorem step_eq_some : t.step s move = some t' ↔
    t.allows s move = true ∧ t.run.step s move = some t'.run ∧ t'.cancels = t.cancelsAfter move := by
  rw [step]
  split
  · rename_i ha
    rw [Option.map_eq_some_iff]
    constructor
    · rintro ⟨r, hr, rfl⟩
      exact ⟨ha, hr, rfl⟩
    · rintro ⟨_, hr, hc⟩
      exact ⟨t'.run, hr, by rw [← hc]⟩
  · rename_i ha
    simp [ha]

/-- What a step keeps holds after any moves. -/
theorem moved_invariant {P : Timed W U → Prop} {moves : List Move}
    (hstep : ∀ t t' move, P t → t.step s move = some t' → P t') (h : P t)
    (ht : t.moved s moves = some t') : P t' := by
  induction moves generalizing t with
  | nil => exact Option.some.inj ht ▸ h
  | cons move moves ih =>
    obtain ⟨q, hq, ht⟩ := Option.bind_eq_some_iff.1 (by simpa [moved] using ht)
    exact ih (hstep t q move h hq) ht

theorem moved_append {moves more : List Move} :
    t.moved s (moves ++ more) = (t.moved s moves).bind fun t => t.moved s more := by
  rw [moved, List.foldlM_append]
  rfl

/-- A run in virtual time is a run. -/
theorem run_moved {moves : List Move} (h : t.moved s moves = some t') :
    t.run.moved s moves = some t'.run := by
  induction moves generalizing t with
  | nil => exact congrArg (fun t => some t.run) (Option.some.inj h)
  | cons move moves ih =>
    obtain ⟨q, hq, h⟩ := Option.bind_eq_some_iff.1 (by simpa [moved] using h)
    simp [Run.moved, (step_eq_some.1 hq).2.1]
    exact ih h

/-- Whether some stage of a run can do something. -/
def Busy (s : Setting W U) (t : Timed W U) : Prop :=
  ∃ a position x, t.run.present = some a ∧ Activity.Able s.runner.due t.run.now t.run.cancelled a position x

theorem ready_eq_nil : t.ready s = [] ↔ ¬ t.Busy s := by
  rw [ready, Busy]
  cases ha : t.run.present with
  | none => simp
  | some a => simp [Activity.ready_eq_nil]

theorem any_ready {position : List Nat} {x : Act} :
    ((t.ready s).any fun able => able.1 == position && able.2.contains x) = true ↔
      ∃ a, t.run.present = some a ∧
        Activity.Able s.runner.due t.run.now t.run.cancelled a position x := by
  rw [ready]
  cases ha : t.run.present with
  | none => simp
  | some a =>
    simp only [Option.elim_some, Option.some.injEq, exists_eq_left', ← Activity.able_iff, List.any_eq_true]
    constructor
    · rintro ⟨⟨q, acts⟩, hm, h⟩
      rw [Bool.and_eq_true, beq_iff_eq, List.contains_iff_mem] at h
      exact ⟨acts, h.1 ▸ hm, h.2⟩
    · rintro ⟨acts, hm, hx⟩
      exact ⟨(position, acts), hm, by simp [hx]⟩

/-- What a move makes of a run in virtual time. -/
inductive Moved (s : Setting W U) (t : Timed W U) : Move → Timed W U → Prop
  | stage {a : Activity U} {q : Played W U} {position : List Nat} {x : Act} {draw : Nat}
      (ha : t.run.present = some a)
      (hx : Activity.Able s.runner.due t.run.now t.run.cancelled a position x)
      (hq : a.step s x position (t.run.moment a draw) t.run.world = some q) :
      Moved s t (.stage position x draw) ⟨t.run.take q, t.cancels⟩
  | cancel {ms : Nat} {reason : String} {rest : List (Nat × String)} (hc : t.cancels = (ms, reason) :: rest)
      (hms : ms ≤ t.run.now) : Moved s t (.cancel reason) ⟨t.run.cancel reason, rest⟩
  | tick {ms : Nat} (hb : ¬ t.Busy s) (hc : t.cancelDue = false) (hmin : (t.waits s).min? = some ms)
      (hlt : t.run.now < ms) : Moved s t (.tick ms) ⟨{ t.run with now := ms }, t.cancels⟩

theorem moved_of_step (h : t.step s move = some t') : t.run.verdict = none ∧ Moved s t move t' := by
  obtain ⟨ha, hr, hc⟩ := step_eq_some.1 h
  obtain ⟨hv, hm⟩ := Run.moved_of_step hr
  refine ⟨hv, ?_⟩
  obtain ⟨run, cancels⟩ := t'
  simp only at hr hc hm
  subst hc
  cases hm with
  | stage hp hq =>
    obtain ⟨a, hp', hx⟩ := any_ready.1 ha
    obtain rfl := Option.some.inj (hp.symm.trans hp')
    exact .stage hp hx hq
  | cancel reason =>
    simp only [allows, cancelDue, Bool.and_eq_true] at ha
    cases hcs : t.cancels with
    | nil => simp [hcs] at ha
    | cons c rest =>
      obtain ⟨ms, reason'⟩ := c
      simp only [hcs, List.head?_cons, Option.any_some, decide_eq_true_eq, beq_iff_eq] at ha
      obtain ⟨hms, rfl⟩ := ha
      have h := Moved.cancel (s := s) hcs hms
      simpa [cancelsAfter, hcs] using h
  | tick hlt =>
    simp only [allows, Bool.and_eq_true, List.isEmpty_iff, Bool.not_eq_true', beq_iff_eq] at ha
    exact .tick (ready_eq_nil.1 ha.1.1) ha.1.2 ha.2 hlt

/-- A run in virtual time between its beginning and its end. -/
structure Sound (p : Pipeline) (t : Timed W U) : Prop where
  run : t.run.Sound p
  sorted : t.cancels.Pairwise fun a b => a.1 ≤ b.1

theorem sound_begin (hp : p.Proper) (w : W) (cancels : List (Nat × String)) :
    (begin p w cancels : Timed W U).Sound p where
  run := Run.sound_begin hp w
  sorted := pairwise_mergeSort_key Prod.fst _

namespace Sound

theorem step (h : t.Sound p) (hp : p.Proper) (hs : t.step s move = some t') : t'.Sound p := by
  refine ⟨h.run.moved hp (Run.moved_of_step (step_eq_some.1 hs).2.1).2, ?_⟩
  cases (moved_of_step hs).2 with
  | stage | tick => exact h.sorted
  | cancel hc => exact (List.pairwise_cons.1 (hc ▸ h.sorted)).2

theorem timely (h : t.Sound p) {a : Activity U} {q : Played W U} {position : List Nat} {x : Act}
    {draw : Nat} (ha : t.run.present = some a)
    (hx : Activity.Able s.runner.due t.run.now t.run.cancelled a position x)
    (hq : a.step s x position (t.run.moment a draw) t.run.world = some q) :
    Activity.Timely s x a (t.run.moment a draw) t.run.world q :=
  hx.timely (m := t.run.moment a draw) (h.run.present a ha).1 hq

/-- A cancellation that is not due is to come later, and so are those after it. -/
theorem lt_of_mem_cancels (h : t.Sound p) (hc : t.cancelDue = false) {c : Nat × String}
    (hm : c ∈ t.cancels) : t.run.now < c.1 := by
  rw [cancelDue] at hc
  cases hcs : t.cancels with
  | nil => simp [hcs] at hm
  | cons d rest =>
    rw [hcs] at hc hm
    have hd : t.run.now < d.1 := by simpa using hc
    rcases List.mem_cons.1 hm with rfl | hm
    · exact hd
    · exact Nat.lt_of_lt_of_le hd ((List.pairwise_cons.1 (hcs ▸ h.sorted)).1 c hm)

/-- As long as nothing can happen, all that happens by itself is to come later. -/
theorem lt_of_mem_waits (h : t.Sound p) (hb : ¬ t.Busy s) (hc : t.cancelDue = false) {d : Nat}
    (hd : d ∈ t.waits s) : t.run.now < d := by
  rcases List.mem_append.1 hd with hd | hd
  · cases ha : t.run.present with
    | none => simp [ha] at hd
    | some a =>
      rw [ha, Option.elim_some] at hd
      by_contra hnow
      obtain ⟨position, hx⟩ : ∃ position,
          Activity.Able s.runner.due t.run.now t.run.cancelled a position .look :=
        Activity.able_of_due (h.run.present a ha).1 hd (Nat.le_of_not_lt hnow)
      exact hb ⟨a, position, _, ha, hx⟩
  · obtain ⟨c, hm, rfl⟩ := List.mem_map.1 hd
    exact h.lt_of_mem_cancels hc hm

end Sound

/-- A run that is not over can go on. -/
theorem exists_step {rank : U → Nat} (h : t.Sound p) (hr : s.runner.Prompt rank)
    (hv : t.run.verdict = none) : ∃ move t', t.step s move = some t' := by
  obtain ⟨a, ha⟩ := Option.isSome_iff_exists.1 (h.run.going.1 hv)
  have run_step (move : Move) {r : Run W U} (hallows : t.allows s move = true)
      (hstep : t.run.step s move = some r) : ∃ move t', t.step s move = some t' :=
    ⟨move, ⟨r, t.cancelsAfter move⟩, step_eq_some.2 ⟨hallows, hstep, rfl⟩⟩
  by_cases hc : t.cancelDue = true
  · -- a cancellation is due
    obtain ⟨⟨ms, reason⟩, hm, hms⟩ := (Option.any_eq_true _ _).1 hc
    exact run_step (.cancel reason) (by simp [allows, hc, hm]) (Run.step_cancel reason hv)
  rw [Bool.not_eq_true] at hc
  by_cases hb : t.Busy s
  · -- a stage can go on
    obtain ⟨b, position, x, hb, hx⟩ := hb
    obtain ⟨q, hq⟩ := hx.step s (t.run.moment b 0) t.run.world
    exact run_step (.stage position x 0) (any_ready.2 ⟨b, hb, hx⟩) (Run.step_stage hv hb hq)
  · -- time passes
    have hdue : Activity.dues s.runner.due a ≠ [] := by
      have hopen : (∃ position x, Activity.Able s.runner.due t.run.now t.run.cancelled a position x) ∨
          Activity.dues s.runner.due a ≠ [] :=
        Activity.able_or_due (h.run.present a ha).1 hr.due (h.run.present a ha).2
      refine hopen.resolve_left ?_
      rintro ⟨position, x, hx⟩
      exact hb ⟨a, position, x, ha, hx⟩
    obtain ⟨ms, hms⟩ : ∃ ms, (t.waits s).min? = some ms := by
      rw [← Option.isSome_iff_exists, List.isSome_min?_iff, waits, ha]
      simp [hdue]
    have hlt := h.lt_of_mem_waits hb hc (List.min?_mem hms)
    refine run_step (.tick ms) ?_ (Run.step_tick hv hlt)
    rw [allows, ready_eq_nil.2 hb, hc, hms]
    simp

end Timed

end StageTree

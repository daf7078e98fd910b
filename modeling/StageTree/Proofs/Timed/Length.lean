import StageTree.Proofs.Timed.Moves

/-! How long a run in virtual time can be. Every move makes a number smaller: a stage that goes on leaves
less work, a cancellation that comes is none to come, and after time has passed something can happen. -/

namespace StageTree.Timed

variable {W U : Type} {s : Setting W U} {t t' : Timed W U} {p : Pipeline} {w : W} {move : Move}
  {rank : U → Nat}

def work (s : Setting W U) (rank : U → Nat) (t : Timed W U) : Nat :=
  t.run.present.elim 0 (Activity.work s.runner.looks rank) +
    (t.run.future.map fun st => st.work s.runner.looks).sum + t.cancels.length

/-- Whether time has to pass before something happens. -/
def isIdle (s : Setting W U) (t : Timed W U) : Bool := (t.ready s).isEmpty && !t.cancelDue

/-- How many moves are to come at most: as many changes of time as other moves. -/
def movesLeft (s : Setting W U) (rank : U → Nat) (t : Timed W U) : Nat :=
  2 * t.work s rank + (t.isIdle s).toNat

theorem isIdle_iff : t.isIdle s = true ↔ ¬ t.Busy s ∧ t.cancelDue = false := by
  rw [isIdle, Bool.and_eq_true, List.isEmpty_iff, Bool.not_eq_true', ready_eq_nil]

/-- Once time has passed something can happen. -/
theorem isIdle_tick {ms : Nat} (h : t.Sound p) (hmin : (t.waits s).min? = some ms) :
    (⟨{ t.run with now := ms }, t.cancels⟩ : Timed W U).isIdle s = false := by
  rw [Bool.eq_false_iff, Ne, isIdle_iff]
  rintro ⟨hb, hc⟩
  have hs : (⟨{ t.run with now := ms }, t.cancels⟩ : Timed W U).Sound p := ⟨{ h.run with }, h.sorted⟩
  exact absurd (hs.lt_of_mem_waits hb hc (d := ms) (List.min?_mem hmin)) (Nat.lt_irrefl ms)

theorem work_take (h : t.Sound p) (hr : s.runner.Prompt rank) {a : Activity U} {q : Played W U} {x : Act}
    {m : Moment} (ha : t.run.present = some a) (hq : Activity.Timely s x a m t.run.world q) :
    work s rank ⟨t.run.take q, t.cancels⟩ < t.work s rank := by
  have hlt := hq.work_lt (h.run.present a ha).1 hr
  have htaking := Run.taking_take t.run q
  generalize t.run.take q = r at htaking ⊢
  rw [work, work, ha]
  cases htaking with
  | on hn =>
    simp only [Option.elim_some]
    omega
  | next he hf =>
    rw [Activity.work_of_hasEnded (Activity.hasEnded_of_phase he)] at hlt
    simp only [Option.elim_some, hf, List.map_cons, List.sum_cons]
    rw [Activity.work_of_waiting rfl]
    simp only [Activity.ofStage]
    omega
  | completed he hf =>
    simp only [Option.elim_some, Option.elim_none]
    omega
  | failed he =>
    simp only [Option.elim_some, Option.elim_none]
    omega

theorem movesLeft_lt (h : t.Sound p) (hr : s.runner.Prompt rank) (hs : t.step s move = some t') :
    t'.movesLeft s rank < t.movesLeft s rank := by
  have hle : (t'.isIdle s).toNat ≤ 1 := Bool.toNat_le _
  cases (moved_of_step hs).2 with
  | stage ha hx hq =>
    have hlt := work_take h hr ha (h.timely ha hx hq)
    rw [movesLeft, movesLeft]
    omega
  | @cancel ms reason rest hc hms =>
    have hlt : work s rank ⟨t.run.cancel reason, rest⟩ < t.work s rank := by
      rw [work, work, hc, Run.cancel]
      split
      · simp
      · cases t.run.present <;> simp
    rw [movesLeft, movesLeft]
    omega
  | tick hb hc hmin hlt =>
    have hidle : t.isIdle s = true := isIdle_iff.2 ⟨hb, hc⟩
    rw [movesLeft, movesLeft, isIdle_tick h hmin, hidle]
    simp [work]

/-- The number of moves of a run is bounded from its beginning. -/
theorem length_add_movesLeft_le (hp : p.Proper) (hr : s.runner.Prompt rank) (h : t.Sound p)
    {moves : List Move} (hm : t.moved s moves = some t') :
    moves.length + t'.movesLeft s rank ≤ t.movesLeft s rank := by
  induction moves generalizing t with
  | nil =>
    obtain rfl := Option.some.inj hm
    simp
  | cons move moves ih =>
    obtain ⟨q, hq, hm⟩ := Option.bind_eq_some_iff.1 (by simpa [Timed.moved] using hm)
    have hlt := movesLeft_lt h hr hq
    have hle := ih (h.step hp hq) hm
    rw [List.length_cons]
    omega

theorem movesLeft_begin (s : Setting W U) (rank : U → Nat) (hp : p.Proper) (w : W)
    (cancels : List (Nat × String)) :
    (begin p w cancels).movesLeft s rank < Run.turnBound s p cancels := by
  have hwork : work s rank (begin p w cancels) =
      (p.stages.map fun st => st.work s.runner.looks).sum + cancels.length := by
    have hlen : (cancelsInOrder cancels).length = cancels.length := by
      rw [cancelsInOrder, List.length_mergeSort, List.length_map]
    rw [work, begin, Run.begin, Run.advance]
    cases p.stages with
    | nil => simp [hlen]
    | cons st future => simp [hlen, Activity.work_of_waiting, Activity.ofStage]
  have hsum := Stage.sum_work s.runner.looks p.stages
  have hsucc := Stage.sum_work_succ s.runner.looks p.stages
  have hle : ((begin p w cancels).isIdle s).toNat ≤ 1 := Bool.toNat_le _
  have hpos := List.length_pos_iff.2 hp.stages
  rw [movesLeft, hwork, Run.turnBound, Pipeline.stageCount]
  omega

/-- The number of moves of a run of a pipeline in virtual time has a bound. -/
theorem length_le_turnBound (hp : p.Proper) (hr : s.runner.Prompt rank) {cancels : List (Nat × String)}
    {moves : List Move} (h : (begin p w cancels).moved s moves = some t) :
    moves.length < Run.turnBound s p cancels := by
  have hle := length_add_movesLeft_le hp hr (sound_begin hp w cancels) h
  have hbound := movesLeft_begin s rank hp w cancels
  omega

end StageTree.Timed

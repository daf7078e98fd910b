import StageTree.Proofs.Unit.Course

/-! The attempts at a unit that is cancelled, against those at the unit that nobody cancels. Up to the instant
of the cancellation they are the same, and at it the unit returns and an attempt that is being made is given
up. -/

namespace StageTree.Course

variable {C : Course} {unit : UnitOfWork} {reason : String} {i j n c : Nat}

theorem givesUp (C : Course) : C.runner.GivesUp := by
  intro u l w hl
  obtain ⟨reason, hreason⟩ := Option.isSome_iff_exists.1 hl
  cases u with
  | attempting unit n deadline x =>
    exact ⟨.error (.cancelled unit.name reason), by simp [runner, Runner.retrying, RetryPolicy.look, hreason]⟩
  | resting unit n wakes =>
    refine ⟨.error (.cancelled unit.name reason), ?_⟩
    simp [runner, Runner.retrying, RetryPolicy.look, RetryPolicy.attempt, hreason]

/-! ### The order of the attempts -/

theorem begins_mono (C : Course) : Monotone C.begins :=
  monotone_nat_of_le_succ fun i => Nat.le_trans (C.begins_le_ends i) (C.ends_le_begins i)

theorem ends_le_begins_of_lt (h : j < i) : C.ends j ≤ C.begins i :=
  Nat.le_trans (C.ends_le_begins j) (C.begins_mono h)

/-- The attempts that begin before an instant are those up to the last one that does. -/
theorem starts_filter (hi : C.begins i < c) (hc : c ≤ C.begins (i + 1)) (hn : i < n) :
    (C.starts n).filter (· < c) = C.starts (i + 1) := by
  obtain ⟨k, rfl⟩ := Nat.exists_eq_add_of_le hn
  rw [starts, List.range_add, List.map_append, List.filter_append, List.filter_eq_self.2, List.filter_eq_nil_iff.2,
    List.append_nil, starts]
  · intro ms hms
    obtain ⟨j, hj, rfl⟩ := List.mem_map.1 hms
    obtain ⟨d, _, rfl⟩ := List.mem_map.1 hj
    have := C.begins_mono (Nat.le_add_right (i + 1) d)
    simp only [decide_eq_true_eq, Nat.succ_eq_add_one]
    omega
  · intro ms hms
    obtain ⟨j, hj, rfl⟩ := List.mem_map.1 hms
    have := C.begins_mono (Nat.lt_succ_iff.1 (List.mem_range.1 hj))
    simp only [decide_eq_true_eq]
    omega

theorem mem_overdue : j ∈ C.overdue n ↔ j < n ∧ C.limit < (C.attempts j).1 := by
  rw [overdue, List.mem_filter, List.mem_range, decide_eq_true_eq]

theorem overdue_nodup (n : Nat) : (C.overdue n).Nodup := List.nodup_range.filter _

/-- While an attempt is being made, those before it are over and those after it have not begun. -/
theorem mem_overdue_during (hi : C.begins i < c) (hc : c < C.ends i) (hn : i < n) :
    j ∈ C.overdue i ++ [i] ↔ j ∈ C.overdue n ∧ C.ends j < c ∨ j < n ∧ C.begins j < c ∧ c < C.ends j := by
  rw [List.mem_append, List.mem_singleton, mem_overdue, mem_overdue]
  rcases Nat.lt_trichotomy j i with hj | rfl | hj
  · have hends := ends_le_begins_of_lt (C := C) hj
    have hbegins := C.begins_mono (Nat.le_of_lt hj)
    omega
  · omega
  · have hends := ends_le_begins_of_lt (C := C) hj
    have hbegins := C.begins_le_ends j
    omega

/-- Between two attempts, those up to the first one are over and those after it have not begun. -/
theorem mem_overdue_between (hi : C.ends i < c) (hc : c ≤ C.begins (i + 1)) (hn : i < n) :
    j ∈ C.overdue (i + 1) ↔ j ∈ C.overdue n ∧ C.ends j < c ∨ j < n ∧ C.begins j < c ∧ c < C.ends j := by
  rw [mem_overdue, mem_overdue]
  rcases Nat.lt_trichotomy j i with hj | rfl | hj
  · have hends := ends_le_begins_of_lt (C := C) hj
    have hbegins := C.begins_le_ends i
    omega
  · omega
  · have hends := C.begins_mono (show i + 1 ≤ j from hj)
    have hbegins := C.begins_le_ends j
    omega

/-! ### The cancelled unit -/

/-- A unit that is cancelled before it is started makes no attempt. -/
theorem play_cancelled_before (C : Course) (unit : UnitOfWork) (reason : String) :
    C.play unit [(0, reason)] =
      { cancelled := some reason, world := {}, progress := some (.returns (.error (.cancelled unit.name reason))),
        looks := 1 } := by
  have hcancel : Solo.turn? C.runner unit C.draws { cancels := [(0, reason)], world := {} } =
      some { cancelled := some reason, world := {} } := by
    refine Solo.turn?_cancelNow (fun _ h => ?_) (fun _ h => ?_) rfl <;> cases h
  have hstart : Solo.turn? C.runner unit C.draws { cancelled := some reason, world := {} } =
      some { cancelled := some reason, world := {},
             progress := some (.returns (.error (.cancelled unit.name reason))), looks := 1 } :=
    Solo.turn?_fresh rfl rfl
  have hfuel : 2 * (C.runner.looks + 1 + 1) = 2 * C.runner.looks + 2 + 1 + 1 := rfl
  rw [play, Solo.under, List.length_singleton, hfuel, Solo.play_of_turn hcancel, Solo.play_of_turn hstart]
  exact Solo.play_of_still (Solo.turn?_returned rfl) _

/-- A unit that would return later is found by its cancellation while an attempt is being made, which is given
up then, or between two attempts. -/
theorem play_cancelled (unit : UnitOfWork) (reason : String) (hc : 0 < c) (hends : ∀ i, C.Gets i → c ≠ C.ends i)
    (hbegins : ∀ i, C.Gets i → 0 < i → c ≠ C.begins i) (hle : c ≤ (C.play unit []).now) :
    (C.play unit [(c, reason)]).result? = some (.error (.cancelled unit.name reason)) ∧
      (C.play unit [(c, reason)]).now = c ∧
      (C.play unit [(c, reason)]).notes = (C.play unit []).notes.filter (·.1 < c) ∧
      ∃ i, C.Gets i ∧
        (C.begins i < c ∧ c < C.ends i ∧
            (C.play unit [(c, reason)]).world = ⟨C.starts (i + 1), C.overdue i ++ [i]⟩ ∨
          C.ends i < c ∧ c < C.begins (i + 1) ∧
            (C.play unit [(c, reason)]).world = ⟨C.starts (i + 1), C.overdue (i + 1)⟩) := by
  rcases Solo.under_cancelled C.prompt C.givesUp unit C.draws reason hc {} with
    ⟨hlt, _⟩ | ⟨m, b, u, d, hb, hnow, hp, hd, hcd, _, hnotes, hgaveUp⟩
  · exact absurd hlt (Nat.not_lt_of_le hle)
  have hcourse : OnCourse C unit b := hb ▸ OnCourse.play C unit m
  cases hcourse with
  | fresh => cases hp
  | @attempting i now hi hms hat =>
    obtain rfl := Progress.waits.inj (Option.some.inj hp)
    rw [due_attempting] at hd
    obtain rfl := Option.some.inj hd
    have hlt : c < C.ends i := Nat.lt_of_le_of_ne hcd (hends i hi)
    have hbegan : C.begins i < c := by
      have hnow' : now < c := hnow
      have := C.begins_le_ends i
      omega
    have ht : C.play unit [(c, reason)] = _ := hgaveUp hlt
    rw [ht]
    exact ⟨rfl, rfl, (List.append_nil _).trans hnotes, i, hi, .inl ⟨hbegan, hlt, rfl⟩⟩
  | @settled i now hi hat =>
    by_cases hgo : C.GoesOn i
    · rw [next_of_goesOn hgo] at hp
      obtain rfl := Progress.waits.inj (Option.some.inj hp)
      obtain rfl : C.begins (i + 1) = d := Option.some.inj hd
      have hlt : c < C.begins (i + 1) := Nat.lt_of_le_of_ne hcd (hbegins _ (hi.succ hgo) (Nat.succ_pos i))
      have hover : C.ends i < c := by
        have hnow' : now < c := hnow
        omega
      have ht : C.play unit [(c, reason)] = _ := hgaveUp hlt
      have hlook : C.runner.look (.resting unit (i + 1) (C.begins (i + 1)))
          ⟨c, some reason, C.draws (C.startLook (i + 1))⟩ ⟨C.starts (i + 1), C.overdue (i + 1)⟩ =
          { world := ⟨C.starts (i + 1), C.overdue (i + 1)⟩,
            progress := .returns (.error (.cancelled unit.name reason)) } := if_pos (.inr rfl)
      rw [ht, Solo.gaveUp]
      dsimp only
      rw [hlook]
      exact ⟨rfl, rfl, (List.append_nil _).trans hnotes, i, hi, .inr ⟨hover, hlt, rfl⟩⟩
    · obtain ⟨r, hr⟩ := next_of_not_goesOn unit hgo
      rw [hr] at hp
      cases hp

/-- The attempts at a unit that is cancelled at an instant at which none of them ends, nor a wait between two,
against those at the unit that nobody cancels. -/
theorem cancelled_course (C : Course) (unit : UnitOfWork) (reason : String) (c : Nat)
    (hends : ∀ i < (C.play unit []).world.starts.length, c ≠ C.ends i)
    (hbegins : ∀ i < (C.play unit []).world.starts.length, 0 < i → c ≠ C.begins i) :
    let s := C.play unit []
    let t := C.play unit [(c, reason)]
    let n := s.world.starts.length
    s.result?.isSome = true ∧ s.world.starts = (List.range n).map C.begins ∧
      -- the unit returns before
      (s.now < c → t.result? = s.result? ∧ t.now = s.now ∧ t.notes = s.notes ∧ t.world = s.world) ∧
      -- or it is cancelled, and what is in flight is given up
      (c ≤ s.now → t.result? = some (.error (.cancelled unit.name reason)) ∧ t.now = c ∧
        t.notes = s.notes.filter (·.1 < c) ∧ t.world.starts = s.world.starts.filter (· < c) ∧
        t.world.dropped.Nodup ∧ ∀ i, i ∈ t.world.dropped ↔
          i ∈ s.world.dropped ∧ C.ends i < c ∨ i < n ∧ C.begins i < c ∧ c < C.ends i) ∧
      -- before the call
      let z := C.play unit [(0, reason)]
      z.result? = some (.error (.cancelled unit.name reason)) ∧ z.now = 0 ∧ z.notes = [] ∧ z.world = {} := by
  obtain ⟨last, hgets, hlast, hplay⟩ := C.exists_last unit
  obtain ⟨r, hr⟩ := next_of_not_goesOn unit hlast
  have hlength : (C.starts (last + 1)).length = last + 1 := by rw [starts, List.length_map, List.length_range]
  intro s t n
  have hs : s = _ := hplay
  have hn : n = last + 1 := by
    change s.world.starts.length = _
    rw [hs, hlength]
  have hmade {i : Nat} (hi : C.Gets i) : i < n := by
    rw [hn]
    exact Nat.lt_succ_of_le (hi.le_of_last hlast)
  have hzero := C.play_cancelled_before unit reason
  refine ⟨?_, ?_, fun hlt => ?_, fun hle => ?_, ?_⟩
  · rw [hs, Solo.result?, hr]
    rfl
  · rw [hn, hs]
    rfl
  · rcases Nat.eq_zero_or_pos c with rfl | hc
    · cases hlt
    rcases Solo.under_cancelled C.prompt C.givesUp unit C.draws reason hc {} with
      ⟨_, ht⟩ | ⟨_, _, _, d, _, _, _, _, hcd, hdle, _⟩
    · have ht' : t = s.awaiting c reason := ht
      rw [ht']
      exact ⟨rfl, rfl, rfl, rfl⟩
    · exact absurd hlt (Nat.not_lt_of_le (Nat.le_trans hcd hdle))
  · rcases Nat.eq_zero_or_pos c with rfl | hc
    · have ht : t = _ := hzero
      rw [ht]
      refine ⟨rfl, rfl, ?_, ?_, .nil, by simp⟩ <;> simp
    obtain ⟨hresult, hnow, hnotes, i, hi, hfound⟩ := play_cancelled unit reason hc
      (fun i hi => hends i (hmade hi)) (fun i hi => hbegins i (hmade hi)) hle
    have hin := hmade hi
    have hworld : s.world = ⟨C.starts n, C.overdue n⟩ := by rw [hn, hs]
    refine ⟨hresult, hnow, hnotes, ?_⟩
    rw [hworld]
    rcases hfound with ⟨hbegan, hlt, ht⟩ | ⟨hover, hlt, ht⟩
    · have ht' : t.world = _ := ht
      have hnext := Nat.le_trans (Nat.le_of_lt hlt) (C.ends_le_begins i)
      rw [ht', starts_filter hbegan hnext hin]
      refine ⟨rfl, ?_, fun j => mem_overdue_during hbegan hlt hin⟩
      refine List.nodup_append.2 ⟨overdue_nodup i, List.nodup_singleton i, fun j hj k hk => ?_⟩
      rw [List.mem_singleton.1 hk]
      exact Nat.ne_of_lt (mem_overdue.1 hj).1
    · have ht' : t.world = _ := ht
      have hbegan := Nat.lt_of_le_of_lt (C.begins_le_ends i) hover
      rw [ht', starts_filter hbegan (Nat.le_of_lt hlt) hin]
      exact ⟨rfl, overdue_nodup _, fun j => mem_overdue_between hover (Nat.le_of_lt hlt) hin⟩
  · intro z
    have hz : z = _ := hzero
    rw [hz]
    exact ⟨rfl, rfl, rfl, rfl⟩

/-- An attempt that fails after 10 ms and, after a wait of 20 ms, one that would take 50 ms. -/
def secondChance : Course where
  policy := { maxAttempts := 2, attemptTimeoutSecs := 1, baseDelayMs := 20, maxDelayMs := 20, jitter := .none }
  attempts i := if i = 0 then (10, .error (.spawn "p" "r")) else (50, .ok ["x"])
  draws _ := 0

theorem cancelled_course_secondChance :
    let t := secondChance.play oneStep [(45, "stop")]
    t.result? = some (.error (.cancelled "u" "stop")) ∧ t.now = 45 ∧ t.world.starts = [0, 30] ∧
      1 ∈ t.world.dropped := by
  have hplay : (secondChance.play oneStep []).world.starts = [0, 30] ∧
      (secondChance.play oneStep []).now = 80 ∧
      secondChance.begins 1 = 30 ∧ secondChance.ends 0 = 10 ∧ secondChance.ends 1 = 80 := by
    decide +kernel
  obtain ⟨hstarts, hnow, hbegin, hend, hend'⟩ := hplay
  obtain ⟨_, _, _, hcancelled, _⟩ := cancelled_course secondChance oneStep "stop" 45
    (fun i hi => by
      rw [hstarts] at hi
      match i, hi with
      | 0, _ => rw [hend]; decide
      | 1, _ => rw [hend']; decide)
    (fun i hi hpos => by
      rw [hstarts] at hi
      match i, hi, hpos with
      | 1, _, _ => rw [hbegin]; decide)
  obtain ⟨hresult, hat, _, hbegun, _, hdropped⟩ := hcancelled (by rw [hnow]; decide)
  refine ⟨hresult, hat, by rw [hbegun, hstarts]; rfl, (hdropped 1).2 (.inr ⟨?_, ?_, ?_⟩)⟩
  · rw [hstarts]
    decide
  · rw [hbegin]
    decide
  · rw [hend']
    decide

end StageTree.Course

import StageTree.Proofs.Unit.Laws
import StageTree.Unit.Solo

/-! One unit in virtual time. A unit that nobody cancels comes to its end, since each look at it that is due
makes its rank smaller. A cancellation that is to come changes nothing before its instant, and finds the unit
as it stood at the last instant before. -/

namespace StageTree

/-- A runner that returns when it is looked at under a cancelled scope. -/
def Runner.GivesUp {W U : Type} (R : Runner W U) : Prop :=
  ∀ u l w, l.cancelled.isSome = true → ∃ r, (R.look u l w).progress = .returns r

namespace Solo

variable {W U : Type} {R : Runner W U} {unit : UnitOfWork} {draws : Nat → Nat} {s t : Solo W U} {u : U}
  {c d : Nat} {reason : String}

/-! ### Turns one after another -/

theorem play_of_turn (h : s.turn? R unit draws = some t) (k : Nat) :
    play R unit draws (k + 1) s = play R unit draws k t := by
  rw [play, h]

theorem play_of_still (h : s.turn? R unit draws = none) (k : Nat) : play R unit draws k s = s := by
  cases k with
  | zero => rfl
  | succ k => rw [play, h]

theorem play_add (k m : Nat) (s : Solo W U) :
    play R unit draws (k + m) s = play R unit draws m (play R unit draws k s) := by
  induction k generalizing s with
  | zero => rw [Nat.zero_add, play]
  | succ k ih =>
    rw [Nat.succ_add]
    cases h : s.turn? R unit draws with
    | none => rw [play_of_still h, play_of_still h, play_of_still h]
    | some t => rw [play_of_turn h, play_of_turn h, ih]

/-- What each turn keeps holds after all of them. -/
theorem play_induction {motive : Solo W U → Prop} (h : motive s)
    (turn : ∀ s t, motive s → s.turn? R unit draws = some t → motive t) (k : Nat) :
    motive (play R unit draws k s) := by
  induction k generalizing s with
  | zero => exact h
  | succ k ih =>
    cases hs : s.turn? R unit draws with
    | none =>
      rw [play_of_still hs]
      exact h
    | some t =>
      rw [play_of_turn hs]
      exact ih (turn s t h hs)

/-! ### What a turn is -/

theorem progress_cases (s : Solo W U) : s.progress = none ∨ (∃ r, s.progress = some (.returns r)) ∨
    ∃ u, s.progress = some (.waits u) := by
  rcases s.progress with _ | r | u
  · exact .inl rfl
  · exact .inr (.inr ⟨_, rfl⟩)
  · exact .inr (.inl ⟨_, rfl⟩)

theorem turn?_returned {r : UnitResult} (hp : s.progress = some (.returns r)) : s.turn? R unit draws = none := by
  simp [turn?, result?, hp]

theorem turn?_fresh (hp : s.progress = none) (hc : s.cancelNow? = none) :
    s.turn? R unit draws = some (s.take (R.start unit ⟨s.now, s.cancelled, draws s.looks⟩ s.world)) := by
  simp [turn?, result?, lookIf?, startNow?, hp, hc]

/-- A unit that is due is looked at before anything else happens. -/
theorem turn?_due (hp : s.progress = some (.waits u)) (hd : R.due u = some d) (hle : d ≤ s.now) :
    s.turn? R unit draws = some (s.take (R.look u ⟨s.now, s.cancelled, draws s.looks⟩ s.world)) := by
  simp [turn?, result?, lookIf?, hp, hd, hle]

theorem turn?_cancelNow (hp : ∀ r, s.progress ≠ some (.returns r))
    (hd : ∀ u, s.progress = some (.waits u) → (R.due u).any (· ≤ s.now) = false) (hc : s.cancelNow? = some t) :
    s.turn? R unit draws = some t := by
  rcases s.progress_cases with h | ⟨r, h⟩ | ⟨u, h⟩
  · simp [turn?, result?, lookIf?, h, hc]
  · exact absurd h (hp r)
  · simp [turn?, result?, lookIf?, h, hc, hd u h]

theorem turn?_cancelled (hp : s.progress = some (.waits u)) (hd : R.due u = some d) (hlt : s.now < d)
    (hc : s.cancelNow? = none) (hcancelled : s.cancelled.isSome = true) : s.turn? R unit draws =
      some (s.take (R.look u ⟨s.now, s.cancelled, draws s.looks⟩ s.world)) := by
  simp [turn?, result?, lookIf?, startNow?, hp, hd, Nat.not_le_of_lt hlt, hc, hcancelled]

/-- Where nothing can happen, time passes. -/
theorem turn?_pass (hp : s.progress = some (.waits u)) (hd : R.due u = some d) (hlt : s.now < d)
    (hc : s.cancelNow? = none) (hcancelled : s.cancelled = none) :
    s.turn? R unit draws = (s.nextInstant? R).map fun ms => { s with now := ms } := by
  simp [turn?, result?, lookIf?, startNow?, hp, hd, Nat.not_le_of_lt hlt, hc, hcancelled]

/-! ### A unit that nobody cancels -/

/-- Nobody has cancelled the unit or will. -/
structure Free (s : Solo W U) : Prop where
  cancelled : s.cancelled = none
  cancels : s.cancels = []

namespace Free

theorem cancelNow?_eq (h : s.Free) : s.cancelNow? = none := by rw [cancelNow?, h.cancels]

theorem turn?_pass (h : s.Free) (hp : s.progress = some (.waits u)) (hd : R.due u = some d) (hlt : s.now < d) :
    s.turn? R unit draws = some { s with now := d } := by
  rw [Solo.turn?_pass hp hd hlt h.cancelNow?_eq h.cancelled]
  simp [nextInstant?, hp, hd, h.cancels]

/-- The turns of a unit whose runner always waits for some instant. -/
theorem turn_cases (h : s.Free) (hdue : ∀ u, (R.due u).isSome = true) (ht : s.turn? R unit draws = some t) :
    s.progress = none ∧ t = s.take (R.start unit ⟨s.now, none, draws s.looks⟩ s.world) ∨
      ∃ u d, s.progress = some (.waits u) ∧ R.due u = some d ∧
        (d ≤ s.now ∧ t = s.take (R.look u ⟨s.now, none, draws s.looks⟩ s.world) ∨
          s.now < d ∧ t = { s with now := d }) := by
  rcases s.progress_cases with hp | ⟨r, hp⟩ | ⟨u, hp⟩
  · rw [turn?_fresh hp h.cancelNow?_eq, h.cancelled] at ht
    exact .inl ⟨hp, (Option.some.inj ht).symm⟩
  · rw [turn?_returned hp] at ht
    cases ht
  · obtain ⟨d, hd⟩ := Option.isSome_iff_exists.1 (hdue u)
    refine .inr ⟨u, d, hp, hd, ?_⟩
    rcases Nat.lt_or_ge s.now d with hlt | hle
    · rw [h.turn?_pass hp hd hlt] at ht
      exact .inr ⟨hlt, (Option.some.inj ht).symm⟩
    · rw [turn?_due hp hd hle, h.cancelled] at ht
      exact .inl ⟨hle, (Option.some.inj ht).symm⟩

/-- A unit that nobody cancels and that does not go on has returned. -/
theorem returned_of_still (h : s.Free) (hdue : ∀ u, (R.due u).isSome = true) (hs : s.turn? R unit draws = none) :
    ∃ r, s.progress = some (.returns r) := by
  rcases s.progress_cases with hp | hp | ⟨u, hp⟩
  · rw [turn?_fresh hp h.cancelNow?_eq] at hs
    cases hs
  · exact hp
  · obtain ⟨d, hd⟩ := Option.isSome_iff_exists.1 (hdue u)
    rcases Nat.lt_or_ge s.now d with hlt | hle
    · rw [h.turn?_pass hp hd hlt] at hs
      cases hs
    · rw [turn?_due hp hd hle] at hs
      cases hs

theorem turn (h : s.Free) (hdue : ∀ u, (R.due u).isSome = true) (ht : s.turn? R unit draws = some t) : t.Free := by
  rcases h.turn_cases hdue ht with ⟨_, rfl⟩ | ⟨_, _, _, _, ⟨_, rfl⟩ | ⟨_, rfl⟩⟩ <;> exact ⟨h.cancelled, h.cancels⟩

theorem play (h : s.Free) (hdue : ∀ u, (R.due u).isSome = true) (k : Nat) : (Solo.play R unit draws k s).Free :=
  play_induction h (fun _ _ h ht => h.turn hdue ht) k

/-- Time does not go back, and what is said is said at the instant at which it is. -/
theorem turn_notes (h : s.Free) (hdue : ∀ u, (R.due u).isSome = true) (ht : s.turn? R unit draws = some t) :
    s.now ≤ t.now ∧ ∃ more, t.notes = s.notes ++ more ∧ ∀ n ∈ more, n.1 = s.now := by
  have htake (turn : Turn W U) : ∃ more, (s.take turn).notes = s.notes ++ more ∧ ∀ n ∈ more, n.1 = s.now := by
    refine ⟨_, rfl, fun n hn => ?_⟩
    obtain ⟨_, _, rfl⟩ := List.mem_map.1 hn
    rfl
  rcases h.turn_cases hdue ht with ⟨_, rfl⟩ | ⟨_, d, _, _, ⟨_, rfl⟩ | ⟨hlt, rfl⟩⟩
  · exact ⟨Nat.le_refl _, htake _⟩
  · exact ⟨Nat.le_refl _, htake _⟩
  · exact ⟨Nat.le_of_lt hlt, [], by simp, by simp⟩

theorem play_notes (h : s.Free) (unit : UnitOfWork) (draws : Nat → Nat) (hdue : ∀ u, (R.due u).isSome = true)
    (k : Nat) :
    s.now ≤ (Solo.play R unit draws k s).now ∧
      ∃ more, (Solo.play R unit draws k s).notes = s.notes ++ more ∧
        ∀ n ∈ more, s.now ≤ n.1 ∧ n.1 ≤ (Solo.play R unit draws k s).now := by
  induction k generalizing s with
  | zero => exact ⟨Nat.le_refl _, [], by simp [Solo.play], by simp⟩
  | succ k ih =>
    cases hs : s.turn? R unit draws with
    | none =>
      rw [play_of_still hs]
      exact ⟨Nat.le_refl _, [], by simp, by simp⟩
    | some t =>
      rw [play_of_turn hs]
      obtain ⟨hle, more, hmore, hat⟩ := h.turn_notes hdue hs
      obtain ⟨hle', more', hmore', hat'⟩ := ih (h.turn hdue hs)
      refine ⟨Nat.le_trans hle hle', more ++ more', by rw [hmore', hmore, List.append_assoc], fun n hn => ?_⟩
      rcases List.mem_append.1 hn with hn | hn
      · rw [hat n hn]
        exact ⟨Nat.le_refl _, Nat.le_trans hle hle'⟩
      · exact ⟨Nat.le_trans hle (hat' n hn).1, (hat' n hn).2⟩

end Free

/-- How many turns a unit of a rank takes at most. -/
def turnsLeft (R : Runner W U) (rank : U → Nat) (s : Solo W U) : Nat :=
  match s.progress with
  | none => 2 * R.looks + 1
  | some (.returns _) => 0
  | some (.waits u) => 2 * rank u + if (R.due u).any (· ≤ s.now) then 1 else 2

theorem turnsLeft_le_of_waits (rank : U → Nat) (hp : s.progress = some (.waits u)) :
    s.turnsLeft R rank ≤ 2 * rank u + 2 := by
  rw [turnsLeft, hp]
  dsimp only
  split <;> omega

theorem turnsLeft_take_lt {rank : U → Nat} {turn : Turn W U} {k : Nat} (hk : 0 < k)
    (h : ∀ u, turn.progress = .waits u → 2 * rank u + 2 < k) : (s.take turn).turnsLeft R rank < k := by
  cases hp : turn.progress with
  | returns r =>
    rw [turnsLeft, take, hp]
    exact hk
  | waits u =>
    have hle := turnsLeft_le_of_waits (R := R) rank (show (s.take turn).progress = some (.waits u) by rw [take, hp])
    exact Nat.lt_of_le_of_lt hle (h u hp)

theorem turnsLeft_lt {rank : U → Nat} (hR : R.Prompt rank) (h : s.Free) (ht : s.turn? R unit draws = some t) :
    t.turnsLeft R rank < s.turnsLeft R rank := by
  rcases h.turn_cases hR.due ht with ⟨hp, rfl⟩ | ⟨u, d, hp, hd, ⟨hle, rfl⟩ | ⟨hlt, rfl⟩⟩
  · have hs : s.turnsLeft R rank = 2 * R.looks + 1 := by rw [turnsLeft, hp]
    rw [hs]
    refine turnsLeft_take_lt (Nat.succ_pos _) fun u hu => ?_
    have := hR.start unit _ s.world u hu
    omega
  · have hdue : (R.due u).any (· ≤ s.now) = true := by simp [hd, hle]
    have hs : s.turnsLeft R rank = 2 * rank u + 1 := by rw [turnsLeft, hp]; simp [hdue]
    rw [hs]
    refine turnsLeft_take_lt (Nat.succ_pos _) fun u' hu' => ?_
    have := hR.look u _ s.world u' (.inr hdue) hu'
    omega
  · simp [turnsLeft, hp, hd, Nat.not_le_of_lt hlt]

/-- A unit that nobody cancels returns. -/
theorem returned_of_prompt {rank : U → Nat} (hR : R.Prompt rank) (h : s.Free) {k : Nat}
    (hk : s.turnsLeft R rank ≤ k) : ∃ r, (play R unit draws k s).progress = some (.returns r) := by
  induction k generalizing s with
  | zero =>
    rw [play]
    rw [turnsLeft] at hk
    split at hk
    · omega
    · exact ⟨_, ‹_›⟩
    · split at hk <;> omega
  | succ k ih =>
    cases hs : s.turn? R unit draws with
    | none =>
      rw [play_of_still hs]
      exact h.returned_of_still hR.due hs
    | some t =>
      rw [play_of_turn hs]
      have hlt := turnsLeft_lt hR h hs
      exact ih (h.turn hR.due hs) (by omega)

theorem free_of_world (w : W) : ({ world := w } : Solo W U).Free := ⟨rfl, rfl⟩

theorem returned_under {rank : U → Nat} (hR : R.Prompt rank) (unit : UnitOfWork) (draws : Nat → Nat) (w : W) :
    ∃ r, (under R unit draws [] w).progress = some (.returns r) := by
  refine returned_of_prompt hR (free_of_world w) ?_
  rw [turnsLeft, List.length_nil]
  dsimp only
  omega

/-! ### A cancellation that is to come -/

def awaiting (s : Solo W U) (c : Nat) (reason : String) : Solo W U := { s with cancels := [(c, reason)] }

/-- The unit once its runner was looked at under a cancelled scope. -/
def gaveUp (R : Runner W U) (draws : Nat → Nat) (s : Solo W U) (u : U) (c : Nat) (reason : String) : Solo W U :=
  take { s with now := c, cancelled := some reason } (R.look u ⟨c, some reason, draws s.looks⟩ s.world)

theorem cancelNow?_awaiting (hlt : s.now < c) : (s.awaiting c reason).cancelNow? = none := by
  simp [cancelNow?, awaiting, Nat.not_le_of_lt hlt]

/-- Before its instant a cancellation changes no turn but the one by which time would pass it. -/
theorem Free.turn?_awaiting (h : s.Free) (reason : String) (hdue : ∀ u, (R.due u).isSome = true) (hlt : s.now < c)
    (ht : s.turn? R unit draws = some t) :
    t.now < c ∧ (s.awaiting c reason).turn? R unit draws = some (t.awaiting c reason) ∨
      ∃ u d, s.progress = some (.waits u) ∧ R.due u = some d ∧ s.now < d ∧ c ≤ d ∧ t = { s with now := d } := by
  have hcancel : (s.awaiting c reason).cancelNow? = none := cancelNow?_awaiting hlt
  rcases h.turn_cases hdue ht with ⟨hp, rfl⟩ | ⟨u, d, hp, hd, ⟨hle, rfl⟩ | ⟨hlt', rfl⟩⟩
  · refine .inl ⟨hlt, ?_⟩
    rw [turn?_fresh (s := s.awaiting c reason) hp hcancel, ← h.cancelled]
    rfl
  · refine .inl ⟨hlt, ?_⟩
    rw [turn?_due (s := s.awaiting c reason) hp hd hle, ← h.cancelled]
    rfl
  · rcases Nat.lt_or_ge d c with hdc | hcd
    · refine .inl ⟨hdc, ?_⟩
      rw [Solo.turn?_pass (s := s.awaiting c reason) hp hd hlt' hcancel h.cancelled]
      simp [nextInstant?, awaiting, hp, hd, Nat.min_eq_left (Nat.le_of_lt hdc)]
    · exact .inr ⟨u, d, hp, hd, hlt', hcd, rfl⟩

/-- A unit goes on as if no cancellation were to come, up to the turn by which time would pass it. -/
theorem Free.play_awaiting (h : s.Free) (unit : UnitOfWork) (draws : Nat → Nat) (reason : String)
    (hdue : ∀ u, (R.due u).isSome = true) (hlt : s.now < c) (k : Nat) :
    (Solo.play R unit draws k s).now < c ∧
        Solo.play R unit draws k (s.awaiting c reason) = (Solo.play R unit draws k s).awaiting c reason ∨
      ∃ m b u d, m < k ∧ b = Solo.play R unit draws m s ∧ b.now < c ∧ b.progress = some (.waits u) ∧
        R.due u = some d ∧ c ≤ d ∧ Solo.play R unit draws (m + 1) s = { b with now := d } ∧
        Solo.play R unit draws m (s.awaiting c reason) = b.awaiting c reason := by
  induction k with
  | zero => exact .inl ⟨hlt, rfl⟩
  | succ k ih =>
    rcases ih with ⟨hnow, hplay⟩ | ⟨m, b, u, d, hm, hrest⟩
    · rw [play_add, play_add, hplay]
      cases ht : (Solo.play R unit draws k s).turn? R unit draws with
      | none =>
        obtain ⟨r, hr⟩ := (h.play hdue k).returned_of_still hdue ht
        rw [play_of_still ht,
          play_of_still (turn?_returned (s := (Solo.play R unit draws k s).awaiting c reason) hr)]
        exact .inl ⟨hnow, rfl⟩
      | some t =>
        rw [play_of_turn ht]
        rcases (h.play hdue k).turn?_awaiting reason hdue hnow ht with ⟨hlt', ht'⟩ |
          ⟨u, d, hp, hd, hlt', hcd, rfl⟩
        · rw [play_of_turn ht']
          exact .inl ⟨hlt', rfl⟩
        · refine .inr ⟨k, _, u, d, Nat.lt_succ_self k, rfl, hnow, hp, hd, hcd, ?_, hplay⟩
          rw [play_add, play_of_turn ht]
          rfl
    · exact .inr ⟨m, b, u, d, Nat.lt_succ_of_lt hm, hrest⟩

/-- At its instant a cancellation finds the unit that waits for a later one. -/
theorem Free.play_gaveUp (h : s.Free) (hR : R.GivesUp) (hp : s.progress = some (.waits u)) (hd : R.due u = some d)
    (hlt : s.now < c) (hcd : c < d) (k : Nat) :
    Solo.play R unit draws (k + 3) (s.awaiting c reason) = s.gaveUp R draws u c reason := by
  have hpass : (s.awaiting c reason).turn? R unit draws = some { s with now := c, cancels := [(c, reason)] } := by
    rw [Solo.turn?_pass (s := s.awaiting c reason) hp hd (Nat.lt_trans hlt hcd) (cancelNow?_awaiting hlt) h.cancelled]
    simp [nextInstant?, awaiting, hp, hd, Nat.min_eq_right (Nat.le_of_lt hcd)]
  have hcancel : Solo.turn? R unit draws { s with now := c, cancels := [(c, reason)] } =
      some { s with now := c, cancelled := some reason, cancels := [] } := by
    refine turn?_cancelNow (fun r hr => ?_) (fun u' hu' => ?_) ?_
    · cases hp.symm.trans hr
    · obtain rfl := Progress.waits.inj (Option.some.inj (hp.symm.trans hu'))
      simp [hd, hcd]
    · simp [cancelNow?, h.cancelled]
  have hlook : Solo.turn? R unit draws { s with now := c, cancelled := some reason, cancels := [] } =
      some (s.gaveUp R draws u c reason) := by
    rw [turn?_cancelled (s := { s with now := c, cancelled := some reason, cancels := [] }) hp hd hcd rfl rfl, gaveUp,
      h.cancels]
  obtain ⟨r, hr⟩ := hR u ⟨c, some reason, draws s.looks⟩ s.world rfl
  have hstill : (s.gaveUp R draws u c reason).turn? R unit draws = none :=
    turn?_returned (r := r) (by rw [gaveUp, take, hr])
  rw [play_of_turn hpass, play_of_turn hcancel, play_of_turn hlook, play_of_still hstill]

/-- A unit that is to be cancelled, against the one that nobody cancels: it has returned before, or it is
found waiting, where all that follows comes later. -/
theorem under_cancelled {rank : U → Nat} (hR : R.Prompt rank) (hgives : R.GivesUp) (unit : UnitOfWork)
    (draws : Nat → Nat) (reason : String) (hc : 0 < c) (w : W) :
    (under R unit draws [] w).now < c ∧
        under R unit draws [(c, reason)] w = (under R unit draws [] w).awaiting c reason ∨
      ∃ m b u d, b = play R unit draws m { world := w } ∧ b.now < c ∧ b.progress = some (.waits u) ∧
        R.due u = some d ∧ c ≤ d ∧ d ≤ (under R unit draws [] w).now ∧
        b.notes = (under R unit draws [] w).notes.filter (·.1 < c) ∧
        (c < d → under R unit draws [(c, reason)] w = b.gaveUp R draws u c reason) := by
  have hfree : ({ world := w } : Solo W U).Free := free_of_world w
  have hfuel : 2 * (R.looks + 1 + 1) = 2 * (R.looks + 0 + 1) + 2 := by omega
  have hunder : under R unit draws [(c, reason)] w =
      play R unit draws (2 * (R.looks + 0 + 1) + 2) (({ world := w } : Solo W U).awaiting c reason) := by
    rw [← hfuel]
    rfl
  rcases hfree.play_awaiting unit draws reason hR.due hc
    (2 * (R.looks + 0 + 1)) with ⟨hnow, hplay⟩ | ⟨m, b, u, d, hm, hb, hnow, hp, hd, hcd, hnext, hplay⟩
  · obtain ⟨r, hr⟩ := returned_under hR unit draws w
    refine .inl ⟨hnow, ?_⟩
    rw [hunder, play_add, hplay]
    exact play_of_still (turn?_returned (s := (under R unit draws [] w).awaiting c reason) hr) _
  · obtain ⟨k, hk⟩ := Nat.exists_eq_add_of_lt hm
    have hbfree : b.Free := hb ▸ hfree.play hR.due m
    have hrest : under R unit draws [] w = play R unit draws k { b with now := d } := by
      rw [← hnext, ← play_add, under, List.length_nil, hk]
      congr 1
      omega
    obtain ⟨_, before, hbefore, hbeforeAt⟩ := hfree.play_notes unit draws hR.due m
    obtain ⟨hle, after, hafter, hafterAt⟩ :=
      Free.play_notes (s := { b with now := d }) ⟨hbfree.cancelled, hbfree.cancels⟩ unit draws hR.due k
    rw [← hb] at hbefore hbeforeAt
    rw [← hrest] at hle hafter hafterAt
    refine .inr ⟨m, b, u, d, hb, hnow, hp, hd, hcd, hle, ?_, fun hlt => ?_⟩
    · have hearly : b.notes.filter (·.1 < c) = b.notes := List.filter_eq_self.2 fun n hn => by
        rw [hbefore] at hn
        exact decide_eq_true (Nat.lt_of_le_of_lt (hbeforeAt n hn).2 hnow)
      have hlate : after.filter (·.1 < c) = [] := List.filter_eq_nil_iff.2 fun n hn => by
        have hdn : d ≤ n.1 := (hafterAt n hn).1
        rw [decide_eq_true_eq]
        exact Nat.not_lt_of_le (Nat.le_trans hcd hdn)
      rw [hafter, List.filter_append, hearly, hlate, List.append_nil]
    · have hsum : 2 * (R.looks + 0 + 1) + 2 = m + (k + 3) := by omega
      rw [hunder, hsum, play_add, hplay, hbfree.play_gaveUp hgives hp hd hnow hlt]

end Solo

end StageTree

import StageTree.Proofs.Fate.Basic

/-! Bounds on what becomes of a stage. No stage ends before it starts, one that starts before its deadline
ends later than it starts, and a failure that comes no earlier than an instant cuts no deadline off
before it. -/

namespace StageTree

namespace Fate

variable {fates : List Fate} {f : Fate} {now n : Nat} {deadline : Option Nat}

theorem le_latest (h : f ∈ fates) : f.ends ≤ latest fates := by
  induction fates with
  | nil => cases h
  | cons g fates ih =>
    rw [latest, List.foldr_cons]
    rcases List.mem_cons.1 h with rfl | h
    · exact Nat.le_max_left _ _
    · exact Nat.le_trans (ih h) (Nat.le_max_right _ _)

theorem latest_le (h : ∀ f ∈ fates, f.ends ≤ n) : latest fates ≤ n := by
  induction fates with
  | nil => exact Nat.zero_le n
  | cons g fates ih =>
    rw [latest, List.foldr_cons]
    exact Nat.max_le.2 ⟨h g List.mem_cons_self, ih fun f hf => h f (List.mem_cons_of_mem _ hf)⟩

theorem firstFailure?_eq_some : firstFailure? fates = some n ↔
    (∃ f ∈ fates, f.status = .fail ∧ f.ends = n) ∧ ∀ f ∈ fates, f.status = .fail → n ≤ f.ends := by
  simp only [firstFailure?, List.min?_eq_some_iff, List.mem_map, List.mem_filter, decide_eq_true_eq, and_assoc]
  constructor
  · rintro ⟨h, hle⟩
    exact ⟨h, fun f hf hfail => hle _ ⟨f, hf, hfail, rfl⟩⟩
  · rintro ⟨h, hle⟩
    refine ⟨h, ?_⟩
    rintro _ ⟨f, hf, hfail, rfl⟩
    exact hle f hf hfail

/-- A deadline that comes no earlier than an instant, as no failure does, is cut off no earlier. -/
theorem le_cutoff {failFast : Bool} (hd : ∀ d ∈ deadline, n ≤ d)
    (hf : failFast = true → ∀ f ∈ fates, f.status = .fail → n ≤ f.ends) :
    ∀ d ∈ cutoff failFast deadline fates, n ≤ d := by
  intro d hd'
  rw [cutoff] at hd'
  split at hd'
  · rename_i hff
    split at hd'
    · rename_i ms hms
      obtain ⟨⟨f, hmem, hfail, rfl⟩, _⟩ := firstFailure?_eq_some.1 hms
      obtain rfl := Option.some.inj hd'
      have hle := hf hff f hmem hfail
      cases deadline with
      | none => exact hle
      | some e => exact Nat.le_min.2 ⟨hd e rfl, hle⟩
    · exact hd d hd'
  · exact hd d hd'

theorem exists_cutoff_eq (failFast : Bool) (d : Nat) (fates : List Fate) :
    ∃ d' ≤ d, cutoff failFast (some d) fates = some d' := by
  rw [cutoff]
  split
  · split
    · exact ⟨_, Nat.min_le_left d _, rfl⟩
    · exact ⟨d, Nat.le_refl d, rfl⟩
  · exact ⟨d, Nat.le_refl d, rfl⟩

/-- A deadline that has come is not cut off by failures of that instant or later. -/
theorem cutoff_of_le {failFast : Bool} {d : Nat}
    (hf : failFast = true → ∀ f ∈ fates, f.status = .fail → d ≤ f.ends) :
    cutoff failFast (some d) fates = some d := by
  obtain ⟨d', hle, e⟩ := exists_cutoff_eq failFast d fates
  have hge := le_cutoff (n := d) (fun e he => Nat.le_of_eq (Option.some.inj he)) hf d' e
  rw [e, Nat.le_antisymm hle hge]

/-- A unit that is over before the deadline ends as its script says. -/
theorem working_of_le {script : Script} {unit : UnitOfWork} {wakes : Nat} (h : ∀ d ∈ deadline, wakes ≤ d) :
    f.working script unit wakes deadline =
      { f with ends := wakes, status := script.status, lines := script.lines? unit } := by
  have hnone : deadline.filter (· < wakes) = none := by
    rw [Option.filter_eq_none_iff]
    intro d hd
    have := h d hd
    simpa using this
  rw [working, hnone]

theorem working_of_lt {script : Script} {unit : UnitOfWork} {wakes d : Nat} (h : d < wakes) :
    f.working script unit wakes (some d) = { f with ends := d, status := .cancel, lines := none } := by
  have hsome : (some d).filter (· < wakes) = some d := by simp [h]
  rw [working, hsome]

theorem le_ends_working {script : Script} {unit : UnitOfWork} {wakes : Nat} (hw : n ≤ wakes)
    (hd : ∀ d ∈ deadline, n ≤ d) : n ≤ (f.working script unit wakes deadline).ends := by
  rw [working]
  split
  · rename_i d e
    exact hd d (Option.eq_some_of_filter_eq_some e)
  · exact hw

end Fate

namespace Stage

variable {scriptOf : String → Script} {vars : Bindings} {s : Stage} {f : Fate} {now n since : Nat}
  {deadline : Option Nat}

theorem le_ends_onward (h : n ≤ now) (hd : ∀ d ∈ deadline, n ≤ d) :
    n ≤ (s.onward scriptOf vars f now deadline).ends := by
  rw [onward]
  split
  · exact Fate.le_ends_working (Nat.le_trans h (Nat.le_add_right _ _)) hd
  · exact h

theorem le_ends_settled {branches : List Fate} (h : ∃ f ∈ branches, n ≤ f.ends)
    (hd : ∀ d ∈ deadline, n ≤ d) : n ≤ (s.settled scriptOf vars since branches deadline).ends := by
  obtain ⟨f, hf, hle⟩ := h
  have hlatest : n ≤ Fate.latest branches := Nat.le_trans hle (Fate.le_latest hf)
  rw [settled]
  split
  · exact hlatest
  · split
    · exact hlatest
    · exact le_ends_onward hlatest hd

theorem fateAll_eq (since : Nat) (stages : List Stage) (deadline : Option Nat) :
    fateAll scriptOf vars since stages deadline = stages.map fun b => b.fate scriptOf vars since deadline := by
  induction stages with
  | nil => rfl
  | cons b stages ih => rw [fateAll, ih, List.map_cons]

theorem failureAll_eq (since : Nat) (stages : List Stage) :
    failureAll scriptOf vars since stages = stages.map fun b => b.failure? scriptOf vars since := by
  induction stages with
  | nil => rfl
  | cons b stages ih => rw [failureAll, ih, List.map_cons]

theorem fate_of_le (h : deadline.any (· ≤ since) = true) :
    s.fate scriptOf vars since deadline = .refused s.name since := by
  obtain ⟨name, agent, steps, failFast, parallel⟩ := s
  rw [fate, if_pos h]

theorem fate_of_single (h : ∀ d ∈ deadline, since < d) (hp : s.parallel = none) :
    s.fate scriptOf vars since deadline =
      s.onward scriptOf vars { name := s.name, since, ends := since } since deadline := by
  have hn : ¬ deadline.any (· ≤ since) = true := by
    simpa [Option.any_eq_true] using h
  obtain ⟨name, agent, steps, failFast, parallel⟩ := s
  subst hp
  rw [fate, if_neg hn, fateGroup]

theorem fate_of_group {stages : List Stage} (h : ∀ d ∈ deadline, since < d) (hp : s.parallel = some stages) :
    s.fate scriptOf vars since deadline =
      s.grouped scriptOf vars since (fateAll scriptOf vars since stages) deadline := by
  have hn : ¬ deadline.any (· ≤ since) = true := by
    simpa [Option.any_eq_true] using h
  obtain ⟨name, agent, steps, failFast, parallel⟩ := s
  subst hp
  rw [fate, if_neg hn, fateGroup]

theorem overtakenAll_eq (begun : List Nat → Bool) (i : Nat) (stages : List Stage) :
    overtakenAll now begun i stages =
      stages.mapIdx fun k b => b.overtaken now fun position => begun ((i + k) :: position) := by
  induction stages generalizing i with
  | nil => rfl
  | cons b stages ih =>
    rw [overtakenAll, ih, List.mapIdx_cons]
    simp only [Nat.add_zero, Nat.add_assoc, Nat.add_comm 1]

theorem overtaken_eq (s : Stage) (begun : List Nat → Bool) : s.overtaken now begun =
    { name := s.name, since := now, ends := now, status := .cancel
      branches := if begun [] then
        s.branches.mapIdx fun k b => b.overtaken now fun position => begun (k :: position) else [] } := by
  obtain ⟨name, agent, steps, failFast, parallel⟩ := s
  cases parallel with
  | none => simp [overtaken, overtakenGroup, branches]
  | some stages => simp [overtaken, overtakenGroup, overtakenAll_eq, branches]

@[simp] theorem overtaken_status (s : Stage) (begun : List Nat → Bool) :
    (s.overtaken now begun).status = .cancel := by
  rw [overtaken_eq]

/-- A stage that has not gone on before the cancellation comes is refused. -/
theorem overtaken_of_not_begun {begun : List Nat → Bool} (h : begun [] = false) :
    s.overtaken now begun = .refused s.name now := by
  rw [overtaken_eq, h]
  rfl

theorem failure?_eq (s : Stage) : s.failure? scriptOf vars since =
    (Fate.blame (fateAll scriptOf vars since s.branches none)
      (failureAll scriptOf vars since s.branches)).or
      (if s.hasSteps then (scriptOf s.name).error? (.ofStage s vars) else none) := by
  obtain ⟨name, agent, steps, failFast, parallel⟩ := s
  cases parallel <;> rfl

abbrev Lasting (scriptOf : String → Script) : Stage → Prop :=
  Everywhere fun s => s.hasSteps = true → 0 < (scriptOf s.name).delayMs

theorem lt_waitEnd {now ms : Nat} (h : 0 < ms) : now < waitEnd now ms := by
  have hlongest : 0 < longestWaitMs := by decide
  rw [waitEnd]
  omega

/-- A stage that starts before its deadline ends later than it starts. -/
theorem lt_ends_fate (hs : s.Proper) (hl : s.Lasting scriptOf) (hd : ∀ d ∈ deadline, since < d) :
    since < (s.fate scriptOf vars since deadline).ends := by
  induction s using Stage.induction generalizing deadline with
  | h s ih =>
    cases hp : s.parallel with
    | none =>
      have hsteps : s.hasSteps = true := hs.content.resolve_right fun hne => hne hp
      rw [fate_of_single hd hp, onward, if_pos hsteps]
      exact Fate.le_ends_working (lt_waitEnd (hl.here hsteps)) hd
    | some stages =>
      have hb := branches_of_parallel hp
      have hlater {e : Option Nat} (he : ∀ d ∈ e, since < d) :
          ∀ f ∈ fateAll scriptOf vars since stages e, since < f.ends := fun f hf => by
        rw [fateAll_eq] at hf
        obtain ⟨b, hbm, rfl⟩ := List.mem_map.1 hf
        exact ih b (hb ▸ hbm) (hs.branch (hb ▸ hbm)) (hl.branch (hb ▸ hbm)) he
      rw [fate_of_group hd hp, grouped]
      have hcut : ∀ d ∈ Fate.cutoff s.failsFast deadline (fateAll scriptOf vars since stages deadline), since < d :=
        Fate.le_cutoff hd fun _ f hf _ => hlater hd f hf
      refine le_ends_settled (n := since + 1) ?_ hd
      obtain ⟨b, rest, hne⟩ := List.exists_cons_of_ne_nil fun e => hs.group (hp.trans (congrArg some e))
      subst hne
      exact ⟨_, List.mem_cons_self, hlater hcut _ List.mem_cons_self⟩

/-- A stage does not end before it starts. -/
theorem le_ends_fate (hs : s.Proper) (hl : s.Lasting scriptOf) :
    since ≤ (s.fate scriptOf vars since deadline).ends := by
  by_cases h : deadline.any (· ≤ since) = true
  · rw [fate_of_le h]
    exact Nat.le_refl since
  · refine Nat.le_of_lt (lt_ends_fate hs hl ?_)
    simpa [Option.any_eq_true] using h

end Stage

end StageTree

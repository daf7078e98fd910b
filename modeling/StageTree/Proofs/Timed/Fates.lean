import Mathlib.Data.List.Infix
import StageTree.Proofs.Timed.Overtaken

/-! A run in virtual time ends as its stage tree says. If the units take some time, and no two waits are over
at the same instant, the records, the results and the error of the run are those that follow by recursion on
the tree, whatever the order in which the stages that can go on are taken. -/

namespace StageTree

/-- The first cancellation from outside is the one that comes first. -/
theorem head?_cancelsInOrder (cancels : List (Nat × String)) :
    (cancelsInOrder cancels).head?.map Prod.fst = (cancels.map fun c => waitEnd 0 c.1).min? := by
  have hsorted : (cancelsInOrder cancels).Pairwise fun a b => a.1 ≤ b.1 := pairwise_mergeSort_key Prod.fst _
  have hperm : ((cancelsInOrder cancels).map Prod.fst).Perm (cancels.map fun c => waitEnd 0 c.1) := by
    have h := (List.mergeSort_perm (cancels.map fun c => (waitEnd 0 c.1, c.2))
      fun a b => decide (a.1 ≤ b.1)).map Prod.fst
    rwa [List.map_map] at h
  cases hc : cancelsInOrder cancels with
  | nil =>
    rw [hc, List.map_nil] at hperm
    rw [List.nil_perm.1 hperm]
    rfl
  | cons c rest =>
    rw [hc] at hsorted hperm
    refine (List.min?_eq_some_iff.2 ⟨hperm.mem_iff.1 (by simp), fun d hd => ?_⟩).symm
    obtain ⟨e, he, rfl⟩ := List.mem_map.1 (hperm.mem_iff.2 hd)
    rcases List.mem_cons.1 he with rfl | he
    · exact Nat.le_refl _
    · exact (List.pairwise_cons.1 hsorted).1 e he

/-- A run that tells of what became of stages: in its records, in any order, and in its results. -/
def Run.TellsOf (r : Run Journal Asleep) (fates : List Fate) : Prop :=
  (r.records.map StageRecord.row).Perm (fates.flatMap (Fate.rows [])) ∧
    r.results.entries = fates.flatMap Fate.entries

namespace Timed

/-- Whether two waits are ever over at the same instant can be checked move by move. -/
theorem untied_of_inits {W U : Type} {s : Setting W U} {t : Timed W U} {moves : List Move}
    (h : ∀ front ∈ moves.inits, ((t.moved s front).all fun t => decide (t.Untied s)) = true) :
    ∀ front, front <+: moves → ∀ t', t.moved s front = some t' → t'.Untied s := by
  intro front hf t' ht
  have hall := h front ((List.mem_inits front moves).2 hf)
  rw [ht, Option.all_some] at hall
  exact of_decide_eq_true hall

variable {scriptOf : String → Script} {vars : Bindings} {t : Timed Journal Asleep} {p : Pipeline} {w : Journal}

namespace Foreseen

variable {fates : List Fate} {deadline : Option Nat} {moves : List Move}

theorem present_eq_none (h : t.Foreseen scriptOf vars p fates deadline) (hover : t.run.verdict.isSome = true) :
    t.run.present = none := by
  by_contra hne
  rw [h.sound.run.going.2 (Option.isSome_iff_ne_none.2 hne)] at hover
  cases hover

/-- A run that is over tells of what was to be expected. -/
theorem tellsOf (h : t.Foreseen scriptOf vars p fates deadline) (hp : p.Proper)
    (hrun : (Run.begin p w).moved (.scripted scriptOf vars) moves = some t.run)
    (hover : t.run.verdict.isSome = true) : t.run.TellsOf fates := by
  have hpresent := h.present_eq_none hover
  rw [← h.fates]
  exact ⟨Run.rows_perm h.sound.run (Run.marked_of_moved hp hrun) hpresent,
    Run.entries_eq h.sound.run hp hpresent⟩

theorem error?_eq (h : t.Foreseen scriptOf vars p fates deadline) (hover : t.run.verdict.isSome = true)
    (hc : t.run.cancelled = none) : t.run.error? = p.failure? scriptOf vars := by
  rw [← h.reason hc, Run.reason, h.present_eq_none hover]

end Foreseen

/-- A run whose units follow scripts comes to its end, in whatever order its stages go on and cancellations come,
and then it has recorded of every stage what becomes of it by recursion on the stage tree, under the first
cancellation from outside; its results are those that follow, and so is its error if it was not cancelled. For
this each unit has to take some time, and no two waits may be over at the same instant. If the run is cancelled
at its first instant, but not before stages have gone on, these are cancelled then and there with their branches. -/
theorem ends_as_foreseen (hv : p.violation? = none)
    (hd : ∀ n ∈ p.preorder, n.2.hasSteps = true → 0 < (scriptOf n.2.name).delayMs)
    {cancels : List (Nat × String)} {moves : List Move}
    (hu : ∀ front, front <+: moves → ∀ t', (begin p w cancels).moved (.scripted scriptOf vars) front = some t' →
      t'.Untied (.scripted scriptOf vars))
    (h : (begin p w cancels).moved (.scripted scriptOf vars) moves = some t) :
    (t.run.verdict = none → ∃ move t', t.step (.scripted scriptOf vars) move = some t') ∧
      moves.length < Run.turnBound (.scripted scriptOf vars) p cancels ∧
      (t.run.verdict.isSome = true →
        let deadline := (cancels.map fun c => waitEnd 0 c.1).min?
        ((deadline = some 0 → begunIn moves = []) →
          t.run.TellsOf (p.fates scriptOf vars deadline) ∧
            (t.run.cancelled = none → t.run.error? = p.failure? scriptOf vars)) ∧
          (deadline = some 0 → t.run.TellsOf (p.overtaken (begunIn moves).contains))) := by
  have hp := Pipeline.proper_of_violation?_eq_none hv
  have hl : ∀ st ∈ p.stages, st.Lasting scriptOf := fun st hst => Pipeline.everywhere_of_preorder hd hst
  have hprompt := Script.prompt scriptOf
  have hsound : t.Sound p := moved_invariant (fun _ _ _ ht hs => ht.step hp hs) (sound_begin hp w cancels) h
  refine ⟨exists_step hsound hprompt, length_le_turnBound hp hprompt h, fun hover => ?_⟩
  rw [← head?_cancelsInOrder]
  by_cases hfirst : (cancelsInOrder cancels).head?.map Prod.fst = some 0
  · have ht := (opened_begin hp w hfirst).foreseen_of_over hp hl hu h hover
    simp only [Bool.false_or] at ht
    have htells := ht.tellsOf hp (run_moved h) hover
    refine ⟨fun hnone => ⟨?_, fun hc => ?_⟩, fun _ => htells⟩
    · rw [hfirst, ← Pipeline.overtaken_of_not_begun]
      simpa [hnone hfirst] using htells
    · have hsome := ht.later.resolve_left (by simp)
      simp [hc] at hsome
  · have ht := (foreseen_begin hp w rfl hfirst).moved hp hl hu h
    exact ⟨fun _ => ⟨ht.tellsOf hp (run_moved h) hover, ht.error?_eq hover⟩, fun he => absurd he hfirst⟩

theorem ends_as_foreseen_fork :
    ∃ t, (begin (.fork true) {} []).moved (.scripted Run.forkScript .empty) Run.forkMoves = some t ∧
      t.run.verdict.isSome = true ∧ t.run.TellsOf ((Pipeline.fork true).fates Run.forkScript .empty none) ∧
      t.run.error? = (Pipeline.fork true).failure? Run.forkScript .empty := by
  have hbegin : (begin (.fork true) {} [] : Timed Journal Asleep) = ⟨.begin (.fork true) {}, []⟩ := by
    simp [begin, cancelsInOrder]
  have hover : ((⟨.begin (.fork true) {}, []⟩ : Timed Journal Asleep).moved (.scripted Run.forkScript .empty)
      Run.forkMoves).map (fun t => (t.run.verdict.isSome, t.run.cancelled)) = some (true, none) := by
    decide +kernel
  have huntied : ∀ front ∈ Run.forkMoves.inits, (((⟨.begin (.fork true) {}, []⟩ : Timed Journal Asleep).moved
      (.scripted Run.forkScript .empty) front).all fun t =>
        decide (t.Untied (.scripted Run.forkScript .empty))) = true := by
    decide +kernel
  rw [← hbegin] at hover huntied
  obtain ⟨t, ht, e⟩ := Option.map_eq_some_iff.1 hover
  obtain ⟨hv, hc⟩ := Prod.mk.inj e
  obtain ⟨_, _, hend⟩ := ends_as_foreseen (by decide) (by decide) (untied_of_inits huntied) ht
  obtain ⟨htells, herror⟩ := (hend hv).1 (by simp)
  exact ⟨t, ht, hv, htells, herror hc⟩

/-- Both branches of the fork come to their own end, and the fork ends with the one that fails. -/
example : ((Pipeline.fork true).fates Run.forkScript .empty none).flatMap (Fate.rows []) =
    [(["fork"], .fail, .ofMillis 0, .ofMillis 2), (["fork", "a"], .fail, .ofMillis 0, .ofMillis 2),
      (["fork", "b"], .ok, .ofMillis 0, .ofMillis 1)] := by
  decide +kernel

/-- A cancellation at the instant at which the second branch ends comes too late for it. -/
example : ((Pipeline.fork true).fates Run.forkScript .empty (some 1)).flatMap (Fate.rows []) =
    [(["fork"], .cancel, .ofMillis 0, .ofMillis 1), (["fork", "a"], .cancel, .ofMillis 0, .ofMillis 1),
      (["fork", "b"], .ok, .ofMillis 0, .ofMillis 1)] := by
  decide +kernel

/-- A fork that has gone on before the run is cancelled is cancelled with its branches. -/
example : ((Pipeline.fork true).overtaken [[]].contains).flatMap (Fate.rows []) =
    [(["fork"], .cancel, .ofMillis 0, .ofMillis 0), (["fork", "a"], .cancel, .ofMillis 0, .ofMillis 0),
      (["fork", "b"], .cancel, .ofMillis 0, .ofMillis 0)] := by
  decide +kernel

def longPipeline : Pipeline := ⟨.none, [{ name := "a", steps := [.single "sh" "a"] }]⟩

/-- A unit that is meant to take more than three hundred years. -/
def longScript (_ : String) : Script := { delayMs := 10000000000000 }

def longMoves : List Move := [.stage [] .start 0, .tick 946080000000, .stage [] .look 0]

/-- The run of a fork that is cancelled at its first instant, after the fork has gone on. -/
def lateMoves : List Move :=
  [.stage [] .start 0, .cancel "stop", .stage [0] .start 0, .stage [1] .start 0, .stage [] (.join 0) 0,
    .stage [] (.join 1) 0]

/-- A unit that is meant to take longer than the longest wait is over after the longest wait, though nothing else is
waited for; and a fork that goes on before the cancellation of the first instant comes is not refused alone. -/
theorem long_unit_and_late_cancellation :
    (longPipeline.violation? = none ∧
      (∀ n ∈ longPipeline.preorder, n.2.hasSteps = true → 0 < (longScript n.2.name).delayMs) ∧
      (∀ front, front <+: longMoves → ∀ t', (begin longPipeline {} []).moved (.scripted longScript .empty) front =
        some t' → t'.Untied (.scripted longScript .empty)) ∧
      ∃ t, (begin longPipeline {} []).moved (.scripted longScript .empty) longMoves = some t ∧
        t.run.verdict.isSome = true ∧
        t.run.records.map StageRecord.row = [(["a"], .ok, .ofMillis 0, .ofMillis 946080000000)] ∧
        t.run.records.map StageRecord.row ≠
          [(["a"], .ok, .ofMillis 0, .ofMillis (0 + (longScript "a").delayMs))]) ∧
    (Pipeline.fork true).violation? = none ∧
      (∀ n ∈ (Pipeline.fork true).preorder, n.2.hasSteps = true → 0 < (Run.forkScript n.2.name).delayMs) ∧
      (∀ front, front <+: lateMoves → ∀ t', (begin (.fork true) {} [(0, "stop")]).moved
        (.scripted Run.forkScript .empty) front = some t' → t'.Untied (.scripted Run.forkScript .empty)) ∧
      ∃ t, (begin (.fork true) {} [(0, "stop")]).moved (.scripted Run.forkScript .empty) lateMoves = some t ∧
        t.run.verdict.isSome = true ∧
        (t.run.records.map StageRecord.row).length = 3 ∧
        ((Pipeline.fork true).fates Run.forkScript .empty (some 0)).flatMap (Fate.rows []) =
          [(["fork"], .cancel, .ofMillis 0, .ofMillis 0)] := by
  constructor
  · have hbegin : (begin longPipeline {} [] : Timed Journal Asleep) = ⟨.begin longPipeline {}, []⟩ := by
      simp [begin, cancelsInOrder]
    have hrun : ((⟨.begin longPipeline {}, []⟩ : Timed Journal Asleep).moved (.scripted longScript .empty)
        longMoves).map (fun t => (t.run.verdict.isSome, t.run.records.map StageRecord.row)) =
        some (true, [(["a"], .ok, .ofMillis 0, .ofMillis 946080000000)]) := by
      decide +kernel
    have huntied : ∀ front ∈ longMoves.inits, (((⟨.begin longPipeline {}, []⟩ : Timed Journal Asleep).moved
        (.scripted longScript .empty) front).all fun t =>
          decide (t.Untied (.scripted longScript .empty))) = true := by
      decide +kernel
    rw [← hbegin] at hrun huntied
    obtain ⟨t, ht, e⟩ := Option.map_eq_some_iff.1 hrun
    obtain ⟨hv, hrows⟩ := Prod.mk.inj e
    exact ⟨by decide, by decide, untied_of_inits huntied, t, ht, hv, hrows, by rw [hrows]; decide⟩
  · have hbegin : (begin (.fork true) {} [(0, "stop")] : Timed Journal Asleep) =
        ⟨.begin (.fork true) {}, [(0, "stop")]⟩ := by
      simp [begin, cancelsInOrder, waitEnd]
    have hrun : ((⟨.begin (.fork true) {}, [(0, "stop")]⟩ : Timed Journal Asleep).moved
        (.scripted Run.forkScript .empty) lateMoves).map (fun t =>
          (t.run.verdict.isSome, (t.run.records.map StageRecord.row).length)) = some (true, 3) := by
      decide +kernel
    have huntied : ∀ front ∈ lateMoves.inits, (((⟨.begin (.fork true) {}, [(0, "stop")]⟩ :
        Timed Journal Asleep).moved (.scripted Run.forkScript .empty) front).all fun t =>
          decide (t.Untied (.scripted Run.forkScript .empty))) = true := by
      decide +kernel
    rw [← hbegin] at hrun huntied
    obtain ⟨t, ht, e⟩ := Option.map_eq_some_iff.1 hrun
    obtain ⟨hv, hlength⟩ := Prod.mk.inj e
    exact ⟨by decide, by decide, untied_of_inits huntied, t, ht, hv, hlength, by decide +kernel⟩

end Timed

end StageTree

import StageTree.Proofs.Activity.Doomed
import StageTree.Proofs.Run.Blame
import StageTree.Proofs.Run.InFlight
import StageTree.Proofs.Timed.Length

/-! Runs in virtual time in which every group fails fast, and which nobody cancels from outside. From the
first failure of a unit on time stands still until the run is over, and its error is that of a unit which
failed at this instant. -/

namespace StageTree

variable {W U : Type} {s : Setting W U} {p : Pipeline} {w : W}

def Run.failures (r : Run W U) : List (Nat × RunError) :=
  r.trace.filterMap fun e => e.failure?.map fun error => (e.ms, error)

theorem Run.mem_failures {r : Run W U} {ms : Nat} {error : RunError} :
    (ms, error) ∈ r.failures ↔ ∃ e ∈ r.trace, e.ms = ms ∧ e.failure? = some error := by
  simp only [failures, List.mem_filterMap, Option.map_eq_some_iff, Prod.mk.injEq]
  constructor
  · rintro ⟨e, he, _, hf, rfl, rfl⟩
    exact ⟨e, he, rfl, hf⟩
  · rintro ⟨e, he, rfl, hf⟩
    exact ⟨e, he, error, hf, rfl, rfl⟩

/-- A run that ended with a failure has it from a unit. -/
theorem Run.Sound.exists_failure {r : Run W U} (h : r.Sound p) (hm : r.Marked) {error : RunError}
    (he : r.error? = some error) (hf : error.isFailure = true) : ∃ ms, (ms, error) ∈ r.failures := by
  have hv : r.verdict = some (some error) := by simpa [Run.error?, Option.join_eq_some_iff] using he
  obtain ⟨front, a, hpast, ha⟩ := h.verdict error hv
  have hmem : a ∈ r.past ++ r.present.toList := by simp [hpast]
  obtain ⟨q, ms, hmark⟩ := (h.sound_of_mem hmem).exists_failure ha hf [a.stage.name]
  have hmarks : Mark.failure q ms error ∈ r.marks := by
    rw [marks_eq]
    exact List.mem_flatMap.2 ⟨a, hmem, hmark⟩
  obtain ⟨e, he, hem⟩ := List.mem_filterMap.1 (hm.mem_iff.2 hmarks)
  obtain ⟨_, _, hfail⟩ := Entry.mark?_eq_failure.1 hem
  exact ⟨e.ms, mem_failures.2 ⟨e, he, rfl, hfail⟩⟩

namespace Timed

variable {t t' : Timed W U} {move : Move}

/-- A run that nobody cancels and whose time stands still from the first failure of a unit on. -/
structure Hurried (p : Pipeline) (t : Timed W U) : Prop where
  sound : t.Sound p
  blamed : t.run.Blamed
  uncancelled : t.cancels = []
  trees : ∀ a, t.run.present = some a → a.Closed ∧ a.Alert
  past : ∀ e ∈ t.run.trace, e.ms ≤ t.run.now
  failures : ∀ f ∈ t.run.failures, f.1 = t.run.now ∧ (∀ a, t.run.present = some a → a.Doomed) ∧
    t.run.verdict ≠ some none

theorem hurried_begin (hp : p.Proper) (w : W) : (begin p w [] : Timed W U).Hurried p where
  sound := sound_begin hp w []
  blamed := Run.blamed_begin p w
  uncancelled := by simp [begin, cancelsInOrder]
  trees a ha := by
    obtain ⟨st, future, _, e⟩ := Run.exists_begin_eq (U := U) hp w
    rw [begin, e] at ha
    obtain rfl := Option.some.inj ha
    exact ⟨Activity.closed_ofStage st, Activity.alert_ofStage st⟩
  past e he := by
    obtain ⟨st, future, _, e'⟩ := Run.exists_begin_eq (U := U) hp w
    rw [begin, e'] at he
    rw [List.mem_singleton.1 he]
    exact Nat.zero_le _
  failures f hf := by
    obtain ⟨st, future, _, e⟩ := Run.exists_begin_eq (U := U) hp w
    rw [begin, e] at hf
    simp [Run.failures, Entry.failure?] at hf

namespace Hurried

/-- After a step of a stage either the tree goes down, or no unit has failed so far. -/
theorem doomed_or (h : t.Hurried p) (hr : s.runner.Honest) {a : Activity U} {q : Played W U} {x : Act}
    {draw : Nat} (ha : t.run.present = some a)
    (hq : Activity.Stepped s x a (t.run.moment a draw) t.run.world q) :
    q.activity.Doomed ∨ ∀ e ∈ t.run.trace ++ q.trace, e.failure? = none := by
  have hsound := (h.sound.run.present a ha).1
  by_cases hnone : ∀ e ∈ t.run.trace ++ q.trace, e.failure? = none
  · exact .inr hnone
  refine .inl ?_
  obtain ⟨e, hnone⟩ := not_forall.1 hnone
  obtain ⟨he, hfail⟩ := Classical.not_imp.1 hnone
  obtain ⟨error, herror⟩ := Option.ne_none_iff_exists'.1 hfail
  rcases List.mem_append.1 he with he | he
  · have hd := (h.failures _ (Run.mem_failures.2 ⟨e, he, rfl, herror⟩)).2.1 a ha
    exact hq.doomed hr h.blamed.live hsound (h.blamed.trees a (by simp [ha])) hd
  · exact hq.doomed_of_failure hsound he herror

theorem take (h : t.Hurried p) (hp : p.Proper) (hr : s.runner.Honest) {a : Activity U} {q : Played W U}
    {position : List Nat} {x : Act} {draw : Nat} (ha : t.run.present = some a)
    (hstep : a.step s x position (t.run.moment a draw) t.run.world = some q) :
    (⟨t.run.take q, t.cancels⟩ : Timed W U).Hurried p := by
  have hq := h.sound.run.stepped ha hstep
  have hmoved : Run.Moved s t.run (.stage position x draw) (t.run.take q) := .stage ha hstep
  obtain ⟨hclosed, halert⟩ := h.trees a ha
  have hsound := (h.sound.run.present a ha).1
  have hv := h.sound.run.going.2 (by simp [ha])
  have hms : ∀ e ∈ t.run.trace ++ q.trace, e.ms ≤ t.run.now := fun e he => by
    rcases List.mem_append.1 he with he | he
    · exact h.past e he
    · exact Nat.le_of_eq (hq.ms_eq he)
  have hfail : ∀ e ∈ t.run.trace ++ q.trace, ∀ error, e.failure? = some error →
      e.ms = t.run.now ∧ q.activity.Doomed := fun e he error herror => by
    refine ⟨?_, (h.doomed_or hr ha hq).resolve_right fun hnone => ?_⟩
    · rcases List.mem_append.1 he with he | he
      · exact (h.failures _ (Run.mem_failures.2 ⟨e, he, rfl, herror⟩)).1
      · exact hq.ms_eq he
    · rw [hnone e he] at herror
      cases herror
  -- a tree that goes down does not end without an error
  have hdown {ms : Nat} {lines : Option (List String)} (he : q.activity.phase = .ended ms lines none) :
      ¬ q.activity.Doomed := fun hd => by
    have := hd.hasFailed (Activity.hasEnded_of_phase he)
    simp [Activity.hasFailed, Activity.error?_of_phase he] at this
  have hsound' := h.sound.run.take hp ha hq
  have hblamed := h.blamed.moved h.sound.run hr (fun reason => by simp) hmoved
  have htaking := Run.taking_take t.run q
  generalize t.run.take q = r' at hsound' hblamed htaking ⊢
  refine ⟨⟨hsound', h.sound.sorted⟩, hblamed, h.uncancelled, ?_, ?_, ?_⟩
  · intro b hb
    cases htaking with
    | on hn =>
      obtain rfl := Option.some.inj hb
      exact ⟨hq.closed hsound hclosed, hq.alert halert⟩
    | next he hf =>
      obtain rfl := Option.some.inj hb
      exact ⟨Activity.closed_ofStage _, Activity.alert_ofStage _⟩
    | completed he hf | failed he => cases hb
  · intro e he
    cases htaking with
    | on hn | next he' hf => exact hms e he
    | completed he' hf | failed he' =>
      rcases List.mem_append.1 he with he | he
      · exact hms e he
      · rw [List.mem_singleton.1 he]
        exact Nat.le_refl t.run.now
  · intro f hf
    obtain ⟨e, he, hems, herror⟩ := Run.mem_failures.1 hf
    rw [← hems]
    cases htaking with
    | on hn =>
      obtain ⟨hnow, hd⟩ := hfail e he f.2 herror
      exact ⟨hnow, fun b hb => Option.some.inj hb ▸ hd, by simp [hv]⟩
    | next he' hf => exact absurd (hfail e he f.2 herror).2 (hdown he')
    | completed he' hf =>
      rcases List.mem_append.1 he with he | he
      · exact absurd (hfail e he f.2 herror).2 (hdown he')
      · simp [List.mem_singleton.1 he, Entry.failure?, Run.entry] at herror
    | failed he' =>
      rcases List.mem_append.1 he with he | he
      · exact ⟨(hfail e he f.2 herror).1, by simp, by simp⟩
      · simp [List.mem_singleton.1 he, Entry.failure?, Run.entry] at herror

theorem step (h : t.Hurried p) (hp : p.Proper) (hb : ∀ st ∈ p.stages, st.Brittle) (hr : s.runner.Honest)
    (hs : t.step s move = some t') : t'.Hurried p := by
  cases (moved_of_step hs).2 with
  | stage ha hx hq => exact h.take hp hr ha hq
  | cancel hc hms =>
    rw [h.uncancelled] at hc
    cases hc
  | @tick ms hbusy hc hmin hlt =>
    -- time passes only as long as no unit has failed
    have hnone : t.run.failures = [] := by
      refine List.eq_nil_iff_forall_not_mem.2 fun f hf => hbusy ?_
      obtain ⟨_, hd, _⟩ := h.failures f hf
      obtain ⟨a, ha⟩ := Option.isSome_iff_exists.1 (h.sound.run.going.1 (moved_of_step hs).1)
      obtain ⟨hsound, hn⟩ := h.sound.run.present a ha
      have hst : a.stage ∈ p.stages := by simp [← h.sound.run.stages, ha]
      obtain ⟨position, x, hx⟩ : ∃ position x,
          Activity.Able s.runner.due t.run.now t.run.cancelled a position x :=
        (hd a ha).able hsound (h.trees a ha).1 (h.trees a ha).2 (hb _ hst) hn
      exact ⟨a, position, x, ha, hx⟩
    exact
      { sound := h.sound.step hp hs
        blamed := ⟨h.blamed.live, h.blamed.trees⟩
        uncancelled := h.uncancelled
        trees := h.trees
        past := fun e he => Nat.le_trans (h.past e he) (Nat.le_of_lt hlt)
        failures := fun f hf => by
          have hf : f ∈ t.run.failures := hf
          rw [hnone] at hf
          cases hf }

end Hurried

theorem hurried_of_moved (hp : p.Proper) (hb : ∀ st ∈ p.stages, st.Brittle) (hr : s.runner.Honest)
    {moves : List Move} (h : (begin p w []).moved s moves = some t) : t.Hurried p :=
  moved_invariant (P := Hurried p) (fun _ _ _ ht hs => ht.step hp hb hr hs) (hurried_begin hp w) h

/-- Where every group fails fast and nobody cancels the run, the first failure of a unit ends it at once:
no time passes after it, so that nothing starts later, and once the run is over, which it is after finitely
many moves, every unit that was submitted has returned, and the error is that of a unit which failed at
this instant. -/
theorem ends_with_first_failure (hv : p.violation? = none)
    (hff : ∀ n ∈ p.preorder, n.2.parallel.isSome = true → n.2.failsFast = true) (hr : s.runner.OnTime)
    {moves : List Move} (h : (begin p w []).moved s moves = some t) :
    (t.run.verdict = none → ∃ move t', t.step s move = some t') ∧
      moves.length < Run.turnBound s p [] ∧
      ∀ first, (t.run.failures.map Prod.fst).min? = some first →
        t.run.now = first ∧ (∀ e ∈ t.run.trace, e.ms ≤ first) ∧
        (t.run.verdict.isSome = true → t.run.returned.Perm t.run.submitted ∧
          ∃ error, (first, error) ∈ t.run.failures ∧ t.run.error? = some error) := by
  have hp := Pipeline.proper_of_violation?_eq_none hv
  have hb : ∀ st ∈ p.stages, st.Brittle := fun st hst => Pipeline.everywhere_of_preorder hff hst
  obtain ⟨rank, hrank⟩ := hr.prompt
  have ht := hurried_of_moved hp hb hr.provided.honest h
  have hrun := run_moved h
  refine ⟨exists_step ht.sound hrank, length_le_turnBound hp hrank h, fun first hfirst => ?_⟩
  obtain ⟨f, hf, rfl⟩ := List.mem_map.1 (List.min?_mem hfirst)
  obtain ⟨hnow, _, hfailed⟩ := ht.failures f hf
  refine ⟨hnow.symm, fun e he => hnow ▸ ht.past e he, fun hover => ⟨?_, ?_⟩⟩
  · have hbalanced := Run.balanced_of_moved hp hrun
    rwa [Run.Balanced, ht.sound.run.inFlight_eq_nil hover, List.nil_append] at hbalanced
  · obtain ⟨verdict, hverdict⟩ := Option.isSome_iff_exists.1 hover
    cases verdict with
    | none => exact absurd hverdict hfailed
    | some error =>
      have herror : t.run.error? = some error := by rw [Run.error?, hverdict]; rfl
      obtain ⟨ms, hm⟩ := ht.sound.run.exists_failure (Run.marked_of_moved hp hrun) herror
        (ht.blamed.isFailure ht.sound.run herror)
      have hms : ms = f.1 := (ht.failures _ hm).1.trans hnow.symm
      exact ⟨error, hms ▸ hm, herror⟩

theorem ends_with_first_failure_fork :
    ∃ t, (begin (.fork true) {} []).moved Run.forkSetting Run.forkMoves = some t ∧
      t.run.verdict.isSome = true ∧ (t.run.failures.map Prod.fst).min? = some 2 ∧
      t.run.now = 2 ∧ (∀ e ∈ t.run.trace, e.ms ≤ 2) ∧ t.run.returned.Perm t.run.submitted ∧
      ∃ error, (2, error) ∈ t.run.failures ∧ t.run.error? = some error := by
  have hrun : ((⟨.begin (.fork true) {}, []⟩ : Timed Journal Asleep).moved Run.forkSetting Run.forkMoves).map
      (fun t => (t.run.verdict.isSome, (t.run.failures.map Prod.fst).min?)) = some (true, some 2) := by
    decide +kernel
  have hbegin : (begin (.fork true) {} [] : Timed Journal Asleep) = ⟨.begin (.fork true) {}, []⟩ := by
    simp [begin, cancelsInOrder]
  rw [← hbegin] at hrun
  obtain ⟨t, ht, e⟩ := Option.map_eq_some_iff.1 hrun
  obtain ⟨hover, hfirst⟩ := Prod.mk.inj e
  obtain ⟨_, _, hfacts⟩ := ends_with_first_failure (by decide) (by decide)
    (Runner.OnTime.scripted Run.forkScript) ht
  obtain ⟨hnow, hms, hend⟩ := hfacts 2 hfirst
  exact ⟨t, ht, hover, hfirst, hnow, hms, hend hover⟩

end Timed

end StageTree

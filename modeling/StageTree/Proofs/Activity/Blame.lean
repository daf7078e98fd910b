import StageTree.Proofs.Activity.Scopes
import StageTree.Proofs.Unit.Laws

/-! Who is to blame for a cancellation. In a tree whose root is not cancelled from outside, a group
whose scope is cancelled fails fast and has joined a branch that failed. So a stage that was cancelled lies
beside a branch that failed, and no cancellation gets to the root. -/

namespace StageTree.Activity

variable {W U : Type}

/-- A branch of a cancelled group that lies beside one that failed. -/
def Excused (a : Activity U) (i : Nat) : Prop :=
  a.isScopeCancelled = true ∧ ∃ j c, j ≠ i ∧ a.branches[j]? = some c ∧ c.hasFailed = true

/-- A tree in which every cancellation has someone to blame: the stage itself is not cancelled, its group
is only after it joined a failure, and each branch is such a tree or lies beside one that failed. -/
inductive Blamed : Activity U → Prop
  | mk {a : Activity U} (here : a.isCancelled = false)
      (scope : ∀ f, a.fan = some f → f.scope.isSome = true → a.stage.failsFast = true ∧
        ∃ r ∈ f.join.reports, r.error.any RunError.isFailure = true)
      (branches : ∀ i b, a.branches[i]? = some b → ¬ a.Excused i → Blamed b) : Blamed a

namespace Blamed

variable {a : Activity U}

theorem here : Blamed a → a.isCancelled = false
  | mk h _ _ => h

theorem scope : Blamed a → ∀ f, a.fan = some f → f.scope.isSome = true → a.stage.failsFast = true ∧
    ∃ r ∈ f.join.reports, r.error.any RunError.isFailure = true
  | mk _ h _ => h

theorem branches : Blamed a → ∀ i b, a.branches[i]? = some b → ¬ a.Excused i → Blamed b
  | mk _ _ h => h

end Blamed

theorem blamed_ofStage (s : Stage) : (ofStage s : Activity U).Blamed :=
  .mk rfl (by simp [ofStage]) (by simp [ofStage])

/-- No branch of a live group is excused. -/
theorem not_excused {a : Activity U} {f : Fan} (hf : a.fan = some f) (hs : f.scope = none) (i : Nat) :
    ¬ a.Excused i := fun hx => by
  have hcancelled := hx.1
  simp [isScopeCancelled, hf, hs] at hcancelled

/-- A stage whose scope is live is not cancelled when it goes on to its unit. -/
theorem Taken.isCancelled {s : Setting W U} {m : Moment} (hr : s.runner.Honest) (hm : m.scope = none)
    {since : Nat} {t : Turn W U} {phase : Phase U} {w' : W} {trace : List Entry}
    (h : Taken m since t phase w' trace)
    (ht : (∃ unit w, t = s.runner.start unit m.look w) ∨ ∃ u w, t = s.runner.look u m.look w)
    {a : Activity U} : isCancelled { a with phase := phase } = false := by
  cases h with
  | waits w notes u => rfl
  | returns w notes r =>
    cases r with
    | ok lines => rfl
    | error e =>
      by_contra hc
      have hc : e.isCancellation = true := by
        simpa [Activity.isCancelled, error?, UnitResult.error?] using hc
      have hlook : m.look.cancelled.isSome = true := by
        rcases ht with ⟨unit, w, ht⟩ | ⟨u, w, ht⟩
        · exact hr.start unit m.look w e (by rw [← ht]) hc
        · exact hr.look u m.look w e (by rw [← ht]) hc
      simp [Moment.look, hm] at hlook

theorem Onward.isCancelled {s : Setting W U} {m : Moment} (hr : s.runner.Honest) (hm : m.scope = none)
    {stage : Stage} {since : Nat} {w : W} {phase : Phase U} {w' : W} {trace : List Entry}
    (h : Onward s m stage since w phase w' trace) {a : Activity U} :
    Activity.isCancelled { a with phase := phase } = false := by
  cases h with
  | idle h => rfl
  | unit h ht => exact ht.isCancelled hr hm (.inl ⟨_, _, rfl⟩)

/-- A branch of a group beside one that failed is excused once the group is cancelled. -/
theorem excused_of_report {a : Activity U} (ha : a.Coherent) {f : Fan} (hf : a.fan = some f)
    (hs : f.scope.isSome = true) (hr : ∃ r ∈ f.join.reports, r.error.any RunError.isFailure = true) {i : Nat}
    {b : Activity U} (hb : a.branches[i]? = some b) (hn : b.hasEnded = false) : a.Excused i := by
  obtain ⟨r, hr, hfail⟩ := hr
  obtain ⟨c, hc, he, e⟩ := (ha.faithful f hf).report r hr
  refine ⟨by simp [isScopeCancelled, hf, hs], r.index, c, ?_, hc, ?_⟩
  · intro e'
    rw [e', hb] at hc
    rw [Option.some.inj hc, he] at hn
    cases hn
  · rw [e] at hfail
    exact hfail

section Steps

variable {s : Setting W U} {m : Moment} {w : W} {a : Activity U} {x : Act} {p : Played W U}

/-- The error of a group is a failure if every cancellation below has someone to blame. -/
theorem Blamed.isFailure_of_error (h : a.Blamed) {f : Fan} (hf : a.fan = some f)
    (hfaith : f.Faithful a.branches) {e : RunError} (he : f.join.error = some e) : e.isFailure = true := by
  rw [hfaith.error_eq] at he
  obtain ⟨r, hr, hre⟩ := List.mem_map.1 (Join.mem_of_foldl_firstError he)
  obtain ⟨b, hb, hbe, hrb⟩ := hfaith.report r hr
  have herror : b.error? = some e := by
    rw [hrb] at hre
    exact hre
  by_cases hx : a.Excused r.index
  · have hs : f.scope.isSome = true := by simpa [isScopeCancelled, hf] using hx.1
    obtain ⟨_, r', hr', hfail⟩ := h.scope f hf hs
    obtain ⟨e', he', hfe'⟩ := (Option.any_eq_true _ _).1 hfail
    exact Join.isFailure_of_foldl_firstError he (List.mem_map.2 ⟨r', hr', he'⟩) hfe'
  · have hc := (h.branches r.index b hb hx).here
    simpa [isCancelled, herror, RunError.isFailure] using hc

/-- What joining a branch leaves of a tree in which every cancellation has someone to blame. -/
theorem Blamed.joining (h : a.Blamed) {i ms : Nat} {f : Fan} {b : Activity U}
    {lines : Option (List String)} {error : Option RunError} {phase : Phase U} (hf : a.fan = some f)
    (hb : a.branches[i]? = some b) (he : b.phase = .ended ms lines error)
    (hhere : isCancelled { a with phase := phase } = false) :
    Blamed { a with
      phase := phase
      fan := some (f.joining a.stage.failsFast (b.report i error))
      branches := a.joiningBranches f (b.report i error) } := by
  by_cases hc : Join.cancels a.stage.failsFast f.scope (b.report i error) = true
  · obtain ⟨hff, hscope, hfail⟩ := Join.cancels_iff.1 hc
    have hbi := getElem?_joiningBranches f (b.report i error) hb (hasEnded_of_phase he)
    refine .mk hhere (fun g hg _ => ?_) fun k c hk hx => ?_
    · obtain rfl := Option.some.inj hg
      exact ⟨hff, b.report i error, by simp [Fan.joining, Join.add], hfail⟩
    · by_cases hki : k = i
      · subst hki
        obtain rfl := Option.some.inj (hbi.symm.trans hk)
        exact h.branches k b hb (not_excused hf hscope k)
      · -- every other branch lies beside the one that is joined
        refine absurd ⟨?_, i, b, Ne.symm hki, hbi, ?_⟩ hx
        · simp [isScopeCancelled, Fan.joining, hc]
        · rw [hasFailed, error?_of_phase he]
          exact hfail
  · have hscope : (f.joining a.stage.failsFast (b.report i error)).scope = f.scope := by
      simp [Fan.joining, hc]
    refine .mk hhere (fun g hg hs => ?_) fun k c hk hx => ?_
    · obtain rfl := Option.some.inj hg
      rw [hscope] at hs
      obtain ⟨hff, r, hr, hfail⟩ := h.scope f hf hs
      exact ⟨hff, r, by simp [Fan.joining, Join.add, hr], hfail⟩
    · simp only [joiningBranches, hc, Bool.false_eq_true, if_false] at hk hx
      refine h.branches k c hk fun hx' => hx ⟨?_, hx'.2⟩
      simpa [isScopeCancelled, hscope, hf] using hx'.1

theorem Acted.blamed (h : Acted s m w a x p) (hr : s.runner.Honest) (hm : m.scope = none)
    (ha : a.Coherent) (hb : a.Blamed) : p.activity.Blamed := by
  cases h with
  | refused hp hs => simp [hm] at hs
  | fanned hp hs hg hne =>
    refine .mk rfl (fun f hf hscope => ?_) fun i b hbi _ => ?_
    · obtain rfl := Option.some.inj hf
      simp at hscope
    · obtain ⟨st, _, rfl⟩ := List.mem_map.1 (List.mem_of_getElem? hbi)
      exact blamed_ofStage st
  | begun hp hs hg ho =>
    exact .mk (ho.isCancelled hr hm (a := { a with since := m.now })) hb.scope hb.branches
  | looked hp ht => exact .mk (ht.isCancelled hr hm (.inr ⟨_, _, rfl⟩)) hb.scope hb.branches
  | joined hp hf hbi he hj hl => simpa using hb.joining hf hbi he hb.here
  | @failed i ms f b lines error e hp hf hbi he hj hl hr' =>
    have hb' := hb.joining hf hbi he hb.here
    have hfaith := ha.faithful_joining hf hbi he hj
    have hfail := hb'.isFailure_of_error rfl
      (hfaith.of_ended rfl fun j c hc => getElem?_joiningBranches f _ hc) hr'
    refine .mk ?_ hb'.scope hb'.branches
    simpa [isCancelled, error?, RunError.isFailure] using hfail
  | gathered hp hf hbi he hj hl hr' ho => exact hb.joining hf hbi he (ho.isCancelled hr hm)

/-- A step under a live scope keeps someone to blame for every cancellation. -/
theorem Stepped.blamed (h : Stepped s x a m w p) (hr : s.runner.Honest) (hm : m.scope = none)
    (ha : a.Sound) (hb : a.Blamed) : p.activity.Blamed := by
  induction h with
  | here h => exact h.blamed hr hm ha.here hb
  | @branch a b m w p f i hp hf hbi h ih =>
    have hn := h.not_hasEnded
    refine .mk hb.here hb.scope fun k c hk hx => ?_
    -- the branch that goes on is none of those that failed
    have hexcused (j : Nat) (hj : a.Excused j) : Excused { a with branches := a.branches.set i p.activity } j := by
      obtain ⟨hs, l, d, hlj, hd, hfail⟩ := hj
      exact ⟨hs, l, d, hlj, getElem?_set_of_hasEnded hbi hn hd (hasEnded_of_hasFailed hfail), hfail⟩
    rcases getElem?_set_cases hk with ⟨rfl, rfl⟩ | ⟨_, hk⟩
    · cases hs : f.scope with
      | none => exact ih hs (ha.branch (List.mem_of_getElem? hbi)) (hb.branches k b hbi (not_excused hf hs k))
      | some reason =>
        have hs' : f.scope.isSome = true := by simp [hs]
        exact absurd (hexcused k (excused_of_report ha.here hf hs' (hb.scope f hf hs').2 hbi hn)) hx
    · exact hb.branches k c hk fun hx' => hx (hexcused k hx')

end Steps

/-- A stage that was cancelled lies in a branch of a group that fails fast, beside one that failed. -/
theorem Blamed.beside {a n : Activity U} (h : a.Blamed) (ha : a.Sound) {path : List String}
    (hn : a.at? path = some n) (hc : n.isCancelled = true) :
    ∃ above name rest g b c, path = above ++ name :: rest ∧ a.at? above = some g ∧
      g.stage.failsFast = true ∧ b ∈ g.branches ∧ b.stage.name = name ∧ c ∈ g.branches ∧
      c.stage.name ≠ name ∧ c.hasFailed = true := by
  induction ha generalizing path with
  | @mk a here below ih =>
    cases path with
    | nil =>
      obtain rfl := Option.some.inj hn
      rw [h.here] at hc
      cases hc
    | cons name path =>
      rw [at?, Option.bind_eq_some_iff] at hn
      obtain ⟨b, hb, hn⟩ := hn
      have hstep (path : List String) : a.at? (name :: path) = b.at? path := by
        rw [at?, hb, Option.bind_some]
      obtain ⟨hm, rfl⟩ := (named?_eq_some here.names).1 hb
      obtain ⟨i, hi⟩ := List.mem_iff_getElem?.1 hm
      by_cases hx : a.Excused i
      · obtain ⟨hs, j, c, hji, hj, hfail⟩ := hx
        obtain ⟨f, hf, hs⟩ := (Option.any_eq_true _ _).1 hs
        refine ⟨[], b.stage.name, path, a, b, c, rfl, rfl, (h.scope f hf hs).1, hm, rfl,
          List.mem_of_getElem? hj, fun e => ?_, hfail⟩
        have hnodup := here.names
        have hbn : (a.branches.map (·.stage.name))[i]? = some b.stage.name := by simp [hi]
        have hcn : (a.branches.map (·.stage.name))[j]? = some b.stage.name := by simp [hj, e]
        exact hji ((List.getElem?_inj (List.getElem?_eq_some_iff.1 hcn).1 hnodup).1 (hcn.trans hbn.symm))
      · obtain ⟨above, name, rest, g, b', c, rfl, hg, hrest⟩ := ih b hm (h.branches i b hi hx) hn
        exact ⟨b.stage.name :: above, name, rest, g, b', c, rfl, (hstep above).trans hg, hrest⟩

end StageTree.Activity

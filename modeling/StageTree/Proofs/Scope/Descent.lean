import StageTree.Proofs.Scope.Lineage

/-! How far down a cancellation comes. A scope holds no claim on the one that it was derived from, nor on those
derived from it: the way from a scope to one below is cut for good as soon as nobody holds a scope in between. -/

namespace StageTree.Forest

open Relation (ReflTransGen TransGen)

variable {f : Forest} {ops : List ScopeOp} {i s : Nat}

/-- Every scope on the way down from one scope to another, both of them included, is still held. -/
def HeldBetween (ops : List ScopeOp) (f : Forest) (s i : Nat) : Prop :=
  ∀ m, ReflTransGen (Derived ops) s m → ReflTransGen (Derived ops) m i → f.isLive m = true

/-- There is one way down from a scope to another, so it is held all along if some way is. -/
theorem Traced.heldBetween_iff (h : Traced ops f) (hs : f.isLive s = true) (hd : ReflTransGen (Derived ops) s i) :
    HeldBetween ops f s i ↔ ReflTransGen (fun p c => Derived ops p c ∧ f.isLive c = true) s i := by
  constructor
  · intro hheld
    induction hd with
    | refl => exact .refl
    | @tail p i hsp hpi ih =>
      have hp : HeldBetween ops f s p := fun m hsm hmp => hheld m hsm (hmp.tail hpi)
      exact (ih hp).tail ⟨hpi, hheld i (hsp.tail hpi) .refl⟩
  · intro hway
    clear hd
    induction hway with
    | refl =>
      intro m hsm hms
      have hle := h.le_of_reflTransGen hsm
      have hge := h.le_of_reflTransGen hms
      obtain rfl : m = s := by omega
      exact hs
    | @tail p i _ hpi ih =>
      intro m hsm hmi
      rcases Relation.ReflTransGen.cases_tail hmi with rfl | ⟨p', hmp, hpi'⟩
      · exact hpi.2
      · -- a scope was derived from no more than one
        obtain rfl := h.unique p' p i hpi' hpi.1
        exact ih m hsm hmp

/-- What a cancellation of one scope leaves cancelled: what was, and what it comes to. -/
theorem isCancelled_cancelScope (h : f.Sound) (hs : s < f.scopes.length) (reason : String) :
    (f.cancelScope s reason).isCancelled i = true ↔ f.isCancelled i = true ∨ f.Reaches s i := by
  obtain ⟨hstruck, hother⟩ := getElem?_cancelAll h reason [s] i
  by_cases hi : f.Strikes [s] i
  · have hreach : f.Reaches s i := by
      obtain ⟨_, s', hs', hreach⟩ := hi
      exact List.mem_singleton.1 hs' ▸ hreach
    simp only [hreach, or_true, iff_true]
    exact (of_struck (hstruck hi)).2.1
  · have hsame : (f.cancelScope s reason).isCancelled i = f.isCancelled i := isCancelled_congr (hother hi)
    rw [hsame]
    refine ⟨.inl, fun hor => hor.elim id fun hreach => ?_⟩
    have hlt : i < f.scopes.length := by
      cases hreach with
      | refl => exact hs
      | link _ hc _ => exact (h.later _ _ hc).2
    -- it is passed over, although it is come to, only because it has a reason already
    by_contra hnot
    refine hi ⟨isOpen_iff.2 ⟨hlt, ?_⟩, s, List.mem_singleton_self s, hreach⟩
    exact h.isCancelled_eq_false.1 (by simpa using hnot)

/-- Right after a scope is cancelled, a scope derived from it by any chain of derivations is cancelled exactly if
it was before or every scope of that chain is still held. -/
theorem cancelled_below_iff (h : empty.run ops = some f) :
    ∀ handle s reason, f.scopeOf? handle = some s → ∃ g, f.step (.cancel handle reason) = some g ∧
      ∀ i, ReflTransGen (Derived ops) s i →
        (g.isCancelled i = true ↔ f.isCancelled i = true ∨ HeldBetween ops f s i) := by
  intro handle s reason hs
  have ht := traced_of_run h
  have hlt := ht.sound.handles s (mem_handles_of_scopeOf? hs)
  refine ⟨f.cancelScope s reason, by rw [step, hs, Option.map_some], fun i hi => ?_⟩
  rw [isCancelled_cancelScope ht.sound hlt, ht.heldBetween_iff (isLive_of_scopeOf? hs) hi]
  cases hc : f.isCancelled i with
  | true => simp
  | false => rw [ht.reaches_iff hc]

/-- A scope, one derived from it, and one derived from that one, whose first handle is given up for another. -/
def cloneOps : List ScopeOp := [.new, .child 0, .child 1, .clone 1, .drop 1]

theorem cancelled_below_iff_clone : ∃ f, empty.run cloneOps = some f ∧
    ∃ g, f.step (.cancel 0 "stop") = some g ∧ f.isCancelled 2 = false ∧ g.isCancelled 2 = true := by
  have hrun : (empty.run cloneOps).map (fun f => (f.scopeOf? 0, f.isLive 0, f.isLive 1, f.isLive 2, f.isCancelled 2)) =
      some (some 0, true, true, true, false) := by
    decide +kernel
  obtain ⟨f, hf, e⟩ := Option.map_eq_some_iff.1 hrun
  simp only [Prod.mk.injEq] at e
  obtain ⟨hhandle, h0, h1, h2, hlive⟩ := e
  have hfirst : Derived cloneOps 0 1 := ⟨[.new], 0, [.child 1, .clone 1, .drop 1], _, rfl, rfl, rfl, rfl⟩
  have hsecond : Derived cloneOps 1 2 := ⟨[.new, .child 0], 1, [.clone 1, .drop 1], _, rfl, rfl, rfl, rfl⟩
  obtain ⟨g, hg, hbelow⟩ := cancelled_below_iff hf 0 0 "stop" hhandle
  refine ⟨f, hf, g, hg, hlive, (hbelow 2 (.tail (.single hfirst) hsecond)).2 (.inr fun m _ hm => ?_)⟩
  have hle : m ≤ 2 := (traced_of_run hf).le_of_reflTransGen hm
  rcases (by omega : m = 0 ∨ m = 1 ∨ m = 2) with rfl | rfl | rfl
  · exact h0
  · exact h1
  · exact h2

/-- A scope, one derived from it, and one derived from that one, whose only handle is then given up. -/
def gapOps : List ScopeOp := [.new, .child 0, .child 1, .drop 1]

/-- A scope that is still held stays live when the one at the top is cancelled, if nobody holds the scope between
them any more. -/
theorem not_cancelled_below_gap : ∃ f g, empty.run gapOps = some f ∧ f.step (.cancel 0 "stop") = some g ∧
    TransGen (Derived gapOps) 0 2 ∧ g.scopeOf? 2 = some 2 ∧ g.isCancelled 0 = true ∧ g.isCancelled 2 = false := by
  have hfirst : Derived gapOps 0 1 := ⟨[.new], 0, [.child 1, .drop 1], _, rfl, rfl, rfl, rfl⟩
  have hsecond : Derived gapOps 1 2 := ⟨[.new, .child 0], 1, [.drop 1], _, rfl, rfl, rfl, rfl⟩
  have hrun : ((empty.run gapOps).bind fun f => (f.step (.cancel 0 "stop")).map fun g =>
      (g.scopeOf? 2, g.isCancelled 0, g.isCancelled 2)) = some (some 2, true, false) := by
    simp [gapOps, run, step, empty, addScope, derive, link, cancelScope, cancelAll, strike, isOpen, isLive,
      isCancelled, children, scopeOf?]
  obtain ⟨f, hf, hcancel⟩ := Option.bind_eq_some_iff.1 hrun
  obtain ⟨g, hg, e⟩ := Option.map_eq_some_iff.1 hcancel
  simp only [Prod.mk.injEq] at e
  exact ⟨f, g, hf, hg, .tail (.single hfirst) hsecond, e⟩

end StageTree.Forest

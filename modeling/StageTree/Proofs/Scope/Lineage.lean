import Mathlib.Logic.Relation
import StageTree.Proofs.Scope.Operations

/-! Scopes and the ones derived from them, along operations from the first one on. As long as a scope is
held, either it is cancelled or the scope that it was derived from is not and is linked to it: so a
cancellation may stop at a scope that is cancelled already, and misses nothing below it. -/

namespace StageTree.Forest

open Relation (ReflTransGen TransGen)

variable {f g : Forest} {op : ScopeOp} {ops : List ScopeOp} {reason : String} {i s c p : Nat}

/-- In the course of operations a scope was derived from another one. -/
def Derived (ops : List ScopeOp) (p c : Nat) : Prop :=
  ∃ before handle after f, ops = before ++ .child handle :: after ∧ empty.run before = some f ∧
    f.scopeOf? handle = some p ∧ c = f.scopes.length

theorem derived_concat (h : empty.run ops = some f) : Derived (ops ++ [op]) p c ↔
    Derived ops p c ∨ ∃ handle, op = .child handle ∧ f.scopeOf? handle = some p ∧ c = f.scopes.length := by
  constructor
  · rintro ⟨before, handle, after, f', e, hf', hp, hc⟩
    rcases eq_concat_cases e with ⟨rfl, hop, _⟩ | ⟨rest, _, e⟩
    · obtain rfl := Option.some.inj (hf'.symm.trans h)
      exact .inr ⟨handle, hop.symm, hp, hc⟩
    · exact .inl ⟨before, handle, rest, f', e, hf', hp, hc⟩
  · rintro (⟨before, handle, after, f', rfl, hf', hp, hc⟩ | ⟨handle, rfl, hp, hc⟩)
    · exact ⟨before, handle, after ++ [op], f', by simp, hf', hp, hc⟩
    · exact ⟨ops, handle, [], f, rfl, h, hp, hc⟩

/-- Scopes after operations from the first one on, and where they come from. -/
structure Traced (ops : List ScopeOp) (f : Forest) : Prop where
  sound : f.Sound
  bounds : ∀ p c, Derived ops p c → p < c ∧ c < f.scopes.length
  unique : ∀ p p' c, Derived ops p c → Derived ops p' c → p = p'
  children : ∀ p, ∀ c ∈ f.children p, Derived ops p c
  /-- A scope that is held and not cancelled hangs on the one that it was derived from, which is not
  cancelled either. -/
  linked : ∀ p c, Derived ops p c → f.isLive c = true →
    f.isCancelled c = true ∨ f.isCancelled p = false ∧ c ∈ f.children p

namespace Traced

theorem nil : Traced [] empty where
  sound := .empty
  bounds p c := by rintro ⟨before, handle, after, f, e, _⟩; simp at e
  unique p p' c := by rintro ⟨before, handle, after, f, e, _⟩; simp at e
  children p c hc := by simp [Forest.children, Forest.empty] at hc
  linked p c := by rintro ⟨before, handle, after, f, e, _⟩; simp at e

/-- An operation that derives no scope. -/
theorem concat_of_not_child (h : Traced ops f) (hrun : empty.run ops = some f) (hg : f.step op = some g)
    (hop : ∀ handle, op ≠ .child handle) (hlen : f.scopes.length ≤ g.scopes.length)
    (hchildren : ∀ p, ∀ c ∈ g.children p, c ∈ f.children p)
    (hlinked : ∀ p c, c < f.scopes.length → f.isLive c = true → f.isCancelled c = false →
      f.isCancelled p = false → c ∈ f.children p →
      g.isCancelled c = true ∨ g.isCancelled p = false ∧ c ∈ g.children p) : Traced (ops ++ [op]) g := by
  have hderived (p c) : Derived (ops ++ [op]) p c ↔ Derived ops p c := by
    rw [derived_concat hrun]
    exact or_iff_left fun ⟨handle, e, _⟩ => hop handle e
  exact
    { sound := h.sound.step hg
      bounds := fun p c hd => by
        obtain ⟨hlt, hlt'⟩ := h.bounds p c ((hderived p c).1 hd)
        exact ⟨hlt, Nat.lt_of_lt_of_le hlt' hlen⟩
      unique := fun p p' c hd hd' => h.unique p p' c ((hderived p c).1 hd) ((hderived p' c).1 hd')
      children := fun p c hc => (hderived p c).2 (h.children p c (hchildren p c hc))
      linked := fun p c hd hl => by
        have hd := (hderived p c).1 hd
        have hlt := (h.bounds p c hd).2
        have hl := isLive_of_step hg hlt hl
        by_cases hc : f.isCancelled c = true
        · obtain ⟨reason, hr⟩ := Option.isSome_iff_exists.1 (h.sound.reasoned c ▸ hc)
          exact .inl ((h.sound.step hg).isCancelled_of_reason? (reason?_step h.sound hg hr))
        · obtain ⟨hp, hm⟩ := (h.linked p c hd hl).resolve_left hc
          exact hlinked p c hlt hl (by simpa using hc) hp hm }

theorem cancel (h : Traced ops f) (hrun : empty.run ops = some f) {handle : Nat}
    (hg : f.step (.cancel handle reason) = some g) : Traced (ops ++ [.cancel handle reason]) g := by
  obtain ⟨s, hs, rfl⟩ := Option.map_eq_some_iff.1 hg
  rw [cancelScope] at hg ⊢
  have hstep (i : Nat) := getElem?_cancelAll h.sound reason [s] i
  refine h.concat_of_not_child hrun hg (by simp) (by simp) ?_ ?_
  · intro p c hc
    by_cases hp : f.Strikes [s] p
    · rw [(of_struck ((hstep p).1 hp)).2.2] at hc
      cases hc
    · rwa [children_congr ((hstep p).2 hp)] at hc
  · intro p c hlt hl hc hp hm
    by_cases hps : f.Strikes [s] p
    · -- the scope is struck together with the one that it hangs on
      obtain ⟨_, s', hs', hreach⟩ := hps
      refine .inl (of_struck ((hstep c).1 ⟨isOpen_iff.2 ⟨hlt, ?_⟩, s', hs', hreach.link hm hl⟩)).2.1
      exact h.sound.isCancelled_eq_false.1 hc
    · rw [isCancelled_congr ((hstep p).2 hps), children_congr ((hstep p).2 hps)]
      exact .inr ⟨hp, hm⟩

/-- Whoever holds a scope does not matter to the links. -/
theorem hold (h : Traced ops f) (hrun : empty.run ops = some f) (hg : f.step op = some g)
    (hop : ∀ handle, op ≠ .child handle) (hscopes : g.scopes = f.scopes) : Traced (ops ++ [op]) g := by
  have e (i : Nat) : g.scopes[i]? = f.scopes[i]? := by rw [hscopes]
  refine h.concat_of_not_child hrun hg hop (Nat.le_of_eq (congrArg List.length hscopes.symm)) ?_ ?_
  · intro p c hc
    rwa [children_congr (e p)] at hc
  · intro p c _ _ _ hp hm
    rw [isCancelled_congr (e p), children_congr (e p)]
    exact .inr ⟨hp, hm⟩

theorem new (h : Traced ops f) (hrun : empty.run ops = some f) (hg : f.step .new = some g) :
    Traced (ops ++ [.new]) g := by
  obtain rfl := Option.some.inj hg
  refine h.concat_of_not_child hrun hg (by simp) (by simp) ?_ ?_
  · intro p c hc
    rcases addScope_cases f p with e | ⟨_, e⟩
    · rwa [children_congr e] at hc
    · rw [(of_new e).2.2] at hc
      cases hc
  · intro p c hlt _ _ hp hm
    have e := getElem?_addScope_of_lt (Nat.lt_trans (h.sound.later p c hm).1 hlt)
    rw [isCancelled_congr e, children_congr e]
    exact .inr ⟨hp, hm⟩

/-- The links after a scope is derived. -/
theorem links_derive (h : Traced ops f) (hs : s < f.scopes.length) :
    (∀ p, ∀ c ∈ (f.derive s).children p, c ∈ f.children p ∨ p = s ∧ c = f.scopes.length) ∧
      (∀ p, p < f.scopes.length → (f.derive s).isCancelled p = f.isCancelled p) ∧
      (f.isCancelled s = false → f.scopes.length ∈ (f.derive s).children s) ∧
      ∀ p, p < f.scopes.length → ∀ c ∈ f.children p, f.isLive c = true → c ∈ (f.derive s).children p := by
  cases hr : f.reason? s with
  | some reason =>
    have hc := h.sound.isCancelled_of_reason? hr
    have hderive (i : Nat) := getElem?_derive_of_isCancelled h.sound hr i
    refine ⟨fun p c hm => ?_, fun p hp => ?_, fun hn => ?_, fun p hp c hm _ => ?_⟩
    · by_cases hp : p = f.scopes.length
      · rw [(of_struck ((hderive p).1 hp)).2.2] at hm
        cases hm
      · rw [children_congr ((hderive p).2 hp)] at hm
        exact .inl hm
    · exact isCancelled_congr ((hderive p).2 (Nat.ne_of_lt hp))
    · rw [hc] at hn
      cases hn
    · rwa [children_congr ((hderive p).2 (Nat.ne_of_lt hp))]
  | none =>
    rw [derive_of_not_isCancelled (h.sound.isCancelled_eq_false.2 hr)]
    have hadd {p : Nat} (hp : p < f.scopes.length) := getElem?_addScope_of_lt (f := f) hp
    have hs' : s < f.addScope.scopes.length := by
      rw [length_addScope]
      exact Nat.lt_succ_of_lt hs
    refine ⟨fun p c hm => ?_, fun p hp => ?_, fun _ => ?_, fun p hp c hm hl => ?_⟩
    · rw [mem_children_link] at hm
      split at hm
      · rename_i e
        subst e
        rcases hm.2 with rfl | ⟨hm, _⟩
        · exact .inr ⟨rfl, rfl⟩
        · rw [children_congr (hadd hs)] at hm
          exact .inl hm
      · rcases addScope_cases f p with e | ⟨_, e⟩
        · rw [children_congr e] at hm
          exact .inl hm
        · rw [(of_new e).2.2] at hm
          cases hm
    · rw [isCancelled_link, isCancelled_congr (hadd hp)]
    · rw [mem_children_link, if_pos rfl]
      exact ⟨hs', .inl rfl⟩
    · rw [mem_children_link, ← children_congr (hadd hp)] at *
      split
      · rename_i e
        subst e
        exact ⟨hs', .inr ⟨hm, isLive_addScope hl⟩⟩
      · exact hm

theorem child (h : Traced ops f) (hrun : empty.run ops = some f) {handle : Nat}
    (hg : f.step (.child handle) = some g) : Traced (ops ++ [.child handle]) g := by
  have hsound := h.sound.step hg
  have hlive {i : Nat} := isLive_of_step (i := i) hg
  obtain ⟨s, hs, rfl⟩ := Option.map_eq_some_iff.1 hg
  have hlt := h.sound.handles s (mem_handles_of_scopeOf? hs)
  obtain ⟨hfrom, hsame, hnew, hkept⟩ := h.links_derive hlt
  have hlength : (f.derive s).scopes.length = f.scopes.length + 1 := by
    rw [derive]
    split <;> simp [cancelScope]
  have hderived (p c : Nat) : Derived (ops ++ [.child handle]) p c ↔
      Derived ops p c ∨ p = s ∧ c = f.scopes.length := by
    rw [derived_concat hrun]
    refine or_congr_right ⟨?_, ?_⟩
    · rintro ⟨handle', e, hp, hc⟩
      obtain rfl := ScopeOp.child.inj e
      exact ⟨Option.some.inj (hp.symm.trans hs), hc⟩
    · rintro ⟨rfl, hc⟩
      exact ⟨handle, rfl, hs, hc⟩
  refine ⟨hsound, fun p c hd => ?_, fun p p' c hd hd' => ?_, fun p c hm => ?_, fun p c hd hl => ?_⟩
  · rw [hlength]
    rcases (hderived p c).1 hd with hd | ⟨rfl, rfl⟩
    · have := h.bounds p c hd
      omega
    · omega
  · rcases (hderived p c).1 hd with hd | ⟨rfl, rfl⟩ <;> rcases (hderived p' _).1 hd' with hd' | ⟨rfl, hc⟩
    · exact h.unique p p' c hd hd'
    · exact absurd hc (Nat.ne_of_lt (h.bounds p c hd).2)
    · exact absurd (h.bounds p' _ hd').2 (Nat.lt_irrefl _)
    · rfl
  · exact (hderived p c).2 ((hfrom p c hm).imp_left (h.children p c))
  · rcases (hderived p c).1 hd with hd | ⟨rfl, rfl⟩
    · obtain ⟨hpc, hclt⟩ := h.bounds p c hd
      rw [hsame c hclt, hsame p (Nat.lt_trans hpc hclt)]
      have hl := hlive hclt hl
      exact (h.linked p c hd hl).imp_right (And.imp_right fun hm => hkept p (Nat.lt_trans hpc hclt) c hm hl)
    · rw [hsound.reasoned, reason?_derive h.sound, ← h.sound.reasoned, hsame p hlt]
      cases hc : f.isCancelled p with
      | true => exact .inl rfl
      | false => exact .inr ⟨rfl, hnew hc⟩

end Traced

theorem traced_of_run (h : empty.run ops = some f) : Traced ops f := by
  refine foldlM_induction (P := Traced) .nil (fun ops op g g' hrun ht hg => ?_) h
  cases op with
  | new => exact ht.new hrun hg
  | child handle => exact ht.child hrun hg
  | cancel handle reason => exact ht.cancel hrun hg
  | clone handle | drop handle | wait handle =>
    refine ht.hold hrun hg (by simp) ?_
    obtain ⟨s, hs, rfl⟩ := Option.map_eq_some_iff.1 hg
    rfl

/-! ### What a cancellation leaves alone -/

namespace Traced

theorem lt_of_transGen (h : Traced ops f) (hd : TransGen (Derived ops) s i) : s < i := by
  induction hd with
  | single hd => exact (h.bounds _ _ hd).1
  | tail _ hd ih => exact Nat.lt_trans ih (h.bounds _ _ hd).1

theorem le_of_reflTransGen (h : Traced ops f) (hd : ReflTransGen (Derived ops) s i) : s ≤ i := by
  rcases Relation.reflTransGen_iff_eq_or_transGen.1 hd with rfl | hd
  · exact Nat.le_refl _
  · exact Nat.le_of_lt (h.lt_of_transGen hd)

/-- A cancellation comes only to what was derived from its scope. -/
theorem derived_of_reaches (h : Traced ops f) (hr : f.Reaches s i) : ReflTransGen (Derived ops) s i := by
  induction hr with
  | refl => exact .refl
  | link _ hc _ ih => exact ih.tail (h.children _ _ hc)

/-- The links lead to every scope not cancelled that the scopes still held below another one lead to. -/
theorem reaches_iff (h : Traced ops f) (hi : f.isCancelled i = false) :
    f.Reaches s i ↔ ReflTransGen (fun p c => Derived ops p c ∧ f.isLive c = true) s i := by
  constructor
  · intro hr
    clear hi
    induction hr with
    | refl => exact .refl
    | link _ hc hl ih => exact ih.tail ⟨h.children _ _ hc, hl⟩
  · intro hd
    induction hd with
    | refl => exact .refl
    | @tail p i _ hpi ih =>
      obtain ⟨hp, hm⟩ := (h.linked p i hpi.1 hpi.2).resolve_left (by simp [hi])
      exact (ih hp).link hm hpi.2

/-- Two scopes derived from one and the same have nothing in common that was derived from them. -/
theorem not_derived_of_sibling (h : Traced ops f) {b : Nat} (hs : Derived ops p s) (hb : Derived ops p b)
    (hne : b ≠ s) (hi : ReflTransGen (Derived ops) b i) : ¬ ReflTransGen (Derived ops) s i := by
  -- the way up from a scope is the only one, and passes `p` last before it comes to `b` or `s`
  have hup {b s : Nat} (hs : Derived ops p s) (hb : Derived ops p b) (hne : b ≠ s) :
      ¬ ReflTransGen (Derived ops) s b := by
    intro hsb
    rcases Relation.ReflTransGen.cases_tail hsb with e | ⟨j, hsj, hj⟩
    · exact hne e
    · rw [h.unique j p b hj hb] at hsj
      exact Nat.not_lt_of_le (h.le_of_reflTransGen hsj) (h.bounds p s hs).1
  induction hi with
  | refl => exact hup hs hb hne
  | @tail j i hbj hj ih =>
    intro hsi
    rcases Relation.ReflTransGen.cases_tail hsi with rfl | ⟨j', hsj, hj'⟩
    · exact hup hb hs hne.symm (hbj.tail hj)
    · rw [h.unique j' j i hj' hj] at hsj
      exact ih hsj

end Traced

/-- After any operations on scopes from the first one on: a scope is cancelled exactly when it has a reason,
and whatever is done next it keeps it; whatever a cancelled scope is still linked to is cancelled, and so is
every scope derived from it that is still held. A cancellation gives its reason to the scopes not cancelled
yet that it comes to from its own through links between live scopes, which are those that were derived from
it through scopes still held, and leaves every other scope as it is, in particular all those that its own was
derived from, those beside it with what was derived from them, and those that have nothing to do with it. A
scope is born cancelled, for the same reason, exactly when the one it is derived from is cancelled. A waiting
task is woken exactly when its scope is cancelled, and until then it holds it. -/
theorem cancellation_laws {ops : List ScopeOp} {f : Forest} (h : empty.run ops = some f) :
    (∀ s, f.isCancelled s = true ↔ ∃ reason, f.reason? s = some reason) ∧
      (∀ later g s reason, f.run later = some g → f.reason? s = some reason →
        g.isCancelled s = true ∧ g.reason? s = some reason) ∧
      (∀ p c, c ∈ f.children p ∨ Derived ops p c ∧ f.isLive c = true → f.isCancelled p = true →
        f.isCancelled c = true) ∧
      (∀ s i, f.isCancelled i = false →
        (f.Reaches s i ↔ ReflTransGen (fun p c => Derived ops p c ∧ f.isLive c = true) s i)) ∧
      (∀ handle s reason, f.scopeOf? handle = some s → ∃ g, f.step (.cancel handle reason) = some g ∧
        (∀ i, f.isCancelled i = false → f.Reaches s i → g.isCancelled i = true ∧ g.reason? i = some reason) ∧
        (∀ i, f.isCancelled i = true ∨ ¬ f.Reaches s i → g.scopes[i]? = f.scopes[i]?) ∧
        (∀ i, TransGen (Derived ops) i s → g.scopes[i]? = f.scopes[i]?) ∧
        (∀ p b i, Derived ops p s → Derived ops p b → b ≠ s → ReflTransGen (Derived ops) b i →
          g.scopes[i]? = f.scopes[i]?) ∧
        ∀ i, ¬ ReflTransGen (Derived ops) s i → g.scopes[i]? = f.scopes[i]?) ∧
      (∀ handle s, f.scopeOf? handle = some s → ∃ g, f.step (.child handle) = some g ∧
        g.handles = f.handles ++ [some f.scopes.length] ∧ g.reason? f.scopes.length = f.reason? s ∧
        g.isCancelled f.scopes.length = f.isCancelled s) ∧
      ∀ w ∈ f.waits, (w.woken = true ↔ f.isCancelled w.scope = true) ∧
        (w.woken = false → f.isLive w.scope = true) := by
  have ht := traced_of_run h
  have hf := ht.sound
  refine ⟨fun s => ?_, fun later g s reason hg hr => ?_, fun p c hc hp => ?_,
    fun s i hi => ht.reaches_iff hi, fun handle s reason hs => ?_,
    fun handle s hs => ?_, fun w hw => ⟨?_, fun hwoken => ?_⟩⟩
  · rw [hf.reasoned, Option.isSome_iff_exists]
  · have hr := reason?_run hf hg hr
    exact ⟨(hf.run hg).isCancelled_of_reason? hr, hr⟩
  · rcases hc with hc | ⟨hd, hl⟩
    · rw [hf.released p hp] at hc
      cases hc
    · refine (ht.linked p c hd hl).resolve_right fun hn => ?_
      rw [hp] at hn
      cases hn.1
  · have hlt := hf.handles s (mem_handles_of_scopeOf? hs)
    have hcancel (i : Nat) := getElem?_cancelAll hf reason [s] i
    have hother {i : Nat} (hi : ¬ f.Reaches s i) : (f.cancelScope s reason).scopes[i]? = f.scopes[i]? := by
      refine (hcancel i).2 ?_
      rintro ⟨_, s', hs', hreach⟩
      exact hi (List.mem_singleton.1 hs' ▸ hreach)
    have hapart {i : Nat} (hi : ¬ ReflTransGen (Derived ops) s i) :
        (f.cancelScope s reason).scopes[i]? = f.scopes[i]? :=
      hother fun hreach => hi (ht.derived_of_reaches hreach)
    refine ⟨_, by rw [step, hs, Option.map_some], fun i hi hreach => ?_, fun i hi => ?_, fun i hi => hapart ?_,
      fun p b i hps hpb hne hbi => hapart (ht.not_derived_of_sibling hps hpb hne hbi), fun i hi => hapart hi⟩
    · have hopen : f.isOpen i = true := by
        refine isOpen_iff.2 ⟨?_, hf.isCancelled_eq_false.1 hi⟩
        cases hreach with
        | refl => exact hlt
        | link _ hc _ => exact (hf.later _ _ hc).2
      have hstruck := of_struck ((hcancel i).1 ⟨hopen, s, List.mem_singleton_self s, hreach⟩)
      exact ⟨hstruck.2.1, hstruck.1⟩
    · rcases hi with hi | hi
      · refine (hcancel i).2 fun hstrikes => ?_
        rw [hf.reasoned, (isOpen_iff.1 hstrikes.1).2] at hi
        cases hi
      · exact hother hi
    · exact fun hsi => Nat.not_lt_of_le (ht.le_of_reflTransGen hsi) (ht.lt_of_transGen hi)
  · have hreason := reason?_derive (s := s) hf
    have hstep : f.step (.child handle) = some (f.derive s) := by rw [step, hs, Option.map_some]
    refine ⟨_, hstep, handles_derive, hreason, ?_⟩
    rw [(hf.step hstep).reasoned, hreason, hf.reasoned]
  · rw [(hf.waits w hw).2]
  · exact isLive_iff.2 (.inr ⟨w, hw, rfl, hwoken⟩)

/-- Two scopes derived from one, of which the first is cancelled while a task waits for a scope below it
that nobody else holds. -/
def forkOps : List ScopeOp :=
  [.new, .child 0, .child 1, .child 0, .wait 2, .drop 2, .cancel 1 "left", .child 1]

theorem cancellation_laws_fork : ∃ f, empty.run forkOps = some f ∧ f.reason? 2 = some "left" ∧
    f.isCancelled 2 = true ∧ (∀ w ∈ f.waits, w.woken = true) ∧
      ∃ g, f.step (.cancel 0 "all") = some g ∧ g.reason? 2 = some "left" ∧ g.isCancelled 3 = true ∧
        g.reason? 3 = some "all" := by
  have hrun : (empty.run forkOps).map (fun f => (f.reason? 2, f.waits.map Wait.scope, f.scopeOf? 0,
      f.isCancelled 3, f.children 0, f.isLive 3)) =
        some (some "left", [2], some 0, false, [1, 3], true) := by
    simp [forkOps, run, step, empty, addScope, derive, link, cancelScope, cancelAll, strike, isOpen, isLive,
      isCancelled, children, reason?, scopeOf?]
  obtain ⟨f, hf, e⟩ := Option.map_eq_some_iff.1 hrun
  simp only [Prod.mk.injEq] at e
  obtain ⟨hreason, hwaits, hhandle, hlive, hchildren, hheld⟩ := e
  obtain ⟨hcancelled, hstays, _, _, hcancel, _, hwoken⟩ := cancellation_laws hf
  have h2 : f.isCancelled 2 = true := (hcancelled 2).2 ⟨_, hreason⟩
  refine ⟨f, hf, hreason, h2, fun w hw => (hwoken w hw).1.2 ?_, ?_⟩
  · have hm : w.scope ∈ f.waits.map Wait.scope := List.mem_map_of_mem hw
    rw [hwaits] at hm
    rw [List.mem_singleton.1 hm, h2]
  · obtain ⟨g, hg, hstruck, _⟩ := hcancel 0 0 "all" hhandle
    have h3 : f.Reaches 0 3 := .link .refl (by simp [hchildren]) hheld
    exact ⟨g, hg, (hstays [.cancel 0 "all"] g 2 "left" (by rw [run, List.foldlM_cons, hg]; rfl) hreason).2,
      hstruck 3 hlive h3⟩

end StageTree.Forest

import Mathlib.Data.List.Basic
import StageTree.Scope.Forest

/-! What a cancellation strikes: the scope it is meant for, and every scope that a chain of links between
live ones leads to, as far as they have no reason yet. It passes over what is cancelled already, and
nothing is missed there, for a cancelled scope is linked to no other. -/

namespace StageTree.Forest

variable {f g : Forest} {reason : String} {i s c : Nat} {todo : List Nat}

/-! ### What a forest shows of a scope -/

theorem isOpen_iff : f.isOpen i = true ↔ i < f.scopes.length ∧ f.reason? i = none := by
  by_cases h : i < f.scopes.length <;> simp [isOpen, reason?, h]

theorem isLive_iff : f.isLive i = true ↔
    some i ∈ f.handles ∨ ∃ w ∈ f.waits, w.scope = i ∧ w.woken = false := by
  simp [isLive]

theorem mem_handles_of_scopeOf? {handle : Nat} (h : f.scopeOf? handle = some s) : some s ∈ f.handles := by
  rw [scopeOf?, Option.join_eq_some_iff] at h
  exact List.mem_of_getElem? h

theorem isLive_of_scopeOf? {handle : Nat} (h : f.scopeOf? handle = some s) : f.isLive s = true :=
  isLive_iff.2 (.inl (mem_handles_of_scopeOf? h))

theorem reason?_congr (h : g.scopes[i]? = f.scopes[i]?) : g.reason? i = f.reason? i := by
  rw [reason?, reason?, h]

theorem isCancelled_congr (h : g.scopes[i]? = f.scopes[i]?) : g.isCancelled i = f.isCancelled i := by
  rw [isCancelled, isCancelled, h]

theorem children_congr (h : g.scopes[i]? = f.scopes[i]?) : g.children i = f.children i := by
  rw [children, children, h]

/-- What is to be seen of a scope that is struck. -/
theorem of_struck (h : f.scopes[i]? = some ⟨true, some reason, []⟩) :
    f.reason? i = some reason ∧ f.isCancelled i = true ∧ f.children i = [] := by
  simp [reason?, isCancelled, children, h]

/-! ### Forests in order -/

/-- A forest as operations leave it. -/
structure Sound (f : Forest) : Prop where
  reasoned : ∀ i, f.isCancelled i = (f.reason? i).isSome
  /-- A cancelled scope has let go of the scopes derived from it. -/
  released : ∀ i, f.isCancelled i = true → f.children i = []
  later : ∀ i, ∀ c ∈ f.children i, i < c ∧ c < f.scopes.length
  handles : ∀ i, some i ∈ f.handles → i < f.scopes.length
  waits : ∀ w ∈ f.waits, w.scope < f.scopes.length ∧ w.woken = f.isCancelled w.scope

namespace Sound

theorem isCancelled_eq_false (h : f.Sound) : f.isCancelled i = false ↔ f.reason? i = none := by
  rw [h.reasoned]
  simp

theorem isCancelled_of_reason? (h : f.Sound) (hr : f.reason? i = some reason) : f.isCancelled i = true := by
  rw [h.reasoned, hr]
  rfl

end Sound

/-! ### One scope struck -/

theorem getElem?_strike_self (reason : String) (h : f.isOpen s = true) :
    (f.strike reason s).scopes[s]? = some ⟨true, some reason, []⟩ :=
  List.getElem?_set_self (isOpen_iff.1 h).1

theorem getElem?_strike_of_ne (reason : String) (h : i ≠ s) : (f.strike reason s).scopes[i]? = f.scopes[i]? :=
  List.getElem?_set_ne (Ne.symm h)

@[simp] theorem length_strike : (f.strike reason s).scopes.length = f.scopes.length := by simp [strike]

@[simp] theorem handles_strike : (f.strike reason s).handles = f.handles := rfl

theorem isLive_strike_of_ne (h : i ≠ s) : (f.strike reason s).isLive i = f.isLive i := by
  rw [Bool.eq_iff_iff, isLive_iff, isLive_iff, handles_strike]
  refine or_congr_right ?_
  simp only [strike, List.mem_map, exists_exists_and_eq_and]
  refine exists_congr fun w => and_congr_right fun _ => ?_
  by_cases e : w.scope = s
  · rw [if_pos e]
    have : ¬ w.scope = i := fun e' => h (e'.symm.trans e)
    simp [this]
  · rw [if_neg e]

/-- A task whose scope is struck is woken, and any other waits as before. -/
theorem mem_waits_strike {w : Wait} : w ∈ (f.strike reason s).waits ↔
    ∃ v ∈ f.waits, w = if v.scope = s then { v with woken := true } else v := by
  simp [strike, eq_comm]

/-- No scope that nobody holds comes to be held. -/
theorem isLive_of_strike (h : (f.strike reason s).isLive i = true) : f.isLive i = true := by
  rw [isLive_iff, handles_strike] at h
  refine isLive_iff.2 (h.imp_right ?_)
  rintro ⟨w, hw, rfl, hwoken⟩
  obtain ⟨v, hv, rfl⟩ := mem_waits_strike.1 hw
  by_cases e : v.scope = s
  · rw [if_pos e] at hwoken
    cases hwoken
  · rw [if_neg e] at hwoken ⊢
    exact ⟨v, hv, rfl, hwoken⟩

theorem Sound.strike (h : f.Sound) (hs : f.isOpen s = true) : (f.strike reason s).Sound where
  reasoned i := by
    by_cases e : i = s
    · subst e
      obtain ⟨hr, hc, _⟩ := of_struck (getElem?_strike_self reason hs)
      rw [hr, hc]
      rfl
    · have e := getElem?_strike_of_ne (f := f) reason e
      rw [isCancelled_congr e, reason?_congr e, h.reasoned]
  released i := by
    by_cases e : i = s
    · subst e
      exact fun _ => (of_struck (getElem?_strike_self _ hs)).2.2
    · have e := getElem?_strike_of_ne (f := f) reason e
      rw [isCancelled_congr e, children_congr e]
      exact h.released i
  later i c hc := by
    rw [length_strike]
    by_cases e : i = s
    · subst e
      rw [(of_struck (getElem?_strike_self _ hs)).2.2] at hc
      cases hc
    · rw [children_congr (getElem?_strike_of_ne _ e)] at hc
      exact h.later i c hc
  handles i hi := by
    rw [length_strike]
    exact h.handles i hi
  waits w hw := by
    obtain ⟨v, hv, rfl⟩ := mem_waits_strike.1 hw
    obtain ⟨hlt, hwoken⟩ := h.waits v hv
    by_cases e : v.scope = s
    · subst e
      rw [if_pos rfl, length_strike]
      exact ⟨hlt, (of_struck (getElem?_strike_self _ hs)).2.1.symm⟩
    · rw [if_neg e, length_strike, isCancelled_congr (getElem?_strike_of_ne _ e)]
      exact ⟨hlt, hwoken⟩

/-! ### All scopes struck -/

/-- The scopes that a cancellation of a scope comes to: that scope, and the live ones that links lead to
from one that it comes to. -/
inductive Reaches (f : Forest) (s : Nat) : Nat → Prop
  | refl : Reaches f s s
  | link {i c : Nat} (h : Reaches f s i) (hc : c ∈ f.children i) (hl : f.isLive c = true) : Reaches f s c

/-- A cancellation comes to all scopes below one it comes to. -/
theorem Reaches.trans (h : f.Reaches s i) (h' : f.Reaches i c) : f.Reaches s c := by
  induction h' with
  | refl => exact h
  | link _ hc hl ih => exact ih.link hc hl

/-- A cancellation stays where it is when the scope is linked to no other. -/
theorem Reaches.eq_of_children (h : f.Reaches s i) (hs : f.children s = []) : i = s := by
  induction h with
  | refl => rfl
  | link _ hc _ ih =>
    rw [ih, hs] at hc
    cases hc

theorem Sound.le_of_reaches (hf : f.Sound) (h : f.Reaches s i) : s ≤ i := by
  induction h with
  | refl => exact Nat.le_refl s
  | link _ hc _ ih => exact Nat.le_trans ih (Nat.le_of_lt (hf.later _ _ hc).1)

/-- What a struck scope leads to is what it led to before, and no more. -/
theorem Reaches.of_strike (hs : f.isOpen s = true) (h : (f.strike reason s).Reaches c i) : f.Reaches c i := by
  induction h with
  | refl => exact .refl
  | @link j c _ hc hl ih =>
    by_cases ej : j = s
    · subst ej
      rw [(of_struck (getElem?_strike_self _ hs)).2.2] at hc
      cases hc
    · rw [children_congr (getElem?_strike_of_ne _ ej)] at hc
      exact ih.link hc (isLive_of_strike hl)

/-- A way to another scope goes past the one that is struck, or comes out of it by one of its links. -/
theorem Reaches.strike (reason : String) (h : f.Reaches c i) (hi : i ≠ s) : (f.strike reason s).Reaches c i ∨
    ∃ d ∈ (f.children s).filter f.isLive, (f.strike reason s).Reaches d i := by
  induction h with
  | refl => exact .inl .refl
  | @link j d _ hd hl ih =>
    have hl' : (f.strike reason s).isLive d = true := by rwa [isLive_strike_of_ne hi]
    by_cases ej : j = s
    · subst ej
      exact .inr ⟨d, List.mem_filter.2 ⟨hd, hl⟩, .refl⟩
    · have hd' : d ∈ (f.strike reason s).children j := by rwa [children_congr (getElem?_strike_of_ne _ ej)]
      rcases ih ej with ih | ⟨b, hb, ih⟩
      · exact .inl (ih.link hd' hl')
      · exact .inr ⟨b, hb, ih.link hd' hl'⟩

/-- A cancellation of several scopes strikes one that has no reason if it comes to it from one of them. -/
def Strikes (f : Forest) (todo : List Nat) (i : Nat) : Prop :=
  f.isOpen i = true ∧ ∃ s ∈ todo, f.Reaches s i

theorem strikes_cons_of_isOpen (reason : String) {rest : List Nat} (hs : f.isOpen s = true) (hi : i ≠ s) :
    f.Strikes (s :: rest) i ↔
      (f.strike reason s).Strikes ((f.children s).filter f.isLive ++ rest) i := by
  have hopen : (f.strike reason s).isOpen i = f.isOpen i := by
    rw [isOpen, isOpen, getElem?_strike_of_ne _ hi]
  rw [Strikes, Strikes, hopen]
  refine and_congr_right fun _ => ⟨?_, ?_⟩
  · rintro ⟨c, hc, h⟩
    rcases h.strike reason hi with h | ⟨d, hd, h⟩
    · rcases List.mem_cons.1 hc with rfl | hc
      · -- from a struck scope no link leads on
        exact absurd (h.eq_of_children (of_struck (getElem?_strike_self _ hs)).2.2) hi
      · exact ⟨c, List.mem_append_right _ hc, h⟩
    · exact ⟨d, List.mem_append_left _ hd, h⟩
  · rintro ⟨c, hc, h⟩
    rcases List.mem_append.1 hc with hc | hc
    · obtain ⟨hc, hl⟩ := List.mem_filter.1 hc
      exact ⟨s, List.mem_cons_self, (Reaches.refl.link hc hl).trans (h.of_strike hs)⟩
    · exact ⟨c, List.mem_cons_of_mem _ hc, h.of_strike hs⟩

theorem strikes_cons_of_not_isOpen {rest : List Nat} (hf : f.Sound) (hs : ¬ f.isOpen s = true) :
    f.Strikes (s :: rest) i ↔ f.Strikes rest i := by
  refine and_congr_right fun hi => ⟨?_, fun ⟨c, hc, h⟩ => ⟨c, List.mem_cons_of_mem _ hc, h⟩⟩
  rintro ⟨c, hc, h⟩
  rcases List.mem_cons.1 hc with rfl | hc
  · -- a scope that is cancelled, or none at all, is linked to no other
    have hchildren : f.children c = [] := by
      by_cases hlt : c < f.scopes.length
      · refine hf.released c ?_
        rw [hf.reasoned, ← Option.ne_none_iff_isSome]
        exact fun e => hs (isOpen_iff.2 ⟨hlt, e⟩)
      · simp [children, List.getElem?_eq_none (Nat.le_of_not_lt hlt)]
    rw [h.eq_of_children hchildren] at hi
    exact absurd hi hs
  · exact ⟨c, hc, h⟩

/-- A cancellation gives every scope that it strikes its reason, and leaves all others as they are. -/
theorem getElem?_cancelAll (hf : f.Sound) (reason : String) (todo : List Nat) (i : Nat) :
    (f.Strikes todo i → (f.cancelAll reason todo).scopes[i]? = some ⟨true, some reason, []⟩) ∧
      (¬ f.Strikes todo i → (f.cancelAll reason todo).scopes[i]? = f.scopes[i]?) := by
  induction f, todo using cancelAll.induct reason with
  | case1 f =>
    rw [cancelAll]
    exact ⟨fun ⟨_, _, h, _⟩ => by simp at h, fun _ => rfl⟩
  | case2 f s rest hs ih =>
    rw [cancelAll, if_pos hs]
    have ih := ih (hf.strike hs)
    by_cases e : i = s
    · subst e
      have hopen : ¬ (f.strike reason i).isOpen i = true := by
        rw [isOpen_iff, (of_struck (getElem?_strike_self _ hs)).1]
        simp
      have := ih.2 fun h => hopen h.1
      rw [getElem?_strike_self _ hs] at this
      exact ⟨fun _ => this, fun h => absurd ⟨hs, i, List.mem_cons_self, .refl⟩ h⟩
    · rw [strikes_cons_of_isOpen reason hs e, ← getElem?_strike_of_ne (f := f) reason e]
      exact ih
  | case3 f s rest hs ih =>
    rw [cancelAll, if_neg hs, strikes_cons_of_not_isOpen hf hs]
    exact ih hf

theorem Sound.cancelAll (hf : f.Sound) (todo : List Nat) : (f.cancelAll reason todo).Sound := by
  induction f, todo using cancelAll.induct reason with
  | case1 f => rwa [Forest.cancelAll]
  | case2 f s rest hs ih =>
    rw [Forest.cancelAll, if_pos hs]
    exact ih (hf.strike hs)
  | case3 f s rest hs ih =>
    rw [Forest.cancelAll, if_neg hs]
    exact ih hf

@[simp] theorem length_cancelAll (f : Forest) (todo : List Nat) :
    (f.cancelAll reason todo).scopes.length = f.scopes.length := by
  induction f, todo using cancelAll.induct reason with
  | case1 f => rw [cancelAll]
  | case2 f s rest hs ih => rw [cancelAll, if_pos hs, ih, length_strike]
  | case3 f s rest hs ih => rw [cancelAll, if_neg hs, ih]

@[simp] theorem handles_cancelAll (f : Forest) (todo : List Nat) :
    (f.cancelAll reason todo).handles = f.handles := by
  induction f, todo using cancelAll.induct reason with
  | case1 f => rw [cancelAll]
  | case2 f s rest hs ih => rw [cancelAll, if_pos hs, ih, handles_strike]
  | case3 f s rest hs ih => rw [cancelAll, if_neg hs, ih]

theorem isLive_of_cancelAll (h : (f.cancelAll reason todo).isLive i = true) : f.isLive i = true := by
  induction f, todo using cancelAll.induct reason with
  | case1 f => rwa [cancelAll] at h
  | case2 f s rest hs ih =>
    rw [cancelAll, if_pos hs] at h
    exact isLive_of_strike (ih h)
  | case3 f s rest hs ih =>
    rw [cancelAll, if_neg hs] at h
    exact ih h

end StageTree.Forest

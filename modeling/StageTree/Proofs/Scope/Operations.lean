import StageTree.Proofs.Moves
import StageTree.Proofs.Scope.Struck

/-! What every operation on scopes keeps: a forest in order, the reason of each scope that has one, and
that a scope which nobody holds any more is never held again. -/

namespace StageTree.Forest

variable {f g : Forest} {op : ScopeOp} {ops : List ScopeOp} {reason : String} {i s c p : Nat}

/-! ### One more scope -/

theorem getElem?_addScope_of_lt (h : i < f.scopes.length) : f.addScope.scopes[i]? = f.scopes[i]? :=
  List.getElem?_append_left h

theorem getElem?_addScope_new (f : Forest) : f.addScope.scopes[f.scopes.length]? = some {} := by
  simp [addScope]

theorem getElem?_addScope_of_gt (h : f.scopes.length < i) : f.addScope.scopes[i]? = f.scopes[i]? := by
  rw [List.getElem?_eq_none (Nat.le_of_lt h),
    List.getElem?_eq_none (by simpa [addScope] using Nat.succ_le_of_lt h)]

@[simp] theorem length_addScope (f : Forest) : f.addScope.scopes.length = f.scopes.length + 1 := by
  simp [addScope]

/-- A scope that comes has no reason and is linked to no other, and all others are as they were. -/
theorem addScope_cases (f : Forest) (i : Nat) :
    f.addScope.scopes[i]? = f.scopes[i]? ∨ i = f.scopes.length ∧ f.addScope.scopes[i]? = some {} := by
  rcases Nat.lt_trichotomy i f.scopes.length with h | rfl | h
  · exact .inl (getElem?_addScope_of_lt h)
  · exact .inr ⟨rfl, getElem?_addScope_new f⟩
  · exact .inl (getElem?_addScope_of_gt h)

theorem of_new (h : f.scopes[i]? = some {}) :
    f.reason? i = none ∧ f.isCancelled i = false ∧ f.children i = [] := by
  simp [reason?, isCancelled, children, h]

theorem Sound.addScope (h : f.Sound) : f.addScope.Sound where
  reasoned i := by
    rcases addScope_cases f i with e | ⟨_, e⟩
    · rw [isCancelled_congr e, reason?_congr e, h.reasoned]
    · rw [(of_new e).1, (of_new e).2.1]
      rfl
  released i hi := by
    rcases addScope_cases f i with e | ⟨_, e⟩
    · rw [isCancelled_congr e] at hi
      rw [children_congr e, h.released i hi]
    · exact (of_new e).2.2
  later i c hc := by
    rw [length_addScope]
    rcases addScope_cases f i with e | ⟨_, e⟩
    · rw [children_congr e] at hc
      have := h.later i c hc
      omega
    · rw [(of_new e).2.2] at hc
      cases hc
  handles i hi := by
    rw [length_addScope]
    rcases List.mem_append.1 hi with hi | hi
    · exact Nat.lt_succ_of_lt (h.handles i hi)
    · rw [Option.some.inj (List.mem_singleton.1 hi)]
      exact Nat.lt_succ_self _
  waits w hw := by
    obtain ⟨hlt, hwoken⟩ := h.waits w hw
    rw [length_addScope, isCancelled_congr (getElem?_addScope_of_lt hlt)]
    exact ⟨Nat.lt_succ_of_lt hlt, hwoken⟩

theorem isLive_of_addScope (h : f.addScope.isLive i = true) (hi : i < f.scopes.length) : f.isLive i = true := by
  rw [isLive_iff] at h ⊢
  refine h.imp_left fun h => ?_
  refine (List.mem_append.1 h).resolve_right fun h => ?_
  exact Nat.ne_of_lt hi (Option.some.inj (List.mem_singleton.1 h))

theorem isLive_addScope (h : f.isLive i = true) : f.addScope.isLive i = true := by
  rw [isLive_iff] at h ⊢
  exact h.imp_left (List.mem_append_left _)

/-! ### One more link -/

theorem getElem?_link : (f.link p c).scopes[i]? = (f.scopes[i]?).map fun s =>
    if p = i then { s with children := s.children.filter f.isLive ++ [c] } else s := by
  simp [link, List.getElem?_modify]

@[simp] theorem length_link : (f.link p c).scopes.length = f.scopes.length := by simp [link]

@[simp] theorem reason?_link : (f.link p c).reason? i = f.reason? i := by
  rw [reason?, getElem?_link, reason?]
  cases f.scopes[i]? with
  | none => rfl
  | some s => by_cases e : p = i <;> simp [e]

@[simp] theorem isCancelled_link : (f.link p c).isCancelled i = f.isCancelled i := by
  rw [isCancelled, getElem?_link, isCancelled]
  cases f.scopes[i]? with
  | none => rfl
  | some s => by_cases e : p = i <;> simp [e]

theorem mem_children_link {d : Nat} : d ∈ (f.link p c).children i ↔
    if i = p then p < f.scopes.length ∧ (d = c ∨ d ∈ f.children p ∧ f.isLive d = true) else d ∈ f.children i := by
  rw [children, getElem?_link]
  by_cases hi : i < f.scopes.length
  · by_cases e : i = p
    · subst e
      simp [children, hi, or_comm]
    · simp [children, hi, e, Ne.symm e]
  · have hnone : f.scopes[i]? = none := List.getElem?_eq_none (Nat.le_of_not_lt hi)
    by_cases e : i = p
    · subst e
      simp [hi]
    · simp [children, hnone, e]

theorem Sound.link (h : f.Sound) (hp : f.isCancelled p = false) (hpc : p < c) (hc : c < f.scopes.length) :
    (f.link p c).Sound where
  reasoned i := by rw [isCancelled_link, reason?_link, h.reasoned]
  released i hi := by
    rw [isCancelled_link] at hi
    have e : i ≠ p := fun e => by rw [e, hp] at hi; cases hi
    refine List.eq_nil_iff_forall_not_mem.2 fun d hd => ?_
    rw [mem_children_link, if_neg e, h.released i hi] at hd
    cases hd
  later i d hd := by
    rw [mem_children_link] at hd
    rw [length_link]
    split at hd
    · rename_i e
      subst e
      rcases hd.2 with rfl | hd
      · exact ⟨hpc, hc⟩
      · exact h.later i d hd.1
    · exact h.later i d hd
  handles i hi := by
    rw [length_link]
    exact h.handles i hi
  waits w hw := by
    rw [length_link, isCancelled_link]
    exact h.waits w hw

/-! ### One operation -/

theorem Sound.derive (h : f.Sound) (hs : s < f.scopes.length) : (f.derive s).Sound := by
  rw [Forest.derive]
  split
  · exact h.addScope.cancelAll _
  · rename_i hc
    refine h.addScope.link ?_ hs (by simp)
    rw [isCancelled_congr (getElem?_addScope_of_lt hs)]
    simpa using hc

theorem Sound.step (h : f.Sound) (hg : f.step op = some g) : g.Sound := by
  cases op with
  | new =>
    obtain rfl := Option.some.inj hg
    exact h.addScope
  | child handle =>
    obtain ⟨s, hs, rfl⟩ := Option.map_eq_some_iff.1 hg
    exact h.derive (h.handles s (mem_handles_of_scopeOf? hs))
  | clone handle =>
    obtain ⟨s, hs, rfl⟩ := Option.map_eq_some_iff.1 hg
    refine { h with handles := fun i hi => ?_ }
    rcases List.mem_append.1 hi with hi | hi
    · exact h.handles i hi
    · exact h.handles i (List.mem_singleton.1 hi ▸ mem_handles_of_scopeOf? hs)
  | cancel handle reason =>
    obtain ⟨s, hs, rfl⟩ := Option.map_eq_some_iff.1 hg
    exact h.cancelAll _
  | drop handle =>
    obtain ⟨s, hs, rfl⟩ := Option.map_eq_some_iff.1 hg
    refine { h with handles := fun i hi => ?_ }
    rcases List.mem_or_eq_of_mem_set hi with hi | hi
    · exact h.handles i hi
    · cases hi
  | wait handle =>
    obtain ⟨s, hs, rfl⟩ := Option.map_eq_some_iff.1 hg
    refine { h with waits := fun w hw => ?_ }
    rcases List.mem_append.1 hw with hw | hw
    · exact h.waits w hw
    · rw [List.mem_singleton.1 hw]
      exact ⟨h.handles s (mem_handles_of_scopeOf? hs), rfl⟩

/-- A scope derived from a cancelled one is struck at its birth, and nothing else is. -/
theorem getElem?_derive_of_isCancelled (h : f.Sound) (hr : f.reason? s = some reason) (i : Nat) :
    (i = f.scopes.length → (f.derive s).scopes[i]? = some ⟨true, some reason, []⟩) ∧
      (i ≠ f.scopes.length → (f.derive s).scopes[i]? = f.scopes[i]?) := by
  have hnew := of_new (getElem?_addScope_new f)
  have e : f.derive s = f.addScope.cancelAll reason [f.scopes.length] := by
    rw [derive, if_pos (h.isCancelled_of_reason? hr), hr, cancelScope, Option.getD_some]
  rw [e]
  obtain ⟨hstruck, hother⟩ := getElem?_cancelAll h.addScope reason [f.scopes.length] i
  constructor
  · rintro rfl
    exact hstruck ⟨isOpen_iff.2 ⟨by simp, hnew.1⟩, _, List.mem_singleton_self _, .refl⟩
  · intro hi
    rw [hother]
    · exact (addScope_cases f i).resolve_right fun hi' => hi hi'.1
    · rintro ⟨_, c, hc, hreach⟩
      rw [List.mem_singleton.1 hc] at hreach
      exact hi (hreach.eq_of_children hnew.2.2)

theorem derive_of_not_isCancelled (hc : f.isCancelled s = false) :
    f.derive s = f.addScope.link s f.scopes.length := by
  rw [derive, if_neg (by simp [hc])]

/-- A scope is born as the one that it is derived from. -/
theorem reason?_derive (h : f.Sound) : (f.derive s).reason? f.scopes.length = f.reason? s := by
  cases hr : f.reason? s with
  | some reason => exact (of_struck ((getElem?_derive_of_isCancelled h hr _).1 rfl)).1
  | none =>
    rw [derive_of_not_isCancelled (h.isCancelled_eq_false.2 hr), reason?_link]
    exact (of_new (getElem?_addScope_new f)).1

theorem handles_derive : (f.derive s).handles = f.handles ++ [some f.scopes.length] := by
  rw [derive]
  split
  · exact handles_cancelAll _ _
  · rfl

/-- A scope that is cancelled keeps its reason, whatever is done. -/
theorem reason?_step (h : f.Sound) (hg : f.step op = some g) (hr : f.reason? i = some reason) :
    g.reason? i = some reason := by
  have hlt : i < f.scopes.length := by
    by_contra hge
    simp [reason?, hge] at hr
  have hopen {f' : Forest} (e : f'.reason? i = some reason) : ¬ f'.isOpen i = true := by
    rw [isOpen_iff, e]
    simp
  have hadd : f.addScope.reason? i = some reason := by rwa [reason?_congr (getElem?_addScope_of_lt hlt)]
  cases op with
  | new =>
    obtain rfl := Option.some.inj hg
    exact hadd
  | child handle =>
    obtain ⟨s, hs, rfl⟩ := Option.map_eq_some_iff.1 hg
    rw [derive]
    split
    · rwa [cancelScope, reason?_congr ((getElem?_cancelAll h.addScope _ _ i).2 fun hs => hopen hadd hs.1)]
    · rwa [reason?_link]
  | cancel handle reason' =>
    obtain ⟨s, hs, rfl⟩ := Option.map_eq_some_iff.1 hg
    rwa [cancelScope, reason?_congr ((getElem?_cancelAll h _ _ i).2 fun hs => hopen hr hs.1)]
  | clone handle | drop handle | wait handle =>
    obtain ⟨s, hs, rfl⟩ := Option.map_eq_some_iff.1 hg
    exact hr

/-- A scope that nobody holds any more is never held again. -/
theorem isLive_of_step (hg : f.step op = some g) (hi : i < f.scopes.length) (hl : g.isLive i = true) :
    f.isLive i = true := by
  cases op with
  | new =>
    obtain rfl := Option.some.inj hg
    exact isLive_of_addScope hl hi
  | child handle =>
    obtain ⟨s, hs, rfl⟩ := Option.map_eq_some_iff.1 hg
    rw [derive] at hl
    split at hl
    · exact isLive_of_addScope (isLive_of_cancelAll hl) hi
    · exact isLive_of_addScope hl hi
  | clone handle =>
    obtain ⟨s, hs, rfl⟩ := Option.map_eq_some_iff.1 hg
    rw [isLive_iff] at hl ⊢
    refine hl.imp_left fun hl => ?_
    rcases List.mem_append.1 hl with hl | hl
    · exact hl
    · exact List.mem_singleton.1 hl ▸ mem_handles_of_scopeOf? hs
  | cancel handle reason =>
    obtain ⟨s, hs, rfl⟩ := Option.map_eq_some_iff.1 hg
    exact isLive_of_cancelAll hl
  | drop handle =>
    obtain ⟨s, hs, rfl⟩ := Option.map_eq_some_iff.1 hg
    rw [isLive_iff] at hl ⊢
    exact hl.imp_left fun hl => (List.mem_or_eq_of_mem_set hl).resolve_right (by simp)
  | wait handle =>
    obtain ⟨s, hs, rfl⟩ := Option.map_eq_some_iff.1 hg
    rw [isLive_iff] at hl
    rcases hl with hl | ⟨w, hw, rfl, hwoken⟩
    · exact isLive_iff.2 (.inl hl)
    · rcases List.mem_append.1 hw with hw | hw
      · exact isLive_iff.2 (.inr ⟨w, hw, rfl, hwoken⟩)
      · rw [List.mem_singleton.1 hw]
        exact isLive_of_scopeOf? hs

/-! ### Operations in turn -/

theorem Sound.empty : empty.Sound where
  reasoned i := by simp [isCancelled, reason?, Forest.empty]
  released i hi := by simp [isCancelled, Forest.empty] at hi
  later i c hc := by simp [children, Forest.empty] at hc
  handles i hi := by cases hi
  waits w hw := by cases hw

theorem Sound.run (h : f.Sound) (hg : f.run ops = some g) : g.Sound :=
  foldlM_induction (P := fun _ g => g.Sound) h (fun _ _ _ _ _ h hg => h.step hg) hg

theorem reason?_run (h : f.Sound) (hg : f.run ops = some g) (hr : f.reason? i = some reason) :
    g.reason? i = some reason :=
  foldlM_induction (P := fun _ g => g.reason? i = some reason) hr
    (fun _ _ _ _ hg hr hg' => reason?_step (h.run hg) hg' hr) hg

end StageTree.Forest

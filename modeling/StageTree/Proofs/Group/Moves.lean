import StageTree.Group.Basic
import StageTree.Proofs.Group.Join
import StageTree.Proofs.Scope.Operations

/-! What one move of a group does, to its tasks and to its scope. The group holds its scope as long as it
lasts, so that a reason which that scope once has is there to stay. -/

namespace StageTree

/-- The scope of a handle that is not given up stays the same. -/
theorem Forest.scopeOf?_step {f f' : Forest} {op : ScopeOp} {handle s : Nat} (hf : f.step op = some f')
    (hs : f.scopeOf? handle = some s) (hop : op ≠ .drop handle) : f'.scopeOf? handle = some s := by
  have hget : f.handles[handle]? = some (some s) := by rwa [scopeOf?, Option.join_eq_some_iff] at hs
  have hlt : handle < f.handles.length := (List.getElem?_eq_some_iff.1 hget).1
  have happend (l : List (Option Nat)) : (f.handles ++ l)[handle]? = some (some s) := by
    rwa [List.getElem?_append_left hlt]
  rw [scopeOf?, Option.join_eq_some_iff]
  cases op with
  | new =>
    obtain rfl := Option.some.inj hf
    exact happend _
  | child h =>
    obtain ⟨t, _, rfl⟩ := Option.map_eq_some_iff.1 hf
    rw [handles_derive]
    exact happend _
  | clone h =>
    obtain ⟨t, _, rfl⟩ := Option.map_eq_some_iff.1 hf
    exact happend _
  | cancel h reason =>
    obtain ⟨t, _, rfl⟩ := Option.map_eq_some_iff.1 hf
    rwa [cancelScope, handles_cancelAll]
  | drop h =>
    obtain ⟨t, _, rfl⟩ := Option.map_eq_some_iff.1 hf
    have hne : h ≠ handle := fun e => hop (by rw [e])
    rwa [List.getElem?_set_ne hne]
  | wait h =>
    obtain ⟨t, _, rfl⟩ := Option.map_eq_some_iff.1 hf
    exact hget

theorem TaskEnd.report_index {α : Type} (index : Nat) (name : String) (how : TaskEnd α) :
    (how.report index name).index = index := by cases how <;> rfl

theorem TaskEnd.report_name {α : Type} (index : Nat) (name : String) (how : TaskEnd α) :
    (how.report index name).name = name := by cases how <;> rfl

namespace TaskGroup

variable {α : Type} {g g' : TaskGroup α} {move : GroupMove α} {moves : List (GroupMove α)} {i c : Nat}
  {r : Report α} {reason name : String} {how : TaskEnd α}

/-! ### One move -/

/-- What a group can do. -/
inductive Moved (g : TaskGroup α) : GroupMove α → TaskGroup α → Prop
  | spawn {name : String} (hd : g.dropped = false) :
      Moved g (.spawn name) { g with tasks := g.tasks ++ [{ name }] }
  | scope {op : ScopeOp} {f : Forest} (hop : op ≠ .drop g.scope) (hf : g.forest.step op = some f) :
      Moved g (.scope op) { g with forest := f }
  | work {i : Nat} {op : ScopeOp} {f : Forest} (hop : op ≠ .drop g.scope) (hf : g.forest.step op = some f) :
      Moved g (.work i op) { g with forest := f }
  | finish {i : Nat} {name : String} {how : TaskEnd α} (ht : g.tasks[i]? = some ⟨name, .running⟩) :
      Moved g (.finish i how) { g with tasks := g.tasks.set i ⟨name, .ended how⟩ }
  | join {i : Nat} {name : String} {how : TaskEnd α} (ht : g.tasks[i]? = some ⟨name, .ended how⟩)
      (hd : g.dropped = false) : Moved g (.join i) (g.joinReport (how.report i name))
  | drop (hd : g.dropped = false) (ho : g.openCount = 0) : Moved g .drop { g with dropped := true }
  | tearDown (hd : g.dropped = false) (ho : g.openCount ≠ 0) : Moved g .drop
      (cancel { g with dropped := true, tasks := g.tasks.map GroupTask.tearDown } dropReason)

theorem operate_eq_some {op : ScopeOp} (h : g.operate op = some g') :
    op ≠ .drop g.scope ∧ ∃ f, g.forest.step op = some f ∧ g' = { g with forest := f } := by
  rw [operate] at h
  split at h
  · cases h
  · obtain ⟨f, hf, rfl⟩ := Option.map_eq_some_iff.1 h
    exact ⟨‹_›, f, hf, rfl⟩

theorem moved_of_step (h : g.step move = some g') : g.Moved move g' := by
  cases move with
  | spawn name =>
    rw [step] at h
    split at h
    · cases h
    · obtain rfl := Option.some.inj h
      exact .spawn (eq_false_of_ne_true ‹_›)
  | scope op =>
    obtain ⟨hop, f, hf, rfl⟩ := operate_eq_some h
    exact .scope hop hf
  | work i op =>
    rw [step] at h
    split at h
    · obtain ⟨hop, f, hf, rfl⟩ := operate_eq_some h
      exact .work hop hf
    · cases h
  | finish i how =>
    rw [step] at h
    split at h
    · obtain rfl := Option.some.inj h
      exact .finish ‹_›
    · cases h
  | join i =>
    rw [step] at h
    split at h
    · split at h
      · cases h
      · obtain rfl := Option.some.inj h
        exact .join ‹_› (eq_false_of_ne_true ‹_›)
    · cases h
  | drop =>
    rw [step] at h
    split at h
    · cases h
    · have hd := eq_false_of_ne_true ‹¬ g.dropped = true›
      split at h
      · obtain rfl := Option.some.inj h
        exact .drop hd ‹_›
      · obtain rfl := Option.some.inj h
        exact .tearDown hd ‹_›

/-! ### The scope of a group -/

/-- A group whose scope was derived from another one and is held by it. -/
structure Scoped (g : TaskGroup α) (p c : Nat) : Prop where
  sound : g.forest.Sound
  held : g.forest.scopeOf? g.scope = some c
  later : p < c

/-- The cancellation of a group is the one of its scope. -/
theorem cancel_eq (hs : g.forest.scopeOf? g.scope = some c) (reason : String) :
    g.cancel reason = { g with forest := g.forest.cancelScope c reason } := by
  have hf : g.forest.step (.cancel g.scope reason) = some (g.forest.cancelScope c reason) := by
    rw [Forest.step, hs, Option.map_some]
  rw [cancel, hf]

theorem cancel_cases (g : TaskGroup α) (reason : String) : ∃ f, g.cancel reason = { g with forest := f } := by
  rw [cancel]
  split
  · exact ⟨_, rfl⟩
  · exact ⟨g.forest, rfl⟩

/-- What tearing a group down comes to. -/
theorem tearDown_cases (g : TaskGroup α) :
    ∃ f, cancel { g with dropped := true, tasks := g.tasks.map GroupTask.tearDown } dropReason =
      { g with forest := f, dropped := true, tasks := g.tasks.map GroupTask.tearDown } :=
  cancel_cases _ dropReason

theorem joinReport_cases {state : TaskState α} (ht : g.tasks[i]? = some ⟨name, state⟩) (how : TaskEnd α) :
    ∃ forest hook told, g.joinReport (how.report i name) =
      { g with
        forest, hook, told
        tasks := g.tasks.set i ⟨name, .joined⟩
        join := g.join.add g.failFast g.reason? (how.report i name) } := by
  have htasks : (g.tasks.modify i fun t => { t with state := .joined }) = g.tasks.set i ⟨name, .joined⟩ := by
    refine List.ext_getElem? fun j => ?_
    rw [List.getElem?_modify]
    by_cases e : i = j
    · subst e
      rw [List.getElem?_set_self (List.getElem?_eq_some_iff.1 ht).1, ht]
      simp
    · rw [List.getElem?_set_ne e]
      simp [e]
  rw [joinReport, TaskEnd.report_index, htasks]
  split
  · obtain ⟨f, hf⟩ := cancel_cases { g with
      tasks := g.tasks.set i ⟨name, .joined⟩
      join := g.join.add g.failFast g.reason? (how.report i name) }
      (Join.failureReason (how.report i name).name)
    rw [hf, tell]
    split <;> exact ⟨_, _, _, rfl⟩
  · exact ⟨_, _, _, rfl⟩

theorem joinReport_of_cancels (hs : g.forest.scopeOf? g.scope = some c)
    (h : Join.cancels g.failFast g.reason? r = true) : g.joinReport r =
      { g with
        forest := g.forest.cancelScope c (Join.failureReason r.name)
        hook := false
        told := g.told ++ if g.hook then [r.name] else []
        tasks := g.tasks.modify r.index fun t => { t with state := .joined }
        join := g.join.add g.failFast g.reason? r } := by
  have hcancel := cancel_eq (g := { g with
    tasks := g.tasks.modify r.index fun t => { t with state := .joined }
    join := g.join.add g.failFast g.reason? r }) hs (Join.failureReason r.name)
  rw [joinReport, if_pos h, hcancel, tell]
  cases g.hook <;> simp

theorem joinReport_of_not_cancels (h : Join.cancels g.failFast g.reason? r = false) : g.joinReport r =
      { g with
        tasks := g.tasks.modify r.index fun t => { t with state := .joined }
        join := g.join.add g.failFast g.reason? r } := by
  rw [joinReport, if_neg (by simp [h])]

namespace Scoped

variable {p : Nat}

theorem reason?_eq (h : g.Scoped p c) : g.reason? = g.forest.reason? c := by
  rw [reason?, h.held, Option.bind_some]

theorem cancelScope (h : g.Scoped p c) (reason : String) :
    (g.forest.cancelScope c reason).Sound ∧ (g.forest.cancelScope c reason).scopeOf? g.scope = some c := by
  refine ⟨h.sound.cancelAll _, ?_⟩
  rw [Forest.scopeOf?, Forest.cancelScope, Forest.handles_cancelAll]
  exact h.held

theorem operate (h : g.Scoped p c) {op : ScopeOp} {f : Forest} (hop : op ≠ .drop g.scope)
    (hf : g.forest.step op = some f) : ({ g with forest := f } : TaskGroup α).Scoped p c :=
  ⟨h.sound.step hf, Forest.scopeOf?_step hf h.held hop, h.later⟩

theorem joinReport (h : g.Scoped p c) (r : Report α) : (g.joinReport r).Scoped p c := by
  cases hc : Join.cancels g.failFast g.reason? r with
  | true =>
    rw [joinReport_of_cancels h.held hc]
    exact ⟨(h.cancelScope _).1, (h.cancelScope _).2, h.later⟩
  | false =>
    rw [joinReport_of_not_cancels hc]
    exact ⟨h.sound, h.held, h.later⟩

theorem moved (h : g.Scoped p c) (hm : g.Moved move g') : g'.Scoped p c := by
  cases hm with
  | spawn | finish | drop => exact ⟨h.sound, h.held, h.later⟩
  | scope hop hf | work hop hf => exact h.operate hop hf
  | join => exact h.joinReport _
  | tearDown =>
    rw [cancel_eq (g := { g with dropped := true, tasks := _ }) h.held]
    exact ⟨(h.cancelScope _).1, (h.cancelScope _).2, h.later⟩

/-- A reason stands whatever the group does. -/
theorem reason?_moved (h : g.Scoped p c) (hm : g.Moved move g') (hr : g.reason? = some reason) :
    g'.reason? = some reason := by
  rw [h.reason?_eq] at hr
  rw [(h.moved hm).reason?_eq]
  have hcancel (reason' : String) : (g.forest.cancelScope c reason').reason? c = some reason := by
    have hstep : g.forest.step (.cancel g.scope reason') = some (g.forest.cancelScope c reason') := by
      rw [Forest.step, h.held, Option.map_some]
    exact Forest.reason?_step h.sound hstep hr
  cases hm with
  | spawn | finish | drop => exact hr
  | scope hop hf | work hop hf => exact Forest.reason?_step h.sound hf hr
  | @join i name how =>
    cases hc : Join.cancels g.failFast g.reason? (how.report i name) with
    | true =>
      rw [joinReport_of_cancels h.held hc]
      exact hcancel _
    | false =>
      rw [joinReport_of_not_cancels hc]
      exact hr
  | tearDown =>
    rw [cancel_eq (g := { g with dropped := true, tasks := _ }) h.held]
    exact hcancel _

/-- A live scope is cancelled by the join that the group fails fast at, and by no other. -/
theorem reason?_joinReport (h : g.Scoped p c) (hr : g.reason? = none) : (g.joinReport r).reason? =
    if Join.cancels g.failFast g.reason? r then some (Join.failureReason r.name) else none := by
  rw [(h.joinReport r).reason?_eq]
  rw [h.reason?_eq] at hr
  cases hc : Join.cancels g.failFast g.reason? r with
  | true =>
    rw [joinReport_of_cancels h.held hc, if_pos rfl]
    have hopen : g.forest.isOpen c = true :=
      Forest.isOpen_iff.2 ⟨h.sound.handles c (Forest.mem_handles_of_scopeOf? h.held), hr⟩
    exact (Forest.of_struck ((Forest.getElem?_cancelAll h.sound _ [c] c).1
      ⟨hopen, c, List.mem_singleton_self c, .refl⟩)).1
  | false =>
    rw [joinReport_of_not_cancels hc]
    exact hr

/-- The scope that the group was made under is left alone when a task is joined. -/
theorem parent_joinReport (h : g.Scoped p c) (r : Report α) :
    (g.joinReport r).forest.scopes[p]? = g.forest.scopes[p]? := by
  cases hc : Join.cancels g.failFast g.reason? r with
  | true =>
    rw [joinReport_of_cancels h.held hc]
    refine (Forest.getElem?_cancelAll h.sound _ [c] p).2 ?_
    rintro ⟨_, s, hs, hreach⟩
    rw [List.mem_singleton.1 hs] at hreach
    exact Nat.not_lt_of_le (h.sound.le_of_reaches hreach) h.later
  | false => rw [joinReport_of_not_cancels hc]

end Scoped

theorem scoped_of_under {f : Forest} {parent p : Nat} {failFast hook : Bool} (hf : f.Sound)
    (hp : f.scopeOf? parent = some p) (h : under f parent failFast hook = some g) :
    g.Scoped p f.scopes.length := by
  obtain ⟨f', hf', rfl⟩ := Option.map_eq_some_iff.1 h
  have hsound := hf.step hf'
  obtain ⟨s, hs, rfl⟩ := Option.map_eq_some_iff.1 hf'
  refine ⟨hsound, ?_, hf.handles p (Forest.mem_handles_of_scopeOf? hp)⟩
  rw [Forest.scopeOf?, Forest.handles_derive]
  simp

/-! ### Moves in turn -/

theorem Scoped.run {p : Nat} (h : g.Scoped p c) (hrun : g.run moves = some g') : g'.Scoped p c :=
  foldlM_induction (P := fun _ g => g.Scoped p c) h (fun _ _ _ _ _ h hs => h.moved (moved_of_step hs)) hrun

end TaskGroup

end StageTree

import StageTree.Proofs.Group.Outcome
import StageTree.Proofs.Scope.Lineage

/-! A group that goes away. What a group does with scopes is told as operations on them, so that all that is
known of scopes and those derived from them is known of the scope of a group and those its tasks derive. A group
that has not joined all of its tasks cancels its scope and with it what is still held below, and nothing else;
its tasks are over. A group that has joined them leaves everything as it is. -/

namespace StageTree

open Relation (ReflTransGen)

/-- Why a scope is cancelled once a cancellation has come to it: for the reason that it had, or for this one. -/
theorem Forest.reason?_cancelScope {f : Forest} {s i : Nat} (h : f.Sound) (hs : s < f.scopes.length) (reason : String)
    (hi : f.isCancelled i = true ∨ f.Reaches s i) :
    (f.cancelScope s reason).reason? i = some ((f.reason? i).getD reason) := by
  obtain ⟨hstruck, hother⟩ := getElem?_cancelAll h reason [s] i
  cases hr : f.reason? i with
  | some before =>
    have hnot : ¬ f.Strikes [s] i := fun hstrikes => by
      have := (isOpen_iff.1 hstrikes.1).2
      rw [hr] at this
      cases this
    rw [cancelScope, reason?_congr (hother hnot), hr, Option.getD_some]
  | none =>
    have hreach : f.Reaches s i := hi.resolve_left (by rw [h.isCancelled_eq_false.2 hr]; exact Bool.false_ne_true)
    have hlt : i < f.scopes.length := by
      cases hreach with
      | refl => exact hs
      | link _ hc _ => exact (h.later _ _ hc).2
    rw [cancelScope, (of_struck (hstruck ⟨isOpen_iff.2 ⟨hlt, hr⟩, s, List.mem_singleton_self s, hreach⟩)).1,
      Option.getD_none]

/-- A cancellation of a scope comes to what is held below it, unless that is cancelled already. -/
theorem Forest.Traced.isCancelled_or_reaches {ops : List ScopeOp} {f : Forest} {s i : Nat} (h : Traced ops f)
    (hway : ReflTransGen (fun p c => Derived ops p c ∧ f.isLive c = true) s i) :
    f.isCancelled i = true ∨ f.Reaches s i := by
  cases hc : f.isCancelled i with
  | true => exact .inl rfl
  | false => exact .inr ((h.reaches_iff hc).2 hway)

theorem Forest.run_singleton {f f' : Forest} {op : ScopeOp} (h : f.step op = some f') : f.run [op] = some f' := by
  rw [run, List.foldlM_cons, h]
  rfl

namespace TaskGroup

variable {α : Type} {g g' g₀ : TaskGroup α} {move : GroupMove α} {moves : List (GroupMove α)} {p c : Nat}

/-! ### Moves as operations on scopes -/

def operations (g : TaskGroup α) : GroupMove α → List ScopeOp
  | .scope op | .work _ op => [op]
  | .join i =>
    match g.tasks[i]? with
    | some { name, state := .ended how } =>
      if Join.cancels g.failFast g.reason? (how.report i name) then [.cancel g.scope (Join.failureReason name)]
      else []
    | _ => []
  | .drop => if g.openCount = 0 then [] else [.cancel g.scope dropReason]
  | .spawn _ | .finish _ _ => []

def history (g : TaskGroup α) : List (GroupMove α) → List ScopeOp
  | [] => []
  | move :: moves => g.operations move ++ (g.step move).elim [] fun g' => g'.history moves

theorem Scoped.step_cancel (h : g.Scoped p c) (reason : String) :
    g.forest.step (.cancel g.scope reason) = some (g.forest.cancelScope c reason) := by
  rw [Forest.step, h.held, Option.map_some]

theorem Scoped.run_operations (h : g.Scoped p c) (hm : g.Moved move g') :
    g.forest.run (g.operations move) = some g'.forest := by
  cases hm with
  | spawn | finish => rfl
  | scope hop hf | work hop hf => exact Forest.run_singleton hf
  | @join i name how ht =>
    cases hc : Join.cancels g.failFast g.reason? (how.report i name) with
    | true =>
      simp only [operations, ht, hc, if_true]
      rw [joinReport_of_cancels h.held hc, TaskEnd.report_name]
      exact Forest.run_singleton (h.step_cancel _)
    | false =>
      simp only [operations, ht, hc]
      rw [joinReport_of_not_cancels hc]
      rfl
  | drop hd ho =>
    rw [operations, if_pos ho]
    rfl
  | tearDown hd ho =>
    rw [operations, if_neg ho, cancel_eq (g := { g with dropped := true, tasks := _ }) h.held]
    exact Forest.run_singleton (h.step_cancel _)

theorem Scoped.run_history (h : g.Scoped p c) (hrun : g.run moves = some g') :
    g.forest.run (g.history moves) = some g'.forest := by
  induction moves generalizing g with
  | nil =>
    obtain rfl := Option.some.inj hrun
    rfl
  | cons move moves ih =>
    rw [TaskGroup.run, List.foldlM_cons] at hrun
    obtain ⟨g₁, hstep, hrun⟩ := Option.bind_eq_some_iff.1 hrun
    have hm := moved_of_step hstep
    rw [history, hstep, Forest.run, List.foldlM_append, ← Forest.run, h.run_operations hm]
    exact ih (h.moved hm) hrun

/-- The scopes of a group come from operations in turn. -/
theorem run_from_start {ops : List ScopeOp} {f : Forest} {parent : Nat} {failFast hook : Bool}
    (hf : Forest.empty.run ops = some f) (hp : f.scopeOf? parent = some p)
    (hu : under f parent failFast hook = some g₀) (h : g₀.run moves = some g) :
    Forest.empty.run (ops ++ .child parent :: g₀.history moves) = some g.forest := by
  have hs := scoped_of_under (Forest.Sound.empty.run hf) hp hu
  obtain ⟨f', hstep, rfl⟩ := Option.map_eq_some_iff.1 hu
  rw [Forest.run, List.foldlM_append, ← Forest.run, hf]
  show List.foldlM Forest.step f _ = _
  rw [List.foldlM_cons, hstep]
  exact hs.run_history h

/-! ### Tasks that are over -/

/-- That a group has gone away and none of its tasks is left. -/
structure Over (g : TaskGroup α) : Prop where
  dropped : g.dropped = true
  closed : ∀ t ∈ g.tasks, t.isOpen = false

/-- Once the group is over only others do something. -/
theorem Over.step (h : g.Over) (hm : g.step move = some g') :
    ∃ op f, move = .scope op ∧ g.forest.step op = some f ∧ g' = { g with forest := f } := by
  have hidle {i : Nat} {t : GroupTask α} (ht : g.tasks[i]? = some t) (ho : t.isOpen = true) : False := by
    rw [h.closed t (List.mem_of_getElem? ht)] at ho
    cases ho
  cases move with
  | scope op =>
    obtain ⟨_, f, hf, rfl⟩ := operate_eq_some hm
    exact ⟨op, f, rfl, hf, rfl⟩
  | work i op =>
    rw [TaskGroup.step] at hm
    split at hm
    · exact (hidle ‹_› rfl).elim
    · cases hm
  | spawn name | drop => simp [TaskGroup.step, h.dropped] at hm
  | finish i how =>
    cases moved_of_step hm with
    | finish ht => exact (hidle ht rfl).elim
  | join i =>
    cases moved_of_step hm with
    | join ht => exact (hidle ht rfl).elim

theorem Over.run (h : g.Over) (hrun : g.run moves = some g') :
    (∀ move ∈ moves, ∃ op, move = .scope op) ∧ ∃ f, g' = { g with forest := f } := by
  refine foldlM_induction (P := fun moves g' =>
    (∀ move ∈ moves, ∃ op, move = .scope op) ∧ ∃ f, g' = { g with forest := f }) ⟨by simp, g.forest, rfl⟩ ?_ hrun
  rintro before move _ g'' _ ⟨hbefore, f, rfl⟩ hm
  obtain ⟨op, f', rfl, _, rfl⟩ := Over.step (g := { g with forest := f }) ⟨h.dropped, h.closed⟩ hm
  refine ⟨fun move hmove => ?_, f', rfl⟩
  rcases List.mem_append.1 hmove with hmove | hmove
  · exact hbefore move hmove
  · exact ⟨op, List.mem_singleton.1 hmove⟩

theorem isOpen_tearDown (t : GroupTask α) : t.tearDown.isOpen = false := by
  rw [GroupTask.tearDown]
  split
  · rfl
  · exact eq_false_of_ne_true ‹_›

/-- A task that was neither joined nor torn down is torn down. -/
theorem tearDown_of_not_joined {t : GroupTask α} (hjoined : t.state ≠ .joined) (haborted : t.state ≠ .aborted) :
    t.tearDown = ⟨t.name, .aborted⟩ := by
  obtain ⟨name, state⟩ := t
  cases state with
  | running | ended => rfl
  | joined => exact absurd rfl hjoined
  | aborted => exact absurd rfl haborted

/-! ### A group that goes away -/

/-- What comes of a group, from `g` to `g'`, that goes away with a task not joined. Its scope `c` was derived from
the scope `p`. -/
structure Abandoned (derived : Nat → Nat → Prop) (p c : Nat) (g g' : TaskGroup α) : Prop where
  reason : g'.reason? = some (g.reason?.getD dropReason)
  /-- The scopes derived from the one of the group through scopes still held are cancelled too. -/
  below : ∀ i, ReflTransGen (fun s t => derived s t ∧ g.forest.isLive t = true) c i →
    g'.forest.isCancelled i = true ∧ g'.forest.reason? i = some ((g.forest.reason? i).getD dropReason)
  parent : g'.forest.scopes[p]? = g.forest.scopes[p]?
  beside : ∀ b i, derived p b → b ≠ c → ReflTransGen derived b i → g'.forest.scopes[i]? = g.forest.scopes[i]?
  apart : ∀ i, ¬ ReflTransGen derived c i → g'.forest.scopes[i]? = g.forest.scopes[i]?
  handles : g'.forest.handles = g.forest.handles
  joined : ∀ (i : Nat) name, g.tasks[i]? = some ⟨name, .joined⟩ → g'.tasks[i]? = some ⟨name, .joined⟩
  aborted : ∀ (i : Nat) t, g.tasks[i]? = some t → t.state ≠ .joined → g'.tasks[i]? = some ⟨t.name, .aborted⟩
  /-- Whatever happens next, no task has part in it, and what is cancelled is so for the same reason. -/
  idle : ∀ later h, g'.run later = some h →
    (∀ move ∈ later, ∃ op, move = .scope op) ∧ (∃ f, h = { g' with forest := f }) ∧
      ∀ i reason, g'.forest.reason? i = some reason → h.forest.reason? i = some reason

/-- The group after it goes away with tasks that are not joined. -/
def torn (g : TaskGroup α) : TaskGroup α :=
  cancel { g with dropped := true, tasks := g.tasks.map GroupTask.tearDown } dropReason

theorem Scoped.torn_eq (h : g.Scoped p c) : g.torn =
    { g with
      forest := g.forest.cancelScope c dropReason
      dropped := true
      tasks := g.tasks.map GroupTask.tearDown } :=
  cancel_eq (g := { g with dropped := true, tasks := g.tasks.map GroupTask.tearDown }) h.held _

theorem Scoped.over_torn (h : g.Scoped p c) : g.torn.Over := by
  rw [h.torn_eq]
  refine ⟨rfl, fun t ht => ?_⟩
  obtain ⟨t, _, rfl⟩ := List.mem_map.1 ht
  exact isOpen_tearDown t

theorem Scoped.abandoned (h : g.Scoped p c) {ops : List ScopeOp} (ht : Forest.Traced ops g.forest)
    (hd : Forest.Derived ops p c) (hwhole : ∀ t ∈ g.tasks, t.state ≠ .aborted) :
    Abandoned (Forest.Derived ops) p c g g.torn := by
  have hlt := h.sound.handles c (Forest.mem_handles_of_scopeOf? h.held)
  have hsound : (g.forest.cancelScope c dropReason).Sound := h.sound.cancelAll _
  have hreason {i : Nat} (hi : g.forest.isCancelled i = true ∨ g.forest.Reaches c i) :=
    Forest.reason?_cancelScope h.sound hlt dropReason hi
  have happart {i : Nat} (hi : ¬ ReflTransGen (Forest.Derived ops) c i) :
      (g.forest.cancelScope c dropReason).scopes[i]? = g.forest.scopes[i]? := by
    refine (Forest.getElem?_cancelAll h.sound _ [c] i).2 ?_
    rintro ⟨_, s, hs, hreach⟩
    rw [List.mem_singleton.1 hs] at hreach
    exact hi (ht.derived_of_reaches hreach)
  have hscoped : g.torn.Scoped p c := by
    rw [h.torn_eq]
    exact ⟨hsound, (h.cancelScope _).2, h.later⟩
  constructor
  case reason =>
    rw [hscoped.reason?_eq, h.reason?_eq, h.torn_eq]
    exact hreason (.inr .refl)
  case below =>
    intro i hway
    have hi := hreason (ht.isCancelled_or_reaches hway)
    rw [h.torn_eq]
    exact ⟨hsound.isCancelled_of_reason? hi, hi⟩
  case parent =>
    rw [h.torn_eq]
    exact happart fun hcp => Nat.not_lt_of_le (ht.le_of_reflTransGen hcp) h.later
  case beside =>
    intro b i hb hne hi
    rw [h.torn_eq]
    exact happart (ht.not_derived_of_sibling hd hb hne hi)
  case apart =>
    rw [h.torn_eq]
    exact fun i => happart
  case handles =>
    rw [h.torn_eq]
    exact Forest.handles_cancelAll _ _
  case joined =>
    intro i name hi
    rw [h.torn_eq, List.getElem?_map, hi]
    rfl
  case aborted =>
    intro i t hi hjoined
    rw [h.torn_eq, List.getElem?_map, hi, Option.map_some,
      tearDown_of_not_joined hjoined (hwhole t (List.mem_of_getElem? hi))]
  case idle =>
    intro later g' hrun
    obtain ⟨honly, hsame⟩ := h.over_torn.run hrun
    exact ⟨honly, hsame, fun i reason hr => Forest.reason?_run hscoped.sound (hscoped.run_history hrun) hr⟩

/-- A group can go away at any moment, also while its tasks are joined one after the other. If one of them is not
joined then, whether it is at work or over, the group is abandoned. If all are, or there never was one, nothing
changes but that the group is gone: a live scope stays live. -/
theorem drop_outcome {ops : List ScopeOp} {f : Forest} {parent : Nat} {failFast hook : Bool}
    (hf : Forest.empty.run ops = some f) (hp : f.scopeOf? parent = some p)
    (hu : under f parent failFast hook = some g₀) (h : g₀.run moves = some g) (hd : g.dropped = false) :
    let all := ops ++ .child parent :: g₀.history moves
    let own := f.scopes.length
    Forest.empty.run all = some g.forest ∧ g.forest.scopeOf? g.scope = some own ∧ Forest.Derived all p own ∧
      ∃ g', g.step .drop = some g' ∧
        ((∃ t ∈ g.tasks, t.state ≠ .joined) → Abandoned (Forest.Derived all) p own g g') ∧
        ((∀ t ∈ g.tasks, t.state = .joined) → g' = { g with dropped := true }) := by
  intro all own
  have hall : Forest.empty.run all = some g.forest := run_from_start hf hp hu h
  have hs := (scoped_of_under (Forest.Sound.empty.run hf) hp hu).run h
  have hderived : Forest.Derived all p own := ⟨ops, parent, _, f, rfl, hf, hp, rfl⟩
  obtain ⟨htasks, hjoin, _⟩ := of_under hu
  have hwhole := (Accounted.run htasks hjoin h).whole hd
  have hopen (t : GroupTask α) (ht : t ∈ g.tasks) : t.isOpen = true ↔ t.state ≠ .joined := by
    have haborted := hwhole t ht
    obtain ⟨name, state⟩ := t
    cases state <;> simp [GroupTask.isOpen] at haborted ⊢
  refine ⟨hall, hs.held, hderived, ?_⟩
  by_cases ho : g.openCount = 0
  · refine ⟨{ g with dropped := true }, by simp [TaskGroup.step, hd, ho], ?_, fun _ => rfl⟩
    rintro ⟨t, ht, hstate⟩
    exact absurd ((hopen t ht).2 hstate) (List.countP_eq_zero.1 ho t ht)
  · refine ⟨g.torn, by simp [TaskGroup.step, hd, ho, torn],
      fun _ => hs.abandoned (Forest.traced_of_run hall) hderived hwhole, fun hjoined => absurd ?_ ho⟩
    refine List.countP_eq_zero.2 fun t ht hopen' => ?_
    exact (hopen t ht).1 hopen' (hjoined t ht)

/-- A task with a group of its own, in which a task derives one more scope, a task that is joined, and one that is
over but not joined. -/
def nestedMoves : List (GroupMove Nat) :=
  [.spawn "a", .spawn "b", .spawn "c", .work 0 (.child 2), .work 0 (.child 3), .finish 1 (.returned 7 none), .join 1,
    .finish 2 (.broke "it broke down")]

theorem drop_outcome_nested : ∃ g g' : TaskGroup Nat, g.step .drop = some g' ∧
    g.tasks = [⟨"a", .running⟩, ⟨"b", .joined⟩, ⟨"c", .ended (.broke "it broke down")⟩] ∧ g.forest.reason? 4 = none ∧
      g'.reason? = some "task group dropped" ∧ g'.forest.reason? 4 = some "task group dropped" ∧
        g'.forest.scopes[0]? = g.forest.scopes[0]? ∧ g'.forest.scopes[1]? = g.forest.scopes[1]? ∧
          g'.tasks[0]? = some ⟨"a", .aborted⟩ ∧ g'.tasks[1]? = some ⟨"b", .joined⟩ := by
  have hrun : (Forest.empty.run [.new, .child 0]).bind (fun f =>
      (under f 0 true).bind fun g₀ : TaskGroup Nat => (g₀.run nestedMoves).map fun g =>
        (f.scopeOf? 0, f.scopes.length, g₀.history nestedMoves, g.dropped, g.tasks, g.reason?, g.forest.reason? 4,
          g.forest.isLive 3, g.forest.isLive 4)) =
      some (some 0, 2, [.child 2, .child 3], false,
        [⟨"a", .running⟩, ⟨"b", .joined⟩, ⟨"c", .ended (.broke "it broke down")⟩], none, none, true, true) := by
    rfl
  obtain ⟨f, hf, e⟩ := Option.bind_eq_some_iff.1 hrun
  obtain ⟨g₀, hu, e⟩ := Option.bind_eq_some_iff.1 e
  obtain ⟨g, hg, e⟩ := Option.map_eq_some_iff.1 e
  simp only [Prod.mk.injEq] at e
  obtain ⟨hp, hlength, hhistory, hd, htasks, hreason, hbelow, h3, h4⟩ := e
  obtain ⟨_, _, _, g', hdrop, habandoned, _⟩ := drop_outcome hf hp hu hg hd
  rw [hhistory, hlength] at habandoned
  have ha := habandoned ⟨⟨"a", .running⟩, by simp [htasks], by simp⟩
  have hbeside : Forest.Derived [.new, .child 0, .child 0, .child 2, .child 3] 0 1 :=
    ⟨[.new], 0, [.child 0, .child 2, .child 3], _, rfl, rfl, rfl, rfl⟩
  have hgroup : Forest.Derived [.new, .child 0, .child 0, .child 2, .child 3] 2 3 :=
    ⟨[.new, .child 0, .child 0], 2, [.child 3], _, rfl, rfl, rfl, rfl⟩
  have htask : Forest.Derived [.new, .child 0, .child 0, .child 2, .child 3] 3 4 :=
    ⟨[.new, .child 0, .child 0, .child 2], 3, [], _, rfl, rfl, rfl, rfl⟩
  refine ⟨g, g', hdrop, htasks, hbelow, ?_, ?_, ha.parent, ha.beside 1 1 hbeside (by decide) .refl,
    ha.aborted 0 _ (by rw [htasks]; rfl) (by simp), ha.joined 1 "b" (by rw [htasks]; rfl)⟩
  · rw [ha.reason, hreason]
    rfl
  · rw [(ha.below 4 (.tail (.single ⟨hgroup, h3⟩) ⟨htask, h4⟩)).2, hbelow]
    rfl

end TaskGroup

end StageTree

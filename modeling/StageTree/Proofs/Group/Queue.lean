import Mathlib.Data.List.Perm.Subperm
import StageTree.Group.Drain
import StageTree.Proofs.Group.Reports

/-! The queue of a group on the way, and the order of joins that it leads to: first come the tasks that were
over when their owner came to them, as they were spawned, and then those that were set aside, as they
ended. -/

namespace StageTree.Drain

open TaskGroup

variable {α β : Type} {d d' : Drain α} {g : TaskGroup α} {move : DrainMove α} {moves : List (DrainMove α)}
  {ms : List (GroupMove α)} {goes late : List Nat} {i : Nat}

/-! ### One move -/

/-- What can happen to a group on the way. -/
inductive Moved (d : Drain α) : DrainMove α → Drain α → Prop
  | group {move : GroupMove α} {g : TaskGroup α} (ha : d.admits move = true) (hg : d.group.step move = some g) :
      Moved d (.group move) { d with group := g, queue := d.queue ++ d.woken move }
  | putOff {i : Nat} {queue : List Nat} (hq : d.queue = i :: queue) (hl : d.left = 0) :
      Moved d .look { d with queue, off := d.off ++ [i], begun := true }
  | join {i : Nat} {queue : List Nat} {g : TaskGroup α} (hq : d.queue = i :: queue) (hl : d.left ≠ 0)
      (hg : d.group.step (.join i) = some g) :
      Moved d .look { d with group := g, queue, left := d.left - 1, begun := true }
  | setAside {i : Nat} {queue : List Nat} (hq : d.queue = i :: queue) (hl : d.left ≠ 0)
      (hd : d.group.dropped = false) (hg : d.group.step (.join i) = none) :
      Moved d .look { d with queue, aside := d.aside ++ [i], begun := true }
  | go {left : Nat} (hl : left ≤ goLimit) : Moved d (.go left) { d with left }
  | back {i : Nat} (hi : i ∈ d.off) : Moved d (.back i) { d with queue := d.queue ++ [i], off := d.off.erase i }

theorem moved_of_step (h : d.step move = some d') : d.Moved move d' := by
  cases move with
  | group move =>
    rw [step] at h
    split at h
    · obtain ⟨g, hg, rfl⟩ := Option.map_eq_some_iff.1 h
      exact .group ‹_› hg
    · cases h
  | look =>
    rw [step, look?] at h
    split at h
    · cases h
    · split at h
      · cases h
      · have hd := eq_false_of_ne_true ‹¬ d.group.dropped = true›
        split at h
        · obtain rfl := Option.some.inj h
          exact .putOff ‹_› ‹_›
        · split at h <;> obtain rfl := Option.some.inj h
          · exact .join ‹_› ‹_› ‹_›
          · exact .setAside ‹_› ‹_› hd ‹_›
  | go left =>
    obtain ⟨hl, e⟩ := Option.ite_none_right_eq_some.1 h
    exact Option.some.inj e ▸ .go hl
  | back i =>
    obtain ⟨hi, e⟩ := Option.ite_none_right_eq_some.1 h
    exact Option.some.inj e ▸ .back hi

/-! ### The moves of the group itself -/

/-- The move of the group that a move comes to, if it comes to one. -/
def act? (d : Drain α) : DrainMove α → Option (GroupMove α)
  | .group move => some move
  | .look => d.queue.head?.bind fun i => if d.left = 0 then none else (d.group.step (.join i)).map fun _ => .join i
  | .go _ | .back _ => none

def putOff? (d : Drain α) : DrainMove α → Option Nat
  | .look => if d.left = 0 then d.queue.head? else none
  | _ => none

/-- What each of some moves gives where it comes. -/
def along (f : Drain α → DrainMove α → Option β) : Drain α → List (DrainMove α) → List β
  | _, [] => []
  | d, move :: moves => (f d move).toList ++ (d.step move).elim [] fun d => along f d moves

/-- The moves of the group itself. -/
def groupMoves (d : Drain α) (moves : List (DrainMove α)) : List (GroupMove α) := along act? d moves

def putOffIn (d : Drain α) (moves : List (DrainMove α)) : List Nat := along putOff? d moves

def goes? : DrainMove α → Option Nat
  | .go left => some left
  | _ => none

/-- How many tasks each go hands over at most, the first one included. -/
def goesIn (moves : List (DrainMove α)) : List Nat := goLimit :: moves.filterMap goes?

theorem goesIn_concat (moves : List (DrainMove α)) (move : DrainMove α) :
    goesIn (moves ++ [move]) = goesIn moves ++ (goes? move).toList := by
  rw [goesIn, goesIn, List.filterMap_append, List.cons_append]
  cases h : goes? move <;> simp [h]

theorem along_concat (f : Drain α → DrainMove α → Option β) (h : d.run moves = some d') (move : DrainMove α) :
    along f d (moves ++ [move]) = along f d moves ++ (f d' move).toList := by
  induction moves generalizing d with
  | nil =>
    obtain rfl := Option.some.inj h
    cases hs : d.step move <;> simp [along, hs]
  | cons first moves ih =>
    rw [run, List.foldlM_cons] at h
    obtain ⟨d₁, h₁, h⟩ := Option.bind_eq_some_iff.1 h
    rw [List.cons_append, along, along, h₁, Option.elim_some, Option.elim_some, ih h, List.append_assoc]

theorem Moved.act?_eq_none (h : d.Moved move d') (ha : d.act? move = none) : d'.group = d.group := by
  cases h with
  | group => cases ha
  | putOff | setAside | go | back => rfl
  | join hq hl hg => simp [act?, hq, hl, hg] at ha

theorem Moved.step_group (h : d.Moved move d') {m : GroupMove α} (ha : d.act? move = some m) :
    d.group.step m = some d'.group := by
  cases h with
  | group _ hg => exact Option.some.inj ha ▸ hg
  | putOff hq hl => simp [act?, hq, hl] at ha
  | join hq hl hg =>
    obtain rfl : .join _ = m := by simpa [act?, hq, hl, hg] using ha
    exact hg
  | setAside hq hl _ hg => simp [act?, hq, hl, hg] at ha
  | go | back => cases ha

/-- A group on the way runs by the moves of its own. -/
theorem run_groupMoves (h : d.run moves = some d') : d.group.run (d.groupMoves moves) = some d'.group := by
  refine foldlM_induction (P := fun moves d' => d.group.run (d.groupMoves moves) = some d'.group) rfl
    (fun before move d₁ d₂ hrun ih hstep => ?_) h
  have hm := moved_of_step hstep
  rw [groupMoves, along_concat act? hrun, ← groupMoves]
  cases ha : d₁.act? move with
  | none => rw [Option.toList_none, List.append_nil, ih, hm.act?_eq_none ha]
  | some m =>
    rw [Option.toList_some, TaskGroup.run, List.foldlM_append, ← TaskGroup.run, ih]
    simp [hm.step_group ha]

/-! ### Where the tasks stand -/

theorem woken_eq_nil {m : GroupMove α} (hs : m.spawned? = none) (he : m.ended? = none) : d.woken m = [] := by
  cases m with
  | spawn => cases hs
  | finish => cases he
  | scope | work | join | drop => rfl

/-- The tasks that are to be looked at, now or in the next go. -/
def pending (d : Drain α) : List Nat := d.queue ++ d.off

def Stands (d : Drain α) (i : Nat) : TaskState α → Prop
  | .running => i ∈ d.pending ↔ i ∉ d.aside
  | .ended _ => i ∈ d.pending
  | .joined => i ∉ d.pending
  | .aborted => True

theorem Stands.congr {state : TaskState α} (h : d.Stands i state) (hp : i ∈ d'.pending ↔ i ∈ d.pending)
    (ha : i ∈ d'.aside ↔ i ∈ d.aside) : d'.Stands i state := by
  cases state <;> simp only [Stands, hp, ha] at h ⊢ <;> exact h

/-- A group on the way whose tasks stand where they should. -/
structure Standing (d : Drain α) : Prop where
  nodup : d.pending.Nodup
  lt : ∀ i ∈ d.pending, i < d.group.tasks.length
  stands : ∀ i t, d.group.tasks[i]? = some t → d.Stands i t.state
  fresh : d.begun = false → d.aside = [] ∧ d.off = []

namespace Standing

theorem start {g : TaskGroup α} (hg : g.tasks = []) : (start g).Standing where
  nodup := .nil
  lt := nofun
  stands i t ht := by simp [Drain.start, hg] at ht
  fresh _ := ⟨rfl, rfl⟩

/-- What stands in another order stands where it should. -/
theorem congr (h : d.Standing) (hp : d'.pending.Perm d.pending) (ha : d'.aside = d.aside)
    (htasks : d'.group.tasks = d.group.tasks) (hf : d'.begun = false → d'.aside = [] ∧ d'.off = []) :
    d'.Standing where
  nodup := hp.nodup_iff.2 h.nodup
  lt i hi := by
    rw [htasks]
    exact h.lt i (hp.mem_iff.1 hi)
  stands i t ht := by
    rw [htasks] at ht
    exact (h.stands i t ht).congr hp.mem_iff (by rw [ha])
  fresh := hf

theorem spawn (h : d.Standing) (hb : d.begun = false) (name : String) :
    Standing { d with
      group := { d.group with tasks := d.group.tasks ++ [⟨name, .running⟩] }
      queue := d.queue ++ [d.group.tasks.length] } := by
  obtain ⟨haside, hoff⟩ := h.fresh hb
  have hpending : d.pending = d.queue := by rw [pending, hoff, List.append_nil]
  have hlt {i : Nat} (hi : i ∈ d.queue) : i < d.group.tasks.length := h.lt i (hpending ▸ hi)
  constructor
  · rw [pending, hoff, List.append_nil]
    refine List.nodup_append.2 ⟨hpending ▸ h.nodup, List.nodup_singleton _, fun i hi j hj e => ?_⟩
    exact Nat.ne_of_lt (hlt hi) (e.trans (List.mem_singleton.1 hj))
  · intro i hi
    rw [pending, hoff, List.append_nil, List.mem_append, List.mem_singleton] at hi
    rw [List.length_append, List.length_singleton]
    rcases hi with hi | rfl
    · exact Nat.lt_succ_of_lt (hlt hi)
    · exact Nat.lt_succ_self _
  · intro i t ht
    rcases Nat.lt_or_ge i d.group.tasks.length with hi | hi
    · rw [List.getElem?_append_left hi] at ht
      refine (h.stands i t ht).congr ?_ Iff.rfl
      simp [pending, hoff, Nat.ne_of_lt hi]
    · rw [List.getElem?_append_right hi] at ht
      obtain ⟨hi', ht⟩ := List.getElem?_eq_some_iff.1 ht
      rw [List.length_singleton, Nat.lt_one_iff, Nat.sub_eq_zero_iff_le] at hi'
      obtain rfl := Nat.le_antisymm hi' hi
      obtain rfl : ⟨name, .running⟩ = t := by simpa using ht
      simp [Stands, pending, haside]
  · exact h.fresh

/-- A task that is set aside stands at the back of the queue once it is over. -/
theorem finish (h : d.Standing) {name : String} (how : TaskEnd α)
    (ht : d.group.tasks[i]? = some ⟨name, .running⟩) :
    Standing { d with
      group := { d.group with tasks := d.group.tasks.set i ⟨name, .ended how⟩ }
      queue := d.queue ++ if i ∈ d.aside then [i] else [] } := by
  have hi : i ∈ d.pending ↔ i ∉ d.aside := h.stands i _ ht
  have hlt : i < d.group.tasks.length := (List.getElem?_eq_some_iff.1 ht).1
  have hp : (d.queue ++ (if i ∈ d.aside then [i] else []) ++ d.off).Perm
      (d.pending ++ if i ∈ d.aside then [i] else []) := by
    rw [pending, List.append_assoc, List.append_assoc]
    exact List.perm_append_comm.append_left _
  have hmem (j : Nat) : j ∈ d.queue ++ (if i ∈ d.aside then [i] else []) ++ d.off ↔ j ∈ d.pending ∨ j = i := by
    rw [hp.mem_iff, List.mem_append]
    split
    · rw [List.mem_singleton]
    · rename_i ha
      refine ⟨fun hj => .inl (hj.resolve_right List.not_mem_nil), fun hj => .inl (hj.elim id fun e => ?_)⟩
      exact e ▸ hi.2 ha
  constructor
  · refine hp.nodup_iff.2 (List.nodup_append.2 ⟨h.nodup, ?_, fun j hj k hk e => ?_⟩)
    · split
      · exact List.nodup_singleton _
      · exact .nil
    · split at hk
      · rename_i ha
        exact hi.1 (List.mem_singleton.1 hk ▸ e ▸ hj) ha
      · cases hk
  · intro j hj
    rw [List.length_set]
    exact ((hmem j).1 hj).elim (h.lt j) fun e => e ▸ hlt
  · intro j t hj
    rcases Accounted.set_cases ht hj with ⟨rfl, rfl⟩ | ⟨hne, hj⟩
    · exact (hmem j).2 (.inr rfl)
    · exact (h.stands j t hj).congr ((hmem j).trans (or_iff_left hne)) Iff.rfl
  · exact h.fresh

theorem tearDown (h : d.Standing) {g : TaskGroup α} (hg : g.tasks = d.group.tasks.map GroupTask.tearDown) :
    Standing { d with group := g } := by
  refine ⟨h.nodup, fun i hi => ?_, fun i t ht => ?_, h.fresh⟩
  · rw [hg, List.length_map]
    exact h.lt i hi
  · rw [hg, List.getElem?_map] at ht
    obtain ⟨t', ht', rfl⟩ := Option.map_eq_some_iff.1 ht
    rw [GroupTask.tearDown]
    split
    · trivial
    · exact h.stands i t' ht'

/-- The task in front is looked at and joined. -/
theorem join (h : d.Standing) {queue : List Nat} {name : String} {how : TaskEnd α} {g : TaskGroup α} {left : Nat}
    (hq : d.queue = i :: queue) (ht : d.group.tasks[i]? = some ⟨name, .ended how⟩)
    (hg : g.tasks = d.group.tasks.set i ⟨name, .joined⟩) :
    Standing { d with group := g, queue, left, begun := true } := by
  have hpending : d.pending = i :: (queue ++ d.off) := by rw [pending, hq, List.cons_append]
  obtain ⟨hi, hnodup⟩ := List.nodup_cons.1 (hpending ▸ h.nodup)
  refine ⟨hnodup, fun j hj => ?_, fun j t hj => ?_, nofun⟩
  · rw [hg, List.length_set]
    exact h.lt j (hpending ▸ List.mem_cons_of_mem i hj)
  · rw [hg] at hj
    rcases Accounted.set_cases ht hj with ⟨rfl, rfl⟩ | ⟨hne, hj⟩
    · exact hi
    · exact (h.stands j t hj).congr (by simp [pending, hq, hne]) Iff.rfl

/-- The task in front is looked at while it is at work. -/
theorem setAside (h : d.Standing) {queue : List Nat} {name : String} (hq : d.queue = i :: queue)
    (ht : d.group.tasks[i]? = some ⟨name, .running⟩) :
    Standing { d with queue, aside := d.aside ++ [i], begun := true } := by
  have hpending : d.pending = i :: (queue ++ d.off) := by rw [pending, hq, List.cons_append]
  obtain ⟨hi, hnodup⟩ := List.nodup_cons.1 (hpending ▸ h.nodup)
  refine ⟨hnodup, fun j hj => h.lt j (hpending ▸ List.mem_cons_of_mem i hj), fun j t hj => ?_, nofun⟩
  by_cases e : j = i
  · subst e
    obtain rfl := Option.some.inj (ht.symm.trans hj)
    exact ⟨fun hj => absurd hj hi, fun hj => absurd (List.mem_append_right _ (List.mem_singleton_self j)) hj⟩
  · exact (h.stands j t hj).congr (by simp [pending, hq, e]) (by simp [e])

/-- The task in front has not been joined yet. -/
theorem front (h : d.Standing) {queue : List Nat} (hq : d.queue = i :: queue) :
    ∃ t, d.group.tasks[i]? = some t ∧ t.state ≠ .joined := by
  have hi : i ∈ d.pending := by simp [pending, hq]
  refine ⟨_, List.getElem?_eq_getElem (h.lt i hi), fun e => ?_⟩
  have hs := h.stands i _ (List.getElem?_eq_getElem (h.lt i hi))
  rw [e] at hs
  exact hs hi

theorem queue_eq_nil (h : d.Standing) (hall : ∀ t ∈ d.group.tasks, t.state = .joined) : d.queue = [] :=
  List.eq_nil_iff_forall_not_mem.2 fun i hi => by
    have hpending : i ∈ d.pending := List.mem_append_left _ hi
    have ht := List.getElem?_eq_getElem (h.lt i hpending)
    have hs := h.stands i _ ht
    rw [hall _ (List.mem_of_getElem? ht)] at hs
    exact hs hpending

/-- A task in front that cannot be joined is at work. -/
theorem running_of_front (h : d.Standing) {queue : List Nat} (hq : d.queue = i :: queue)
    (hd : d.group.dropped = false) (hwhole : ∀ t ∈ d.group.tasks, t.state ≠ .aborted)
    (hg : d.group.step (.join i) = none) : ∃ name, d.group.tasks[i]? = some ⟨name, .running⟩ := by
  obtain ⟨⟨name, state⟩, ht, hjoined⟩ := h.front hq
  cases state with
  | running => exact ⟨name, ht⟩
  | ended how => simp [TaskGroup.step, ht, hd] at hg
  | joined => exact absurd rfl hjoined
  | aborted => exact absurd rfl (hwhole _ (List.mem_of_getElem? ht))

theorem step (h : d.Standing) (hm : d.Moved move d')
    (hwhole : d.group.dropped = false → ∀ t ∈ d.group.tasks, t.state ≠ .aborted) : d'.Standing := by
  cases hm with
  | group ha hg =>
    cases TaskGroup.moved_of_step hg with
    | spawn => exact h.spawn (by simpa [admits] using ha) _
    | finish ht => exact h.finish _ ht
    | join => cases ha
    | scope | work | drop =>
      rw [woken_eq_nil rfl rfl, List.append_nil]
      exact h.congr (.refl _) rfl rfl h.fresh
    | tearDown =>
      obtain ⟨f, e⟩ := tearDown_cases d.group
      rw [e, woken_eq_nil rfl rfl, List.append_nil]
      exact h.tearDown rfl
  | putOff hq =>
    refine h.congr ?_ rfl rfl nofun
    rw [pending, pending, hq, List.cons_append, ← List.append_assoc]
    exact List.perm_append_singleton _ _
  | join hq _ hg =>
    cases TaskGroup.moved_of_step hg with
    | join ht =>
      obtain ⟨forest, hook, told, e⟩ := joinReport_cases ht _
      exact h.join hq ht (by rw [e])
  | setAside hq _ hd hg =>
    obtain ⟨name, ht⟩ := h.running_of_front hq hd (hwhole hd) hg
    exact h.setAside hq ht
  | go => exact h.congr (.refl _) rfl rfl h.fresh
  | back hi =>
    refine h.congr ?_ rfl rfl fun hb => absurd hi (by simp [(h.fresh hb).2])
    rw [pending, pending, List.append_assoc, List.singleton_append]
    exact (List.perm_cons_erase hi).symm.append_left _

end Standing

/-! ### The order of the joins -/

/-- The tasks of which some were over when their owner came to them and some were set aside, in the order in
which they are due. -/
def due (d : Drain α) (ms : List (GroupMove α)) : List Nat :=
  (List.range d.group.tasks.length).filter (· ∉ d.aside) ++ ((endedIn ms).map Prod.fst).filter (· ∈ d.aside)

/-- A group on the way whose tasks are joined as they are due, those apart that were put off. -/
structure Ordered (goes : List Nat) (ms : List (GroupMove α)) (late : List Nat) (d : Drain α) : Prop where
  order : (joinedIn ms ++ d.queue).filter (· ∉ late) = (d.due ms).filter (· ∉ late)
  off : ∀ i ∈ d.off, i ∈ late
  left : ∃ n ∈ goes, n ≤ d.left + (joinedIn ms).length
  few : late ≠ [] → ∃ n ∈ goes, n < d.group.tasks.length

namespace Ordered

theorem start {g : TaskGroup α} (hg : g.tasks = []) : Ordered [goLimit] [] [] (start g) where
  order := by simp [due, Drain.start, hg, joinedIn, endedIn]
  off := nofun
  left := ⟨goLimit, List.mem_singleton_self _, Nat.le_add_right _ _⟩
  few h := absurd rfl h

theorem mono {goes' : List Nat} (h : Ordered goes ms late d) (hsub : goes ⊆ goes') : Ordered goes' ms late d where
  order := h.order
  off := h.off
  left := h.left.imp fun _ => And.imp_left (@hsub _)
  few hl := (h.few hl).imp fun _ => And.imp_left (@hsub _)

theorem mem_joined_iff (ha : Accounted ms d.group) :
    i ∈ joinedIn ms ↔ ∃ name, d.group.tasks[i]? = some ⟨name, .joined⟩ := by
  refine ⟨fun hi => ?_, fun ⟨name, ht⟩ => ha.mem i name ht⟩
  rw [← ha.joined] at hi
  obtain ⟨r, hr, rfl⟩ := List.mem_map.1 hi
  exact ⟨r.name, (ha.reports r hr).1⟩

theorem spawn (h : Ordered goes ms late d) (hs : d.Standing) (hb : d.begun = false) (name : String) :
    Ordered goes (ms ++ [.spawn name]) late { d with
      group := { d.group with tasks := d.group.tasks ++ [⟨name, .running⟩] }
      queue := d.queue ++ [d.group.tasks.length] } := by
  obtain ⟨haside, _⟩ := hs.fresh hb
  have hjoined : joinedIn (ms ++ [.spawn name]) = joinedIn ms := joinedIn_keep ms rfl
  have hended : endedIn (ms ++ [.spawn name]) = endedIn ms := endedIn_keep ms rfl
  have horder := h.order
  refine ⟨?_, h.off, by rw [hjoined]; exact h.left, fun hl => ?_⟩
  · rw [due, haside] at horder
    rw [hjoined, due, hended, haside, List.length_append, List.length_singleton, List.range_succ,
      ← List.append_assoc, List.filter_append, horder]
    simp
  · obtain ⟨n, hn, hlt⟩ := h.few hl
    rw [List.length_append]
    exact ⟨n, hn, Nat.lt_of_lt_of_le hlt (Nat.le_add_right _ _)⟩

theorem finish (h : Ordered goes ms late d) {g : TaskGroup α} (how : TaskEnd α)
    (hg : g.tasks.length = d.group.tasks.length) :
    Ordered goes (ms ++ [.finish i how]) late { d with
      group := g
      queue := d.queue ++ if i ∈ d.aside then [i] else [] } := by
  have hjoined : joinedIn (ms ++ [.finish i how]) = joinedIn ms := joinedIn_keep ms rfl
  have hended : endedIn (ms ++ [.finish i how]) = endedIn ms ++ [(i, how)] := endedIn_concat ms _
  refine ⟨?_, h.off, by rw [hjoined]; exact h.left, by rw [hg]; exact h.few⟩
  have hdue : due { d with group := g, queue := d.queue ++ if i ∈ d.aside then [i] else [] }
      (ms ++ [.finish i how]) = d.due ms ++ if i ∈ d.aside then [i] else [] := by
    rw [due, due, hg, hended, List.map_append, List.filter_append, ← List.append_assoc]
    by_cases ha : i ∈ d.aside <;> simp [ha]
  rw [hdue, hjoined, ← List.append_assoc, List.filter_append, h.order, ← List.filter_append]

/-- A move that neither spawns nor ends a task. -/
theorem congr {move : GroupMove α} {g : TaskGroup α} (h : Ordered goes ms late d) (hj : move.joined? = none)
    (he : move.ended? = none) (hg : g.tasks.length = d.group.tasks.length) :
    Ordered goes (ms ++ [move]) late { d with group := g } := by
  refine ⟨?_, h.off, by rw [joinedIn_keep ms hj]; exact h.left, by rw [hg]; exact h.few⟩
  rw [joinedIn_keep ms hj, due, endedIn_keep ms he, hg]
  exact h.order

theorem join (h : Ordered goes ms late d) {queue : List Nat} {g : TaskGroup α} (hq : d.queue = i :: queue)
    (hg : g.tasks.length = d.group.tasks.length) :
    Ordered goes (ms ++ [.join i]) late { d with group := g, queue, left := d.left - 1, begun := true } := by
  have hjoined : joinedIn (ms ++ [.join i]) = joinedIn ms ++ [i] := joinedIn_concat ms _
  obtain ⟨n, hn, hleft⟩ := h.left
  refine ⟨?_, h.off, ⟨n, hn, ?_⟩, by rw [hg]; exact h.few⟩
  · rw [hjoined, due, endedIn_keep ms rfl, hg, List.append_assoc, List.singleton_append, ← hq]
    exact h.order
  · rw [hjoined, List.length_append, List.length_singleton]
    dsimp only
    omega

/-- A task is put off only after as many as one go hands over have been joined. -/
theorem putOff (h : Ordered goes ms late d) (hs : d.Standing) (ha : Accounted ms d.group) {queue : List Nat}
    (hq : d.queue = i :: queue) (hl : d.left = 0) :
    Ordered goes ms (late ++ [i]) { d with queue, off := d.off ++ [i], begun := true } := by
  have hsplit (l : List Nat) : l.filter (· ∉ late ++ [i]) = (l.filter (· ∉ late)).filter (· ≠ i) := by
    rw [List.filter_filter]
    refine List.filter_congr fun j _ => ?_
    simp [and_comm]
  refine ⟨?_, fun j hj => ?_, h.left, fun _ => ?_⟩
  · have horder := congrArg (List.filter (· ≠ i)) h.order
    rw [← hsplit, ← hsplit, hq] at horder
    refine Eq.trans ?_ horder
    rw [List.filter_append, List.filter_append, List.filter_cons_of_neg (by simp)]
  · exact List.mem_append.2 ((List.mem_append.1 hj).imp_left (h.off j))
  · -- the tasks joined so far and the one that is put off
    obtain ⟨t, ht, hjoined⟩ := hs.front hq
    have hi : i ∉ joinedIn ms := fun hi => by
      obtain ⟨name, ht'⟩ := (mem_joined_iff ha).1 hi
      exact hjoined (Option.some.inj (ht.symm.trans ht') ▸ rfl)
    have hsub : i :: joinedIn ms ⊆ List.range d.group.tasks.length := fun j hj => by
      rw [List.mem_range]
      rcases List.mem_cons.1 hj with rfl | hj
      · exact (List.getElem?_eq_some_iff.1 ht).1
      · obtain ⟨name, ht⟩ := (mem_joined_iff ha).1 hj
        exact (List.getElem?_eq_some_iff.1 ht).1
    have hlen := (List.subperm_of_subset (List.nodup_cons.2 ⟨hi, ha.nodup⟩) hsub).length_le
    rw [List.length_cons, List.length_range] at hlen
    obtain ⟨n, hn, hleft⟩ := h.left
    rw [hl, Nat.zero_add] at hleft
    exact ⟨n, hn, Nat.lt_of_le_of_lt hleft hlen⟩

theorem setAside (h : Ordered goes ms late d) (hs : d.Standing) (ha : Accounted ms d.group) {queue : List Nat}
    {name : String} (hq : d.queue = i :: queue) (ht : d.group.tasks[i]? = some ⟨name, .running⟩) :
    Ordered goes ms late { d with queue, aside := d.aside ++ [i], begun := true } := by
  refine ⟨?_, h.off, h.left, h.few⟩
  have hjoined : i ∉ joinedIn ms := fun hi => by
    obtain ⟨name', ht'⟩ := (mem_joined_iff ha).1 hi
    simp [ht] at ht'
  have hended : i ∉ (endedIn ms).map Prod.fst := fun hi => by
    obtain ⟨e, he, rfl⟩ := List.mem_map.1 hi
    obtain ⟨t, ht', hstate⟩ := ha.past e he
    exact hstate (Option.some.inj (ht'.symm.trans ht) ▸ rfl)
  have hqueue : i ∉ queue := by
    have hnodup := hs.nodup
    rw [pending, hq, List.cons_append, List.nodup_cons, List.mem_append, not_or] at hnodup
    exact hnodup.1.1
  have hne {l : List Nat} (hi : i ∉ l) : l.filter (· ≠ i) = l :=
    List.filter_eq_self.2 fun j hj => decide_eq_true fun e => hi (e ▸ hj)
  have hleft : joinedIn ms ++ queue = (joinedIn ms ++ d.queue).filter (· ≠ i) := by
    rw [hq, List.filter_append, List.filter_cons_of_neg (by simp), hne hjoined, hne hqueue]
  have hdue : due { d with queue, aside := d.aside ++ [i], begun := true } ms = (d.due ms).filter (· ≠ i) := by
    rw [due, due, List.filter_append, List.filter_filter, List.filter_filter]
    congr 1
    · refine List.filter_congr fun j _ => ?_
      simp [and_comm]
    · refine List.filter_congr fun j hj => ?_
      have : j ≠ i := fun e => hended (e ▸ hj)
      simp [this]
  rw [hdue, hleft, List.filter_filter, List.filter_filter]
  have horder := congrArg (List.filter (· ≠ i)) h.order
  rw [List.filter_filter, List.filter_filter] at horder
  simpa only [Bool.and_comm] using horder

theorem go (h : Ordered goes ms late d) {left : Nat} (hl : left ∈ goes) : Ordered goes ms late { d with left } :=
  ⟨h.order, h.off, ⟨left, hl, Nat.le_add_right _ _⟩, h.few⟩

theorem back (h : Ordered goes ms late d) (hi : i ∈ d.off) :
    Ordered goes ms late { d with queue := d.queue ++ [i], off := d.off.erase i } := by
  refine ⟨?_, fun j hj => h.off j (List.mem_of_mem_erase hj), h.left, h.few⟩
  have hlate : [i].filter (· ∉ late) = [] := List.filter_cons_of_neg (by simpa using h.off i hi)
  rw [← List.append_assoc, List.filter_append, hlate, List.append_nil]
  exact h.order

/-- A move that is none of the group itself and puts no task off. -/
theorem keep (h : Ordered goes ms late d') (hact : d.act? move = none) (hoff : d.putOff? move = none) :
    Ordered goes (ms ++ (d.act? move).toList) (late ++ (d.putOff? move).toList) d' := by
  rw [hact, hoff, Option.toList_none, Option.toList_none, List.append_nil, List.append_nil]
  exact h

theorem step (h : Ordered goes ms late d) (hs : d.Standing) (ha : Accounted ms d.group) (hm : d.Moved move d') :
    Ordered (goes ++ (goes? move).toList) (ms ++ (d.act? move).toList) (late ++ (d.putOff? move).toList) d' := by
  replace h := h.mono (List.subset_append_left goes (goes? move).toList)
  cases hm with
  | @group move g hadmits hg =>
    have hact : d.act? (.group move) = some move := rfl
    have hoff : d.putOff? (.group move) = none := rfl
    rw [hact, hoff, Option.toList_some, Option.toList_none, List.append_nil]
    cases TaskGroup.moved_of_step hg with
    | spawn => exact h.spawn hs (by simpa [admits] using hadmits) _
    | finish => exact h.finish _ List.length_set
    | join => cases hadmits
    | scope | work | drop =>
      rw [woken_eq_nil rfl rfl, List.append_nil]
      exact h.congr rfl rfl rfl
    | tearDown =>
      obtain ⟨f, e⟩ := tearDown_cases d.group
      rw [e, woken_eq_nil rfl rfl, List.append_nil]
      exact h.congr rfl rfl (List.length_map _)
  | @putOff i queue hq hl =>
    have hact : d.act? .look = none := by simp [act?, hq, hl]
    have hoff : d.putOff? .look = some i := by rw [putOff?, if_pos hl, hq, List.head?_cons]
    rw [hact, hoff, Option.toList_none, List.append_nil]
    exact h.putOff hs ha hq hl
  | @join i queue g hq hl hg =>
    have hact : d.act? .look = some (.join i) := by simp [act?, hq, hl, hg]
    have hoff : d.putOff? .look = none := by rw [putOff?, if_neg hl]
    rw [hact, hoff, Option.toList_none, List.append_nil]
    cases TaskGroup.moved_of_step hg with
    | join ht =>
      obtain ⟨forest, hook, told, e⟩ := joinReport_cases ht _
      exact h.join hq (by rw [e]; exact List.length_set)
  | setAside hq hl hd hg =>
    obtain ⟨name, ht⟩ := hs.running_of_front hq hd (ha.whole hd) hg
    exact (h.setAside hs ha hq ht).keep (by simp [act?, hq, hg]) (by rw [putOff?, if_neg hl])
  | @go left => exact (h.go (List.mem_append_right _ (List.mem_singleton_self left))).keep rfl rfl
  | back hi => exact (h.back hi).keep rfl rfl

/-- Where every task was set aside and none put off, tasks are joined as they ended. -/
theorem joined_eq (h : Ordered goes ms late d) (ha : Accounted ms d.group) (hq : d.queue = [])
    (haside : ∀ i < d.group.tasks.length, i ∈ d.aside) (hlate : late = []) :
    joinedIn ms = (endedIn ms).map Prod.fst := by
  have hearly : (List.range d.group.tasks.length).filter (· ∉ d.aside) = [] :=
    List.filter_eq_nil_iff.2 fun i hi => by simpa using haside i (List.mem_range.1 hi)
  have hended : ((endedIn ms).map Prod.fst).filter (· ∈ d.aside) = (endedIn ms).map Prod.fst :=
    List.filter_eq_self.2 fun i hi => by
      obtain ⟨e, he, rfl⟩ := List.mem_map.1 hi
      obtain ⟨t, ht, _⟩ := ha.past e he
      exact decide_eq_true (haside _ (List.getElem?_eq_some_iff.1 ht).1)
  have horder := h.order
  rw [due, hearly, hended, hq, hlate] at horder
  simpa using horder

end Ordered

/-! ### Whole runs -/

section Run

variable {g₀ : TaskGroup α}

/-- What is known of a group on the way at any moment. -/
theorem known (hg : g₀.tasks = []) (hj : g₀.join = {}) (h : (start g₀).run moves = some d) :
    Accounted ((start g₀).groupMoves moves) d.group ∧ d.Standing ∧
      Ordered (goesIn moves) ((start g₀).groupMoves moves) ((start g₀).putOffIn moves) d := by
  refine ⟨Accounted.run hg hj (run_groupMoves h), ?_⟩
  refine foldlM_induction (P := fun moves d => d.Standing ∧
    Ordered (goesIn moves) ((start g₀).groupMoves moves) ((start g₀).putOffIn moves) d)
    ⟨.start hg, .start hg⟩ (fun before move d d' hrun ih hstep => ?_) h
  have haccount : Accounted ((start g₀).groupMoves before) d.group := Accounted.run hg hj (run_groupMoves hrun)
  have hm := moved_of_step hstep
  refine ⟨ih.1.step hm haccount.whole, ?_⟩
  rw [goesIn_concat, groupMoves, putOffIn, along_concat act? hrun, along_concat putOff? hrun]
  exact ih.2.step ih.1 haccount hm

end Run

/-! ### The way to the end -/

theorem run_append {first second : List (DrainMove α)} {d₁ d₂ : Drain α} (h : d.run first = some d₁)
    (h' : d₁.run second = some d₂) : d.run (first ++ second) = some d₂ := by
  rw [run, List.foldlM_append, ← run, h]
  exact h'

/-- A task stands in front, or comes there once it is not put off any more, if one is over and not joined. -/
theorem exists_front (h : d.Standing) (hwhole : ∀ t ∈ d.group.tasks, t.state ≠ .aborted)
    (hidle : ∀ t ∈ d.group.tasks, t.state ≠ .running) (ho : d.group.openCount ≠ 0) :
    ∃ (returns : List (DrainMove α)) (d' : Drain α) (i : Nat) (queue : List Nat), (∀ m, .group m ∉ returns) ∧
      d.run returns = some d' ∧ d'.group = d.group ∧ d'.Standing ∧ d'.queue = i :: queue := by
  cases hq : d.queue with
  | cons i queue => exact ⟨[], d, i, queue, nofun, rfl, rfl, h, hq⟩
  | nil =>
    obtain ⟨⟨name, state⟩, ht, hopen⟩ := List.countP_pos_iff.1 (Nat.pos_of_ne_zero ho)
    obtain ⟨i, hi⟩ := List.mem_iff_getElem?.1 ht
    cases state with
    | ended how =>
      have hoff : i ∈ d.off := by
        have hs : i ∈ d.pending := h.stands i _ hi
        rwa [pending, hq, List.nil_append] at hs
      have hback : d.step (.back i) = some { d with queue := d.queue ++ [i], off := d.off.erase i } := by
        rw [step, if_pos hoff]
      refine ⟨[.back i], { d with queue := d.queue ++ [i], off := d.off.erase i }, i, [], by simp, ?_, rfl,
        h.step (moved_of_step hback) fun _ => hwhole, by rw [hq, List.nil_append]⟩
      rw [run, List.foldlM_cons, hback]
      rfl
    | running => exact absurd rfl (hidle _ ht)
    | joined | aborted => cases hopen

/-- In a new go the owner of a group joins a task, if there is one to join and none is at work. -/
theorem exists_look (h : d.Standing) (hd : d.group.dropped = false)
    (hwhole : ∀ t ∈ d.group.tasks, t.state ≠ .aborted) (hidle : ∀ t ∈ d.group.tasks, t.state ≠ .running)
    (ho : d.group.openCount ≠ 0) :
    ∃ (i : Nat) (name : String) (how : TaskEnd α) (looks : List (DrainMove α)) (d' : Drain α),
      d.group.tasks[i]? = some ⟨name, .ended how⟩ ∧ (∀ m, .group m ∉ looks) ∧ d.run looks = some d' ∧
        d'.group = d.group.joinReport (how.report i name) ∧ d'.Standing := by
  obtain ⟨returns, d₁, i, queue, hreturns, hrun, hgroup, hstanding, hq⟩ := exists_front h hwhole hidle ho
  obtain ⟨⟨name, state⟩, ht, hjoined⟩ := hstanding.front hq
  rw [← hgroup] at hd hwhole hidle ⊢
  cases state with
  | ended how =>
    have hgo : d₁.step (.go goLimit) = some { d₁ with left := goLimit } := by rw [step, if_pos (Nat.le_refl _)]
    have hjoin : d₁.group.step (.join i) = some (d₁.group.joinReport (how.report i name)) := by
      simp [TaskGroup.step, ht, hd]
    have hlook : Drain.step { d₁ with left := goLimit } .look = some { d₁ with
        group := d₁.group.joinReport (how.report i name)
        queue, left := goLimit - 1, begun := true } := by
      simp [step, look?, hq, hd, hjoin, goLimit]
    have hstanding' := (hstanding.step (moved_of_step hgo) fun _ => hwhole).step (moved_of_step hlook) fun _ => hwhole
    refine ⟨i, name, how, returns ++ [.go goLimit, .look], _, ht, fun m hm => hreturns m (by simpa using hm),
      run_append hrun ?_, rfl, hstanding'⟩
    rw [run, List.foldlM_cons, hgo]
    simpa using hlook
  | running => exact absurd rfl (hidle _ (List.mem_of_getElem? ht))
  | joined => exact absurd rfl hjoined
  | aborted => exact absurd rfl (hwhole _ (List.mem_of_getElem? ht))

/-- When no task is at work any more the owner of a group joins them all by looking alone. -/
theorem exists_looks (h : d.Standing) (hd : d.group.dropped = false)
    (hwhole : ∀ t ∈ d.group.tasks, t.state ≠ .aborted) (hidle : ∀ t ∈ d.group.tasks, t.state ≠ .running) :
    ∃ (looks : List (DrainMove α)) (d' : Drain α), (∀ m, .group m ∉ looks) ∧ d.run looks = some d' ∧
      ∀ t ∈ d'.group.tasks, t.state = .joined := by
  induction hn : d.group.openCount generalizing d with
  | zero =>
    refine ⟨[], d, nofun, rfl, fun t ht => ?_⟩
    have ho := List.countP_eq_zero.1 hn t ht
    cases hs : t.state with
    | joined => rfl
    | running => exact absurd hs (hidle t ht)
    | aborted => exact absurd hs (hwhole t ht)
    | ended how => simp [GroupTask.isOpen, hs] at ho
  | succ n ih =>
    obtain ⟨i, name, how, first, d₁, hi, hfirst, hrun, hgroup, hstanding⟩ :=
      exists_look h hd hwhole hidle (by rw [hn]; exact Nat.succ_ne_zero n)
    obtain ⟨forest, hook, told, e⟩ := joinReport_cases hi how
    rw [e] at hgroup
    have hmem {t : GroupTask α} (ht : t ∈ d₁.group.tasks) : t ∈ d.group.tasks ∨ t.state = .joined := by
      rw [hgroup] at ht
      exact (List.mem_or_eq_of_mem_set ht).imp_right (congrArg GroupTask.state)
    have hcount : d₁.group.openCount = n := by
      obtain ⟨hlt, hget⟩ := List.getElem?_eq_some_iff.1 hi
      have hset := List.countP_set (p := GroupTask.isOpen) (a := ⟨name, .joined⟩) hlt
      rw [hget] at hset
      rw [openCount] at hn
      rw [hgroup, openCount, hset, hn]
      rfl
    obtain ⟨looks, d', hlooks, hrun', hall⟩ := ih hstanding (by rw [hgroup]; exact hd)
      (fun t ht => (hmem ht).elim (hwhole t) fun e => by simp [e])
      (fun t ht => (hmem ht).elim (hidle t) fun e => by simp [e]) hcount
    exact ⟨first ++ looks, d', fun m hm => (List.mem_append.1 hm).elim (hfirst m) (hlooks m),
      run_append hrun hrun', hall⟩

end StageTree.Drain

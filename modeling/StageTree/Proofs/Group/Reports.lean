import Mathlib.Data.List.Perm.Subperm
import StageTree.Proofs.Group.Moves

/-! The reports of a group. Each task that is joined leaves one, and it tells how the task ended; once all
tasks are joined there is one for each of them. -/

namespace StageTree

variable {α : Type}

namespace GroupMove

def spawned? : GroupMove α → Option String
  | .spawn name => some name
  | _ => none

def ended? : GroupMove α → Option (Nat × TaskEnd α)
  | .finish i how => some (i, how)
  | _ => none

def joined? : GroupMove α → Option Nat
  | .join i => some i
  | _ => none

end GroupMove

namespace TaskGroup

variable {g g' g₀ : TaskGroup α} {move : GroupMove α} {moves : List (GroupMove α)} {i : Nat}

def spawnedIn (moves : List (GroupMove α)) : List String := moves.filterMap GroupMove.spawned?

/-- The tasks in the order in which they ended, and how they did. -/
def endedIn (moves : List (GroupMove α)) : List (Nat × TaskEnd α) := moves.filterMap GroupMove.ended?

def joinedIn (moves : List (GroupMove α)) : List Nat := moves.filterMap GroupMove.joined?

theorem spawnedIn_concat (moves : List (GroupMove α)) (move : GroupMove α) :
    spawnedIn (moves ++ [move]) = spawnedIn moves ++ move.spawned?.toList := by
  rw [spawnedIn, List.filterMap_append]
  cases move <;> rfl

theorem endedIn_concat (moves : List (GroupMove α)) (move : GroupMove α) :
    endedIn (moves ++ [move]) = endedIn moves ++ move.ended?.toList := by
  rw [endedIn, List.filterMap_append]
  cases move <;> rfl

theorem joinedIn_concat (moves : List (GroupMove α)) (move : GroupMove α) :
    joinedIn (moves ++ [move]) = joinedIn moves ++ move.joined?.toList := by
  rw [joinedIn, List.filterMap_append]
  cases move <;> rfl

theorem spawnedIn_keep (moves : List (GroupMove α)) (h : move.spawned? = none) :
    spawnedIn (moves ++ [move]) = spawnedIn moves := by
  rw [spawnedIn_concat, h]
  exact List.append_nil _

theorem endedIn_keep (moves : List (GroupMove α)) (h : move.ended? = none) :
    endedIn (moves ++ [move]) = endedIn moves := by
  rw [endedIn_concat, h]
  exact List.append_nil _

theorem joinedIn_keep (moves : List (GroupMove α)) (h : move.joined? = none) :
    joinedIn (moves ++ [move]) = joinedIn moves := by
  rw [joinedIn_concat, h]
  exact List.append_nil _

/-- A group that keeps account of its tasks. -/
structure Accounted (moves : List (GroupMove α)) (g : TaskGroup α) : Prop where
  names : g.tasks.map GroupTask.name = spawnedIn moves
  joined : g.join.reports.map Report.index = joinedIn moves
  nodup : (joinedIn moves).Nodup
  reports : ∀ r ∈ g.join.reports, g.tasks[r.index]? = some ⟨r.name, .joined⟩ ∧
    ∃ how, (r.index, how) ∈ endedIn moves ∧ r = how.report r.index r.name
  mem : ∀ i name, g.tasks[i]? = some ⟨name, .joined⟩ → i ∈ joinedIn moves
  ended : ∀ i name how, g.tasks[i]? = some ⟨name, .ended how⟩ → (i, how) ∈ endedIn moves
  once : ((endedIn moves).map Prod.fst).Nodup
  /-- A task that ended is not at work any more. -/
  past : ∀ e ∈ endedIn moves, ∃ t, g.tasks[e.1]? = some t ∧ t.state ≠ .running
  whole : g.dropped = false → ∀ t ∈ g.tasks, t.state ≠ .aborted
  error : g.join.error = (g.join.reports.map Report.error).foldl Join.firstError none

namespace Accounted

theorem begin (hg : g.tasks = []) (hj : g.join = {}) : Accounted [] g where
  names := by simp [hg, spawnedIn]
  joined := by simp [hj, joinedIn]
  nodup := .nil
  reports := by simp [hj]
  mem := by simp [hg]
  ended := by simp [hg]
  once := .nil
  past := by simp [endedIn]
  whole := by simp [hg]
  error := by simp [hj]

/-- A move that neither spawns nor ends nor joins a task. -/
theorem congr (h : Accounted moves g) (hs : move.spawned? = none) (he : move.ended? = none)
    (hj : move.joined? = none) (htasks : g'.tasks = g.tasks) (hjoin : g'.join = g.join)
    (hd : g'.dropped = false → g.dropped = false) : Accounted (moves ++ [move]) g' := by
  have hspawned := spawnedIn_keep moves hs
  have hended := endedIn_keep moves he
  have hjoined := joinedIn_keep moves hj
  constructor
  · rw [htasks, hspawned, h.names]
  · rw [hjoin, hjoined, h.joined]
  · rw [hjoined]
    exact h.nodup
  · rw [htasks, hjoin, hended]
    exact h.reports
  · rw [htasks, hjoined]
    exact h.mem
  · rw [htasks, hended]
    exact h.ended
  · rw [hended]
    exact h.once
  · rw [htasks, hended]
    exact h.past
  · rw [htasks]
    exact fun hd' => h.whole (hd hd')
  · rw [hjoin]
    exact h.error

theorem spawn (h : Accounted moves g) (hd : g.dropped = false) (name : String) :
    Accounted (moves ++ [.spawn name]) { g with tasks := g.tasks ++ [⟨name, .running⟩] } := by
  have hended : endedIn (moves ++ [.spawn name]) = endedIn moves := endedIn_keep moves rfl
  have hjoined : joinedIn (moves ++ [.spawn name]) = joinedIn moves := joinedIn_keep moves rfl
  have hold {i : Nat} {t : GroupTask α} (ht : g.tasks[i]? = some t) :
      (g.tasks ++ [⟨name, .running⟩])[i]? = some t := by
    rw [List.getElem?_append_left (List.getElem?_eq_some_iff.1 ht).1, ht]
  -- the task that comes is at work
  have hnew {i : Nat} {t : GroupTask α} (ht : (g.tasks ++ [⟨name, .running⟩])[i]? = some t)
      (hs : t.state ≠ .running) : g.tasks[i]? = some t := by
    rcases Nat.lt_or_ge i g.tasks.length with hlt | hge
    · rwa [List.getElem?_append_left hlt] at ht
    · rw [List.getElem?_append_right hge] at ht
      have := List.mem_of_getElem? ht
      rw [List.mem_singleton.1 this] at hs
      exact absurd rfl hs
  constructor
  · rw [List.map_append, h.names, spawnedIn_concat]
    rfl
  · rw [hjoined, h.joined]
  · rw [hjoined]
    exact h.nodup
  · rw [hended]
    exact fun r hr => (h.reports r hr).imp_left hold
  · rw [hjoined]
    exact fun i name ht => h.mem i name (hnew ht (by simp))
  · rw [hended]
    exact fun i name how ht => h.ended i name how (hnew ht (by simp))
  · rw [hended]
    exact h.once
  · rw [hended]
    exact fun e he => (h.past e he).imp fun t ht => ht.imp_left hold
  · intro _ t ht
    rcases List.mem_append.1 ht with ht | ht
    · exact h.whole hd t ht
    · rw [List.mem_singleton.1 ht]
      simp
  · exact h.error

/-- A task that goes on from one state to another one. -/
theorem set_cases {name : String} {state state' : TaskState α} {t : GroupTask α} {j : Nat}
    (ht : g.tasks[i]? = some ⟨name, state⟩) (hj : (g.tasks.set i ⟨name, state'⟩)[j]? = some t) :
    j = i ∧ t = ⟨name, state'⟩ ∨ j ≠ i ∧ g.tasks[j]? = some t := by
  by_cases e : j = i
  · subst e
    rw [List.getElem?_set_self (List.getElem?_eq_some_iff.1 ht).1] at hj
    exact .inl ⟨rfl, (Option.some.inj hj).symm⟩
  · rw [List.getElem?_set_ne (Ne.symm e)] at hj
    exact .inr ⟨e, hj⟩

theorem getElem?_set_of_ne {name : String} {state state' : TaskState α} {t : GroupTask α} {j : Nat}
    (ht : g.tasks[i]? = some ⟨name, state⟩) (hj : g.tasks[j]? = some t) (hs : t.state ≠ state) :
    (g.tasks.set i ⟨name, state'⟩)[j]? = some t := by
  rw [List.getElem?_set_ne, hj]
  rintro rfl
  rw [ht] at hj
  exact hs (Option.some.inj hj ▸ rfl)

theorem names_set {name : String} {state state' : TaskState α} (ht : g.tasks[i]? = some ⟨name, state⟩) :
    (g.tasks.set i ⟨name, state'⟩).map GroupTask.name = g.tasks.map GroupTask.name := by
  refine List.ext_getElem? fun j => ?_
  rw [List.getElem?_map, List.getElem?_map]
  by_cases e : i = j
  · subst e
    rw [List.getElem?_set_self (List.getElem?_eq_some_iff.1 ht).1, ht]
    rfl
  · rw [List.getElem?_set_ne e]

theorem finish (h : Accounted moves g) {name : String} (how : TaskEnd α)
    (ht : g.tasks[i]? = some ⟨name, .running⟩) :
    Accounted (moves ++ [.finish i how]) { g with tasks := g.tasks.set i ⟨name, .ended how⟩ } := by
  have hspawned : spawnedIn (moves ++ [.finish i how]) = spawnedIn moves := spawnedIn_keep moves rfl
  have hended : endedIn (moves ++ [.finish i how]) = endedIn moves ++ [(i, how)] := endedIn_concat moves _
  have hjoined : joinedIn (moves ++ [.finish i how]) = joinedIn moves := joinedIn_keep moves rfl
  have hself : (g.tasks.set i ⟨name, .ended how⟩)[i]? = some ⟨name, .ended how⟩ :=
    List.getElem?_set_self (List.getElem?_eq_some_iff.1 ht).1
  constructor
  · rw [names_set ht, h.names, hspawned]
  · rw [hjoined, h.joined]
  · rw [hjoined]
    exact h.nodup
  · intro r hr
    obtain ⟨htask, how', hm, e⟩ := h.reports r hr
    rw [hended]
    exact ⟨getElem?_set_of_ne ht htask (by simp), how', List.mem_append_left _ hm, e⟩
  · intro j name' hj
    rw [hjoined]
    rcases set_cases ht hj with ⟨_, e⟩ | ⟨_, hj⟩
    · simp at e
    · exact h.mem j name' hj
  · intro j name' how' hj
    rw [hended]
    rcases set_cases ht hj with ⟨rfl, e⟩ | ⟨_, hj⟩
    · obtain ⟨_, rfl⟩ : name' = name ∧ how' = how := by simpa using e
      simp
    · exact List.mem_append_left _ (h.ended j name' how' hj)
  · rw [hended, List.map_append]
    refine List.nodup_append.2 ⟨h.once, List.nodup_singleton _, ?_⟩
    intro j hj k hk e
    obtain ⟨e', he', rfl⟩ := List.mem_map.1 hj
    obtain ⟨t, ht', hs⟩ := h.past e' he'
    rw [e, List.mem_singleton.1 hk, ht] at ht'
    exact hs (Option.some.inj ht' ▸ rfl)
  · intro e he
    rw [hended] at he
    rcases List.mem_append.1 he with he | he
    · obtain ⟨t, ht', hs⟩ := h.past e he
      exact ⟨t, getElem?_set_of_ne ht ht' hs, hs⟩
    · rw [List.mem_singleton.1 he]
      exact ⟨_, hself, by simp⟩
  · intro hd t ht'
    rcases List.mem_or_eq_of_mem_set ht' with ht' | rfl
    · exact h.whole hd t ht'
    · simp
  · exact h.error

theorem join (h : Accounted moves g) {name : String} {how : TaskEnd α}
    (ht : g.tasks[i]? = some ⟨name, .ended how⟩) :
    Accounted (moves ++ [.join i]) (g.joinReport (how.report i name)) := by
  have hspawned : spawnedIn (moves ++ [.join i]) = spawnedIn moves := spawnedIn_keep moves rfl
  have hended : endedIn (moves ++ [.join i]) = endedIn moves := endedIn_keep moves rfl
  have hjoined : joinedIn (moves ++ [.join i]) = joinedIn moves ++ [i] := joinedIn_concat moves _
  have hself : (g.tasks.set i ⟨name, .joined⟩)[i]? = some ⟨name, .joined⟩ :=
    List.getElem?_set_self (List.getElem?_eq_some_iff.1 ht).1
  obtain ⟨forest, hook, told, e⟩ := joinReport_cases ht how
  rw [e]
  clear e
  constructor
  · rw [names_set ht, h.names, hspawned]
  · rw [hjoined, Join.add, List.map_append, h.joined, List.map_singleton, TaskEnd.report_index]
  · rw [hjoined]
    refine List.nodup_append.2 ⟨h.nodup, List.nodup_singleton _, ?_⟩
    intro j hj k hk e
    rw [← h.joined] at hj
    obtain ⟨r, hr, rfl⟩ := List.mem_map.1 hj
    have htask := (h.reports r hr).1
    rw [e, List.mem_singleton.1 hk, ht] at htask
    simp at htask
  · intro r hr
    rw [hended]
    rcases List.mem_append.1 hr with hr | hr
    · obtain ⟨htask, hhow⟩ := h.reports r hr
      exact ⟨getElem?_set_of_ne ht htask (by simp), hhow⟩
    · rw [List.mem_singleton.1 hr, TaskEnd.report_index, TaskEnd.report_name]
      exact ⟨hself, how, h.ended i name how ht, rfl⟩
  · intro j name' hj
    rw [hjoined]
    rcases set_cases ht hj with ⟨rfl, _⟩ | ⟨_, hj⟩
    · simp
    · exact List.mem_append_left _ (h.mem j name' hj)
  · intro j name' how' hj
    rw [hended]
    rcases set_cases ht hj with ⟨_, e⟩ | ⟨_, hj⟩
    · simp at e
    · exact h.ended j name' how' hj
  · rw [hended]
    exact h.once
  · intro e he
    rw [hended] at he
    by_cases ei : e.1 = i
    · rw [ei]
      exact ⟨_, hself, by simp⟩
    · rw [List.getElem?_set_ne (Ne.symm ei)]
      exact h.past e he
  · intro hd t ht'
    rcases List.mem_or_eq_of_mem_set ht' with ht' | rfl
    · exact h.whole hd t ht'
    · simp
  · rw [Join.add, List.map_append, List.foldl_append, ← h.error]
    rfl

theorem tearDown (h : Accounted moves g) : Accounted (moves ++ [.drop])
    (cancel { g with dropped := true, tasks := g.tasks.map GroupTask.tearDown } dropReason) := by
  have hended : endedIn (moves ++ [.drop]) = endedIn moves := endedIn_keep moves rfl
  have hjoined : joinedIn (moves ++ [.drop]) = joinedIn moves := joinedIn_keep moves rfl
  have hname (t : GroupTask α) : t.tearDown.name = t.name := by
    rw [GroupTask.tearDown]
    split <;> rfl
  have hstate (t : GroupTask α) : t.tearDown = t ∧ t.isOpen = false ∨ t.tearDown.state = .aborted := by
    rw [GroupTask.tearDown]
    split
    · exact .inr rfl
    · exact .inl ⟨rfl, eq_false_of_ne_true ‹_›⟩
  have hback {j : Nat} {t : GroupTask α} (hj : (g.tasks.map GroupTask.tearDown)[j]? = some t)
      (hs : t.state ≠ .aborted) : g.tasks[j]? = some t ∧ t.isOpen = false := by
    rw [List.getElem?_map] at hj
    obtain ⟨t', ht', rfl⟩ := Option.map_eq_some_iff.1 hj
    obtain ⟨e, ho⟩ := (hstate t').resolve_right hs
    rw [e]
    exact ⟨ht', ho⟩
  obtain ⟨f, e⟩ := tearDown_cases g
  rw [e]
  constructor
  · rw [List.map_map, spawnedIn_concat, ← h.names]
    refine (List.map_congr_left fun t _ => hname t).trans (List.append_nil _).symm
  · rw [hjoined, h.joined]
  · rw [hjoined]
    exact h.nodup
  · intro r hr
    obtain ⟨htask, hhow⟩ := h.reports r hr
    rw [hended]
    refine ⟨?_, hhow⟩
    rw [List.getElem?_map, htask]
    rfl
  · intro j name hj
    rw [hjoined]
    exact h.mem j name (hback hj (by simp)).1
  · intro j name how hj
    exact absurd (hback hj (by simp)).2 (by simp [GroupTask.isOpen])
  · rw [hended]
    exact h.once
  · intro e he
    rw [hended] at he
    obtain ⟨t, ht, hs⟩ := h.past e he
    refine ⟨t.tearDown, by rw [List.getElem?_map, ht]; rfl, ?_⟩
    rcases hstate t with ⟨e, _⟩ | e <;> rw [e]
    · exact hs
    · simp
  · exact fun hd => by cases hd
  · exact h.error

theorem moved (h : Accounted moves g) (hm : g.Moved move g') : Accounted (moves ++ [move]) g' := by
  cases hm with
  | spawn hd => exact h.spawn hd _
  | scope | work => exact h.congr rfl rfl rfl rfl rfl id
  | drop => exact h.congr rfl rfl rfl rfl rfl nofun
  | finish ht => exact h.finish _ ht
  | join ht => exact h.join ht
  | tearDown => exact h.tearDown

/-! ### What the account comes to -/

theorem run (hg : g.tasks = []) (hj : g.join = {}) (h : g.run moves = some g') : Accounted moves g' :=
  foldlM_induction (P := Accounted) (begin hg hj) (fun _ _ _ _ _ ih hs => ih.moved (moved_of_step hs)) h

theorem name_eq (h : Accounted moves g) {r : Report α} (hr : r ∈ g.join.reports) :
    (spawnedIn moves)[r.index]? = some r.name := by
  rw [← h.names, List.getElem?_map, (h.reports r hr).1]
  rfl

theorem lt_of_mem (h : Accounted moves g) {i : Nat} (hi : i ∈ joinedIn moves) : i < (spawnedIn moves).length := by
  rw [← h.joined] at hi
  obtain ⟨r, hr, rfl⟩ := List.mem_map.1 hi
  exact (List.getElem?_eq_some_iff.1 (h.name_eq hr)).1

/-- Once all tasks are joined each of them has left one report. -/
theorem perm (h : Accounted moves g) (hall : ∀ t ∈ g.tasks, t.state = .joined) :
    (g.join.reports.map Report.index).Perm (List.range (spawnedIn moves).length) := by
  rw [h.joined]
  refine (List.perm_ext_iff_of_nodup h.nodup List.nodup_range).2 fun i => ?_
  rw [List.mem_range]
  refine ⟨h.lt_of_mem, fun hi => ?_⟩
  rw [← h.names, List.length_map] at hi
  have ht : g.tasks[i]? = some g.tasks[i] := List.getElem?_eq_getElem hi
  refine h.mem i g.tasks[i].name ?_
  rw [ht, ← hall _ (List.getElem_mem hi)]

theorem ordered_index (h : Accounted moves g) (hall : ∀ t ∈ g.tasks, t.state = .joined) :
    g.join.ordered.map Report.index = List.range (spawnedIn moves).length := by
  have hp : (g.join.ordered.map Report.index).Perm (List.range (spawnedIn moves).length) :=
    ((List.mergeSort_perm _ _).map _).trans (h.perm hall)
  have hs : (g.join.ordered.map Report.index).Pairwise (· ≤ ·) :=
    List.pairwise_map.2 (pairwise_mergeSort_key Report.index g.join.reports)
  exact hp.eq_of_pairwise (fun _ _ _ _ hab hba => Nat.le_antisymm hab hba) hs List.pairwise_le_range

theorem ordered_name (h : Accounted moves g) (hall : ∀ t ∈ g.tasks, t.state = .joined) :
    g.join.ordered.map Report.name = spawnedIn moves := by
  have hindex := h.ordered_index hall
  refine List.ext_getElem? fun k => ?_
  rcases Nat.lt_or_ge k (spawnedIn moves).length with hk | hk
  · have hlen : k < g.join.ordered.length := by
      rw [← List.length_map Report.index, hindex, List.length_range]
      exact hk
    have hmem : g.join.ordered[k] ∈ g.join.reports :=
      (List.mergeSort_perm _ _).mem_iff.1 (List.getElem_mem hlen)
    have hki : g.join.ordered[k].index = k := by
      have := congrArg (·[k]?) hindex
      simpa [hlen, hk] using this
    have hname := h.name_eq hmem
    rw [hki] at hname
    rw [hname, List.getElem?_map, List.getElem?_eq_getElem hlen, Option.map_some]
  · have hlen : (g.join.ordered.map Report.name).length ≤ k := by
      rw [List.length_map, ← List.length_map Report.index, hindex, List.length_range]
      exact hk
    rw [List.getElem?_eq_none hlen, List.getElem?_eq_none hk]

/-- Where the tasks are joined as they end, the reports are those of the ends. -/
theorem reports_eq (h : Accounted moves g) (horder : joinedIn moves = (endedIn moves).map Prod.fst) :
    g.join.reports.map some =
      (endedIn moves).map fun (i, how) => (spawnedIn moves)[i]?.map fun name => how.report i name := by
  have hindex : g.join.reports.map Report.index = (endedIn moves).map Prod.fst := by rw [h.joined, horder]
  have hlength : g.join.reports.length = (endedIn moves).length := by
    rw [← List.length_map Report.index, hindex, List.length_map]
  refine List.ext_getElem (by rw [List.length_map, List.length_map, hlength]) fun k hk hk' => ?_
  rw [List.length_map] at hk hk'
  rw [List.getElem_map, List.getElem_map]
  have hr := List.getElem_mem hk
  have he := List.getElem_mem hk'
  obtain ⟨_, how, hm, hhow⟩ := h.reports _ hr
  -- the end that the report tells of is the one at its place
  have hfst : g.join.reports[k].index = (endedIn moves)[k].1 := by
    have := congrArg (·[k]?) hindex
    simpa [hk, hk'] using this
  have hend : (endedIn moves)[k] = (g.join.reports[k].index, how) :=
    List.inj_on_of_nodup_map h.once he hm hfst.symm
  rw [hend]
  dsimp only
  rw [h.name_eq hr, Option.map_some, ← hhow]

end Accounted

end TaskGroup

end StageTree

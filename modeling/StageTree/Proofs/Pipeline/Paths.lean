import Mathlib.Data.Set.Function
import StageTree.Proofs.Pipeline.Valid

/-! Stages and the names that lead to them. A search for a path of names takes the first stage of each name and
never turns back, so it finds the stage at a place only if no stage beside one on the way has the same name; the
rules say this of every group, and nothing of names that are not beside each other. -/

namespace StageTree

namespace Stage

variable {stages : List Stage} {s t : Stage} {above path : List String} {place place' : List Nat}

/-- The stage at a place among stages: the place says which of them it is or is below, then which branch of that
one, and so on. -/
def atAmong? (stages : List Stage) : List Nat → Option Stage
  | [] => none
  | i :: place => stages[i]?.bind (at? place)

/-- The names on the way to a place, that of the stage there included. -/
def namesTo (stages : List Stage) : List Nat → List String
  | [] => []
  | i :: place => stages[i]?.elim [] fun s => s.name :: namesTo s.branches place

theorem at?_cons (i : Nat) (place : List Nat) (s : Stage) : s.at? (i :: place) = atAmong? s.branches (i :: place) := rfl

theorem namesTo_cons {i : Nat} (h : stages[i]? = some t) (place : List Nat) :
    namesTo stages (i :: place) = t.name :: namesTo t.branches place := by
  rw [namesTo, h, Option.elim_some]

theorem namesTo_ne_nil (h : atAmong? stages place = some s) : namesTo stages place ≠ [] := by
  cases place with
  | nil => cases h
  | cons i place =>
    obtain ⟨t, ht, _⟩ := Option.bind_eq_some_iff.1 h
    rw [namesTo_cons ht]
    exact List.cons_ne_nil _ _

/-! ### The walk of a search -/

theorem find?_cons (stages : List Stage) (name : String) (path : List String) : find? stages (name :: path) =
    (named? name stages).bind fun t => if path = [] then some t else find? t.branches path := by
  cases path with
  | nil => cases h : named? name stages <;> simp [find?, h]
  | cons c path => rw [find?] <;> simp

/-- Where the names around every stage are distinct, the names on the way to a stage lead to it. -/
theorem find?_namesTo (hnames : (stages.map name).Nodup) (hproper : ∀ t ∈ stages, t.Proper)
    (h : atAmong? stages place = some s) : find? stages (namesTo stages place) = some s := by
  induction place generalizing stages with
  | nil => cases h
  | cons i place ih =>
    obtain ⟨t, ht, hs⟩ := Option.bind_eq_some_iff.1 h
    have hmem : t ∈ stages := List.mem_of_getElem? ht
    have hnamed : named? t.name stages = some t := (find?_key_eq_some hnames).2 ⟨hmem, rfl⟩
    rw [namesTo_cons ht, find?_cons, hnamed, Option.bind_some]
    cases place with
    | nil => exact hs
    | cons j place =>
      rw [at?_cons] at hs
      rw [if_neg (namesTo_ne_nil hs)]
      exact ih (hproper t hmem).names (fun b hb => (hproper t hmem).branch hb) hs

/-- What is found is at the end of the names that were looked for. -/
theorem exists_place (h : find? stages path = some s) :
    ∃ place, atAmong? stages place = some s ∧ namesTo stages place = path := by
  induction path generalizing stages with
  | nil => simp [find?] at h
  | cons name path ih =>
    rw [find?_cons] at h
    obtain ⟨t, ht, hs⟩ := Option.bind_eq_some_iff.1 h
    obtain rfl : t.name = name := by simpa using List.find?_some ht
    obtain ⟨i, hi⟩ := List.mem_iff_getElem?.1 (List.mem_of_find?_eq_some ht)
    by_cases hpath : path = []
    · rw [if_pos hpath] at hs
      exact ⟨[i], by rw [atAmong?, hi]; exact hs, by rw [namesTo_cons hi, hpath]; rfl⟩
    · rw [if_neg hpath] at hs
      obtain ⟨place, hplace, rfl⟩ := ih hs
      cases place with
      | nil => exact absurd rfl hpath
      | cons j place => exact ⟨i :: j :: place, by rw [atAmong?, hi]; exact hplace, namesTo_cons hi _⟩

/-- Where the names around every stage are distinct, no two places have the same names on the way. -/
theorem place_eq_of_namesTo_eq (hnames : (stages.map name).Nodup) (hproper : ∀ t ∈ stages, t.Proper)
    (h : (atAmong? stages place).isSome = true) (h' : (atAmong? stages place').isSome = true)
    (heq : namesTo stages place = namesTo stages place') : place = place' := by
  induction place generalizing stages place' with
  | nil => cases h
  | cons i place ih =>
    cases place' with
    | nil => cases h'
    | cons i' place' =>
      obtain ⟨s, hs⟩ := Option.isSome_iff_exists.1 h
      obtain ⟨s', hs'⟩ := Option.isSome_iff_exists.1 h'
      obtain ⟨t, ht, hs⟩ := Option.bind_eq_some_iff.1 hs
      obtain ⟨t', ht', hs'⟩ := Option.bind_eq_some_iff.1 hs'
      rw [namesTo_cons ht, namesTo_cons ht'] at heq
      obtain ⟨hname, hrest⟩ := List.cons.inj heq
      obtain rfl : i = i' := by
        have hlt : i < (stages.map Stage.name).length := by
          rw [List.length_map]
          exact (List.getElem?_eq_some_iff.1 ht).1
        refine (List.getElem?_inj hlt hnames).1 ?_
        rw [List.getElem?_map, List.getElem?_map, ht, ht', Option.map_some, Option.map_some, hname]
      obtain rfl := Option.some.inj (ht.symm.trans ht')
      -- of two places that are the same so far, one is at its end only if both are
      cases place with
      | nil =>
        cases place' with
        | nil => rfl
        | cons j' place' => exact absurd hrest.symm (namesTo_ne_nil hs')
      | cons j place =>
        cases place' with
        | nil => exact absurd hrest (namesTo_ne_nil hs)
        | cons j' place' =>
          have hmem : t ∈ stages := List.mem_of_getElem? ht
          rw [at?_cons] at hs hs'
          rw [ih (hproper t hmem).names (fun b hb => (hproper t hmem).branch hb)
            (Option.isSome_iff_exists.2 ⟨s, hs⟩) (Option.isSome_iff_exists.2 ⟨s', hs'⟩) hrest]

/-! ### The list of all paths -/

theorem mem_preorder_iff : (path, s) ∈ t.preorder above ↔
    ∃ place, t.at? place = some s ∧ path = above ++ t.name :: namesTo t.branches place := by
  induction t using Stage.induction generalizing above with
  | h t ih =>
    rw [preorder_eq, List.mem_cons, mem_preorderAll]
    constructor
    · rintro (h | ⟨b, hb, h⟩)
      · obtain ⟨rfl, rfl⟩ := Prod.mk.inj h
        exact ⟨[], rfl, rfl⟩
      · obtain ⟨place, hs, rfl⟩ := (ih b hb).1 h
        obtain ⟨i, hi⟩ := List.mem_iff_getElem?.1 hb
        refine ⟨i :: place, ?_, ?_⟩
        · rw [at?, hi]
          exact hs
        · rw [namesTo_cons hi, List.append_assoc]
          rfl
    · rintro ⟨place, hs, rfl⟩
      cases place with
      | nil =>
        obtain rfl := Option.some.inj hs
        exact .inl rfl
      | cons i place =>
        obtain ⟨b, hi, hs⟩ := Option.bind_eq_some_iff.1 hs
        have hb : b ∈ t.branches := List.mem_of_getElem? hi
        refine .inr ⟨b, hb, (ih b hb).2 ⟨place, hs, ?_⟩⟩
        rw [namesTo_cons hi, List.append_assoc]
        rfl

/-- The list of all stages has every place with the names on the way to it. -/
theorem mem_preorderAll_iff : (path, s) ∈ preorderAll above stages ↔
    ∃ place, atAmong? stages place = some s ∧ path = above ++ namesTo stages place := by
  rw [mem_preorderAll]
  constructor
  · rintro ⟨t, ht, h⟩
    obtain ⟨place, hs, rfl⟩ := mem_preorder_iff.1 h
    obtain ⟨i, hi⟩ := List.mem_iff_getElem?.1 ht
    exact ⟨i :: place, by rw [atAmong?, hi]; exact hs, by rw [namesTo_cons hi]⟩
  · rintro ⟨place, hs, rfl⟩
    cases place with
    | nil => cases hs
    | cons i place =>
      obtain ⟨t, hi, hs⟩ := Option.bind_eq_some_iff.1 hs
      exact ⟨t, List.mem_of_getElem? hi, mem_preorder_iff.2 ⟨place, hs, by rw [namesTo_cons hi]⟩⟩

theorem length_preorderAll (h : ∀ t ∈ stages, ∀ above, (t.preorder above).length = t.count) (above : List String) :
    (preorderAll above stages).length = countAll stages := by
  induction stages with
  | nil => rfl
  | cons t stages ih =>
    obtain ⟨ht, hstages⟩ := List.forall_mem_cons.1 h
    rw [preorderAll, countAll, List.length_append, ht, ih hstages]

theorem length_preorder (t : Stage) (above : List String) : (t.preorder above).length = t.count := by
  induction t using Stage.induction generalizing above with
  | h t ih =>
    rw [preorder_eq, List.length_cons, length_preorderAll fun b hb above => ih b hb above, count_eq, Nat.add_comm]

theorem nodup_paths_preorderAll (hnames : (stages.map name).Nodup)
    (h : ∀ t ∈ stages, ((t.preorder above).map Prod.fst).Nodup) :
    ((preorderAll above stages).map Prod.fst).Nodup := by
  induction stages with
  | nil => exact List.nodup_nil
  | cons t stages ih =>
    obtain ⟨hfresh, hnames⟩ := List.nodup_cons.1 hnames
    obtain ⟨ht, hstages⟩ := List.forall_mem_cons.1 h
    rw [preorderAll, List.map_append]
    refine ht.append (ih hnames hstages) fun path hp hp' => hfresh ?_
    obtain ⟨⟨_, s⟩, hn, rfl⟩ := List.mem_map.1 hp
    obtain ⟨⟨_, s'⟩, hn', rfl⟩ := List.mem_map.1 hp'
    -- the first name after those above tells below which stage of the list a path lies
    obtain ⟨b, hb, hn'⟩ := mem_preorderAll.1 hn'
    obtain ⟨place, _, hpath⟩ := mem_preorder_iff.1 hn
    obtain ⟨place', _, hpath'⟩ := mem_preorder_iff.1 hn'
    have heq := List.append_cancel_left (hpath.symm.trans hpath')
    exact List.mem_map.2 ⟨b, hb, (List.cons.inj heq).1.symm⟩

theorem nodup_paths_preorder (h : t.Proper) : ((t.preorder above).map Prod.fst).Nodup := by
  induction t using Stage.induction generalizing above with
  | h t ih =>
    rw [preorder_eq, List.map_cons, List.nodup_cons]
    refine ⟨fun hm => ?_, nodup_paths_preorderAll h.names fun b hb => ih b hb (h.branch hb)⟩
    obtain ⟨⟨_, s⟩, hn, heq⟩ := List.mem_map.1 hm
    obtain rfl := heq
    obtain ⟨place, hs, hpath⟩ := mem_preorderAll_iff.1 hn
    exact namesTo_ne_nil hs (List.append_right_eq_self.1 hpath.symm)

end Stage

namespace Pipeline

def at? (p : Pipeline) (place : List Nat) : Option Stage := Stage.atAmong? p.stages place

def namesTo (p : Pipeline) (place : List Nat) : List String := Stage.namesTo p.stages place

variable {p : Pipeline}

theorem mem_preorder_iff {path : List String} {s : Stage} :
    (path, s) ∈ p.preorder ↔ ∃ place, p.at? place = some s ∧ p.namesTo place = path := by
  rw [preorder, Stage.mem_preorderAll_iff]
  simp only [List.nil_append, at?, namesTo, eq_comm]

theorem Proper.find?_namesTo (h : p.Proper) {place : List Nat} {s : Stage} (hs : p.at? place = some s) :
    p.find? (p.namesTo place) = some s :=
  Stage.find?_namesTo h.names h.members hs

/-- A search finds the stages of the tree, each by its own path, and nothing else. -/
theorem Proper.find?_eq_some_iff (h : p.Proper) {path : List String} {s : Stage} :
    p.find? path = some s ↔ (path, s) ∈ p.preorder := by
  rw [mem_preorder_iff]
  constructor
  · exact Stage.exists_place
  · rintro ⟨place, hs, rfl⟩
    exact h.find?_namesTo hs

/-- Places and the paths that are found are the same thing. -/
theorem Proper.bijOn_namesTo (h : p.Proper) :
    Set.BijOn p.namesTo {place | (p.at? place).isSome = true} {path | (p.find? path).isSome = true} := by
  refine ⟨fun place hplace => ?_, fun place hplace place' hplace' heq => ?_, fun path hpath => ?_⟩
  · obtain ⟨s, hs⟩ := Option.isSome_iff_exists.1 hplace
    exact Option.isSome_iff_exists.2 ⟨s, h.find?_namesTo hs⟩
  · exact Stage.place_eq_of_namesTo_eq h.names h.members hplace hplace' heq
  · obtain ⟨s, hs⟩ := Option.isSome_iff_exists.1 hpath
    obtain ⟨place, hplace, hnames⟩ := Stage.exists_place hs
    exact ⟨place, Option.isSome_iff_exists.2 ⟨s, hplace⟩, hnames⟩

/-- Paths and stages of a pipeline that keeps the rules. The list of all stages has as many as are counted, with
paths that are distinct. It has every place of the tree with the names on the way to it; a search for these names
finds the stage at this place, and a search for anything else finds nothing. So the places where a stage is are in
bijection with the paths by which one is found. -/
theorem stages_by_path (h : p.violation? = none) :
    p.preorder.length = p.stageCount ∧ (p.preorder.map Prod.fst).Nodup ∧
      (∀ path s, (path, s) ∈ p.preorder ↔ ∃ place, p.at? place = some s ∧ p.namesTo place = path) ∧
      (∀ n ∈ p.preorder, p.find? n.1 = some n.2) ∧
      (∀ path, path ∉ p.preorder.map Prod.fst → p.find? path = none) ∧ p.find? [] = none ∧
      (∀ place, (p.at? place).isSome = true → p.find? (p.namesTo place) = p.at? place) ∧
      Set.BijOn p.namesTo {place | (p.at? place).isSome = true} {path | (p.find? path).isSome = true} := by
  have hp := proper_of_violation?_eq_none h
  refine ⟨Stage.length_preorderAll (fun t _ => t.length_preorder) [],
    Stage.nodup_paths_preorderAll hp.names fun t ht => Stage.nodup_paths_preorder (hp.members t ht),
    fun _ _ => mem_preorder_iff, fun _ hn => hp.find?_eq_some_iff.2 hn, fun path hpath => ?_, rfl,
    fun place hplace => ?_, hp.bijOn_namesTo⟩
  · refine Option.eq_none_iff_forall_ne_some.2 fun s hs => hpath ?_
    exact List.mem_map.2 ⟨(path, s), hp.find?_eq_some_iff.1 hs, rfl⟩
  · obtain ⟨s, hs⟩ := Option.isSome_iff_exists.1 hplace
    rw [hp.find?_namesTo hs, hs]

/-- One name at three places: on the way down, below itself, and in another group. -/
def echoes : Pipeline :=
  let leaf (name : String) : Stage := { name, steps := [.single "echo" name] }
  let deep : Stage := { name := "a", parallel := some [leaf "a", leaf "b"] }
  ⟨.none, [deep, { name := "c", parallel := some [leaf "a"], steps := [.single "echo" "c"] }]⟩

theorem stages_by_path_echoes : echoes.violation? = none ∧ echoes.stageCount = 5 ∧
    echoes.preorder.map Prod.fst = [["a"], ["a", "a"], ["a", "b"], ["c"], ["c", "a"]] ∧
      echoes.namesTo [1, 0] = ["c", "a"] ∧ echoes.find? ["c", "a"] = echoes.at? [1, 0] ∧
      echoes.find? ["c", "b"] = none := by
  have hvalid : echoes.violation? = none := by decide +kernel
  obtain ⟨hlength, _, _, _, hother, _, hplace, _⟩ := stages_by_path hvalid
  have hpaths : echoes.preorder.map Prod.fst = [["a"], ["a", "a"], ["a", "b"], ["c"], ["c", "a"]] := by
    decide +kernel
  refine ⟨hvalid, ?_, hpaths, by decide +kernel, hplace [1, 0] (by decide +kernel), hother _ ?_⟩
  · rw [← hlength]
    simpa using congrArg List.length hpaths
  · rw [hpaths]
    decide

end Pipeline

end StageTree

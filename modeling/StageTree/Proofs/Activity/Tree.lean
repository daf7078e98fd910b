import StageTree.Proofs.Pipeline.Repeats
import StageTree.Run.Activity

/-! The tree of a stage at work: induction over it, what a cancellation leaves as it is, its nodes with
their paths, and the node at the end of a path. With distinct names around every node the paths of the
nodes are distinct, and a node is the one at the end of its path. -/

namespace StageTree.Activity

variable {U : Type}

/-- A property holds of every tree if it passes from the branches of a node to the node. -/
theorem induction {P : Activity U → Prop} (h : ∀ a, (∀ b ∈ a.branches, P b) → P a) (a : Activity U) :
    P a :=
  Activity.rec (motive_1 := P) (motive_2 := fun l => ∀ b ∈ l, P b) (fun _ _ _ _ _ hb => h _ hb)
    (by simp) (fun _ _ ha has => by simpa using ⟨ha, has⟩) a

@[simp] theorem eta (a : Activity U) : ⟨a.stage, a.since, a.phase, a.fan, a.branches⟩ = a := by
  cases a; rfl

inductive Everywhere (P : Activity U → Prop) : Activity U → Prop
  | mk {a : Activity U} (here : P a) (branches : ∀ b ∈ a.branches, Everywhere P b) : Everywhere P a

namespace Everywhere

variable {P Q : Activity U → Prop} {a : Activity U}

theorem here : Everywhere P a → P a
  | mk h _ => h

theorem branch {b : Activity U} : Everywhere P a → b ∈ a.branches → Everywhere P b
  | mk _ h, hb => h b hb

theorem imp (hPQ : ∀ a, P a → Q a) (h : Everywhere P a) : Everywhere Q a := by
  induction h with
  | mk here _ ih => exact .mk (hPQ _ here) ih

end Everywhere

/-! ### Cancellation -/

theorem cancelAll_eq_map (reason : String) (as : List (Activity U)) :
    cancelAll reason as = as.map (cancel reason) := by
  induction as with
  | nil => rfl
  | cons a as ih => rw [cancelAll, ih, List.map_cons]

theorem cancel_fanned {a : Activity U} {join : Join Results} (reason : String) (hp : a.phase = .fanned)
    (hf : a.fan = some ⟨none, join⟩) :
    a.cancel reason =
      { a with fan := some ⟨some reason, join⟩, branches := a.branches.map (cancel reason) } := by
  obtain ⟨stage, since, phase, fan, branches⟩ := a
  subst hp hf
  rw [cancel, cancelAll_eq_map]

/-- A cancellation passes over a stage that has no group at work, or whose group is cancelled. -/
theorem cancel_of_ne {a : Activity U} (reason : String)
    (h : a.phase = .fanned → ∀ join, a.fan ≠ some ⟨none, join⟩) : a.cancel reason = a := by
  obtain ⟨stage, since, phase, fan, branches⟩ := a
  rw [cancel]
  exact fun join hp hf => absurd hf (h hp join)

theorem cancel_of_phase {a : Activity U} (reason : String) (h : a.phase ≠ .fanned) :
    a.cancel reason = a :=
  cancel_of_ne reason fun hp => absurd hp h

/-- Either a cancellation passes over a stage, or it meets a live group at work. -/
theorem cancel_cases (a : Activity U) (reason : String) :
    a.cancel reason = a ∨ ∃ join, a.phase = .fanned ∧ a.fan = some ⟨none, join⟩ ∧
      a.cancel reason =
        { a with fan := some ⟨some reason, join⟩, branches := a.branches.map (cancel reason) } := by
  by_cases h : ∃ join, a.phase = .fanned ∧ a.fan = some ⟨none, join⟩
  · obtain ⟨join, hp, hf⟩ := h
    exact .inr ⟨join, hp, hf, cancel_fanned reason hp hf⟩
  · exact .inl (cancel_of_ne reason fun hp join hf => h ⟨join, hp, hf⟩)

@[simp] theorem cancel_stage (a : Activity U) (reason : String) : (a.cancel reason).stage = a.stage := by
  rcases a.cancel_cases reason with h | ⟨_, _, _, h⟩ <;> rw [h]

@[simp] theorem cancel_since (a : Activity U) (reason : String) : (a.cancel reason).since = a.since := by
  rcases a.cancel_cases reason with h | ⟨_, _, _, h⟩ <;> rw [h]

@[simp] theorem cancel_phase (a : Activity U) (reason : String) : (a.cancel reason).phase = a.phase := by
  rcases a.cancel_cases reason with h | ⟨_, _, _, h⟩ <;> rw [h]

/-! ### Nodes and paths -/

mutual

/-- Every node of a tree with its path, each node before its branches. -/
def nodes (path : List String) : Activity U → List (List String × Activity U)
  | ⟨stage, since, phase, fan, branches⟩ =>
    (path, ⟨stage, since, phase, fan, branches⟩) :: nodesBelow path branches

def nodesBelow (path : List String) : List (Activity U) → List (List String × Activity U)
  | [] => []
  | a :: as => nodes (path ++ [a.stage.name]) a ++ nodesBelow path as

end

theorem nodes_eq (path : List String) (a : Activity U) :
    a.nodes path = (path, a) :: nodesBelow path a.branches := by
  obtain ⟨stage, since, phase, fan, branches⟩ := a
  rw [nodes]

theorem nodesBelow_eq_flatMap (path : List String) (as : List (Activity U)) :
    nodesBelow path as = as.flatMap fun a => a.nodes (path ++ [a.stage.name]) := by
  induction as with
  | nil => rfl
  | cons a as ih => rw [nodesBelow, ih, List.flatMap_cons]

theorem mem_nodesBelow {path : List String} {as : List (Activity U)} {n : List String × Activity U} :
    n ∈ nodesBelow path as ↔ ∃ a ∈ as, n ∈ a.nodes (path ++ [a.stage.name]) := by
  rw [nodesBelow_eq_flatMap, List.mem_flatMap]

def named? (name : String) (as : List (Activity U)) : Option (Activity U) :=
  as.find? (·.stage.name == name)

/-- The node at the end of a path of names below a node. -/
def at? : List String → Activity U → Option (Activity U)
  | [], a => some a
  | name :: path, a => (named? name a.branches).bind (at? path)

theorem at?_append (path rest : List String) (a : Activity U) :
    a.at? (path ++ rest) = (a.at? path).bind (at? rest) := by
  induction path generalizing a with
  | nil => rfl
  | cons name path ih =>
    rw [List.cons_append, at?, at?, Option.bind_assoc]
    exact congrArg _ (funext ih)

/-- A tree in which the branches of every node have distinct names. -/
abbrev Distinct : Activity U → Prop := Everywhere fun a => (a.branches.map (·.stage.name)).Nodup

theorem named?_eq_some {as : List (Activity U)} (h : (as.map (·.stage.name)).Nodup) {name : String}
    {a : Activity U} : named? name as = some a ↔ a ∈ as ∧ a.stage.name = name :=
  find?_key_eq_some h

theorem at?_cons_of_mem {a b : Activity U} (names : (a.branches.map (·.stage.name)).Nodup)
    (hb : b ∈ a.branches) (path : List String) : a.at? (b.stage.name :: path) = b.at? path := by
  rw [at?, (named?_eq_some names).2 ⟨hb, rfl⟩, Option.bind_some]

/-- What is found in a list is found after a member that is not meant is replaced by another such one. -/
theorem find?_set_of_neg {α : Type} {q : α → Bool} {l : List α} {i : Nat} {x y : α} (hx : l[i]? = some x)
    (hqx : q x = false) (hqy : q y = false) : (l.set i y).find? q = l.find? q := by
  induction l generalizing i with
  | nil => rfl
  | cons c l ih =>
    cases i with
    | zero =>
      obtain rfl : c = x := by simpa using hx
      rw [List.set_cons_zero, List.find?_cons, List.find?_cons, hqx, hqy]
    | succ i =>
      have hx : l[i]? = some x := by simpa using hx
      rw [List.set_cons_succ, List.find?_cons, List.find?_cons, ih hx]

/-- Under every name but its own nothing else is found once a branch has become another one. -/
theorem named?_set_of_ne {bs : List (Activity U)} {i : Nat} {b b' : Activity U} {name : String}
    (hb : bs[i]? = some b) (hs : b'.stage = b.stage) (hn : b.stage.name ≠ name) :
    named? name (bs.set i b') = named? name bs :=
  find?_set_of_neg hb (by simpa using hn) (by simpa [hs] using hn)

theorem named?_map_cancel (reason name : String) (bs : List (Activity U)) :
    named? name (bs.map (cancel reason)) = (named? name bs).map (cancel reason) := by
  have hsame : (fun a : Activity U => a.stage.name == name) ∘ cancel reason = fun a => a.stage.name == name :=
    funext fun a => by rw [Function.comp_apply, cancel_stage]
  rw [named?, List.find?_map, named?, hsame]

/-- A cancellation gets to all nodes at the end of a path, or to none. -/
theorem at?_cancel (a : Activity U) (reason : String) (path : List String) :
    (a.cancel reason).at? path = a.at? path ∨
      (a.cancel reason).at? path = (a.at? path).map (cancel reason) := by
  induction path generalizing a with
  | nil => exact .inr rfl
  | cons name path ih =>
    rcases a.cancel_cases reason with e | ⟨join, hp, hf, e⟩
    · exact .inl (by rw [e])
    · rw [e, at?, at?, named?_map_cancel]
      cases named? name a.branches with
      | none => exact .inl rfl
      | some b => exact ih b

/-- The nodes of a tree are those at the end of its paths. -/
theorem mem_nodes {a : Activity U} (h : a.Distinct) {path q : List String} {n : Activity U} :
    (q, n) ∈ a.nodes path ↔ ∃ rest, q = path ++ rest ∧ a.at? rest = some n := by
  induction h generalizing path with
  | @mk a names _ ih =>
    rw [nodes_eq, List.mem_cons, mem_nodesBelow]
    constructor
    · rintro (e | ⟨b, hb, hn⟩)
      · obtain ⟨rfl, rfl⟩ := Prod.mk.inj e
        exact ⟨[], by simp, rfl⟩
      · obtain ⟨rest, rfl, hr⟩ := (ih b hb).1 hn
        refine ⟨b.stage.name :: rest, by simp, ?_⟩
        rw [at?, (named?_eq_some names).2 ⟨hb, rfl⟩, Option.bind_some, hr]
    · rintro ⟨rest, rfl, hr⟩
      cases rest with
      | nil => exact .inl (by simpa [at?] using hr.symm)
      | cons name rest =>
        rw [at?, Option.bind_eq_some_iff] at hr
        obtain ⟨b, hb, hr⟩ := hr
        obtain ⟨hm, rfl⟩ := (named?_eq_some names).1 hb
        exact .inr ⟨b, hm, (ih b hm).2 ⟨rest, by simp, hr⟩⟩

theorem mem_nodesBelow_at? {as : List (Activity U)} (names : (as.map (·.stage.name)).Nodup)
    (h : ∀ a ∈ as, a.Distinct) {path q : List String} {n : Activity U} :
    (q, n) ∈ nodesBelow path as ↔
      ∃ name rest, q = path ++ name :: rest ∧ (named? name as).bind (at? rest) = some n := by
  rw [mem_nodesBelow]
  constructor
  · rintro ⟨a, ha, hn⟩
    obtain ⟨rest, rfl, hr⟩ := (mem_nodes (h a ha)).1 hn
    exact ⟨a.stage.name, rest, by simp, by rw [(named?_eq_some names).2 ⟨ha, rfl⟩]; exact hr⟩
  · rintro ⟨name, rest, rfl, hr⟩
    obtain ⟨a, ha, hrest⟩ := Option.bind_eq_some_iff.1 hr
    obtain ⟨hm, rfl⟩ := (named?_eq_some names).1 ha
    exact ⟨a, hm, (mem_nodes (h a hm)).2 ⟨rest, by simp, hrest⟩⟩

/-- The paths of the nodes below a path start with it and go on with the name of a branch. -/
theorem exists_of_mem_nodes {a : Activity U} {path : List String} {n : List String × Activity U}
    (hn : n ∈ a.nodes path) : ∃ rest, n.1 = path ++ rest := by
  induction a using Activity.induction generalizing path with
  | h a ih =>
    rw [nodes_eq, List.mem_cons, mem_nodesBelow] at hn
    rcases hn with rfl | ⟨b, hb, hn⟩
    · exact ⟨[], by simp⟩
    · obtain ⟨rest, hr⟩ := ih b hb hn
      exact ⟨b.stage.name :: rest, by rw [hr]; simp⟩

/-- What holds everywhere in a tree holds everywhere below its nodes. -/
theorem Everywhere.of_mem_nodes {P : Activity U → Prop} {a : Activity U} (h : Everywhere P a)
    {path : List String} {n : List String × Activity U} (hn : n ∈ a.nodes path) : Everywhere P n.2 := by
  induction h generalizing path with
  | @mk a here below ih =>
    rw [nodes_eq, List.mem_cons, mem_nodesBelow] at hn
    rcases hn with rfl | ⟨b, hb, hn⟩
    · exact .mk here below
    · exact ih b hb hn

theorem nodesBelow_paths_nodup {as : List (Activity U)} (names : (as.map (·.stage.name)).Nodup)
    (h : ∀ a ∈ as, ∀ path, ((a.nodes path).map Prod.fst).Nodup) (path : List String) :
    ((nodesBelow path as).map Prod.fst).Nodup := by
  rw [nodesBelow_eq_flatMap, List.map_flatMap, List.nodup_flatMap]
  refine ⟨fun a ha => h a ha _, ?_⟩
  refine (List.pairwise_map.1 names).imp fun {a b} hne => ?_
  -- a path under one branch is no path under another one
  intro q hqa hqb
  obtain ⟨n, hn, rfl⟩ := List.mem_map.1 hqa
  obtain ⟨n', hn', e⟩ := List.mem_map.1 hqb
  obtain ⟨rest, hr⟩ := exists_of_mem_nodes hn
  obtain ⟨rest', hr'⟩ := exists_of_mem_nodes hn'
  rw [hr, hr', List.append_assoc, List.append_assoc] at e
  have := List.append_cancel_left e
  exact hne (List.cons.inj this).1.symm

/-- The paths of the nodes of a tree are distinct. -/
theorem nodes_paths_nodup {a : Activity U} (h : a.Distinct) (path : List String) :
    ((a.nodes path).map Prod.fst).Nodup := by
  induction h generalizing path with
  | @mk a names _ ih =>
    rw [nodes_eq, List.map_cons, List.nodup_cons]
    refine ⟨fun hm => ?_, nodesBelow_paths_nodup names ih path⟩
    obtain ⟨n, hn, e⟩ := List.mem_map.1 hm
    obtain ⟨b, _, hn⟩ := mem_nodesBelow.1 hn
    obtain ⟨rest, hr⟩ := exists_of_mem_nodes hn
    rw [hr, List.append_assoc] at e
    exact absurd (List.append_right_eq_self.1 e) (by simp)

end StageTree.Activity

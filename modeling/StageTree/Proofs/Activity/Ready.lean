import StageTree.Proofs.Activity.Coherent
import StageTree.Run.Schedule

/-! What the stages of a tree can do at an instant. The list of positions that can go on, which a
schedule reads, holds exactly these acts, and each of them is possible. A stage that has not ended can do
something, itself or below, or waits for units that are due at some instant. -/

namespace StageTree.Activity

variable {W U : Type} {due : U → Option Nat} {now : Nat} {scope : Option String} {a : Activity U}

/-- What the stage at a position of a tree can do at an instant, under a scope. -/
inductive Able (due : U → Option Nat) (now : Nat) : Option String → Activity U → List Nat → Act → Prop
  | start {scope : Option String} {a : Activity U} (hp : a.phase = .waiting) :
      Able due now scope a [] .start
  | look {scope : Option String} {a : Activity U} {u : U} (hp : a.phase = .working u)
      (hd : scope.isSome = true ∨ (due u).any (· ≤ now) = true) : Able due now scope a [] .look
  | join {scope : Option String} {a b : Activity U} {f : Fan} {i : Nat} (hp : a.phase = .fanned)
      (hf : a.fan = some f) (hb : a.branches[i]? = some b) (he : b.hasEnded = true)
      (hj : f.hasJoined i = false) : Able due now scope a [] (.join i)
  | branch {scope : Option String} {a b : Activity U} {f : Fan} {i : Nat} {position : List Nat} {x : Act}
      (hp : a.phase = .fanned) (hf : a.fan = some f) (hb : a.branches[i]? = some b)
      (h : Able due now f.scope b position x) : Able due now scope a (i :: position) x

theorem mem_joinable {f : Fan} {bs : List (Activity U)} {i : Nat} :
    i ∈ joinable f bs ↔ ∃ b, bs[i]? = some b ∧ b.hasEnded = true ∧ f.hasJoined i = false := by
  rw [joinable, List.mem_filterMap]
  constructor
  · rintro ⟨⟨b, j⟩, hb, h⟩
    simp only [Option.ite_none_right_eq_some, Option.some.injEq, Bool.and_eq_true, Bool.not_eq_true'] at h
    obtain ⟨h, rfl⟩ := h
    exact ⟨b, List.mem_zipIdx_iff_getElem?.1 hb, h⟩
  · rintro ⟨b, hb, he, hj⟩
    exact ⟨(b, i), List.mem_zipIdx_iff_getElem?.2 hb, by simp [he, hj]⟩

theorem mem_readyAll {as : List (Activity U)} {i : Nat} {q : List Nat} {acts : List Act} :
    (q, acts) ∈ readyAll due now scope i as ↔
      ∃ k b position, as[k]? = some b ∧ q = (i + k) :: position ∧
        (position, acts) ∈ ready due now scope b := by
  induction as generalizing i with
  | nil => simp [readyAll]
  | cons a as ih =>
    rw [readyAll, List.mem_append, ih, List.mem_map]
    constructor
    · rintro (⟨⟨position, acts'⟩, h, e⟩ | ⟨k, b, position, hb, rfl, h⟩)
      · obtain ⟨rfl, rfl⟩ := Prod.mk.inj e
        exact ⟨0, a, position, rfl, rfl, h⟩
      · exact ⟨k + 1, b, position, hb, by rw [Nat.add_right_comm, Nat.add_assoc], h⟩
    · rintro ⟨k, b, position, hb, rfl, h⟩
      cases k with
      | zero =>
        obtain rfl := Option.some.inj hb
        exact .inl ⟨(position, acts), h, rfl⟩
      | succ k => exact .inr ⟨k, b, position, hb, by rw [Nat.add_right_comm, Nat.add_assoc], h⟩

theorem ready_eq (due : U → Option Nat) (now : Nat) (scope : Option String) (a : Activity U) :
    ready due now scope a =
      match a.phase, a.fan with
      | .waiting, _ => [([], [.start])]
      | .working u, _ => if scope.isSome || (due u).any (· ≤ now) then [([], [.look])] else []
      | .fanned, some f =>
        match joinable f a.branches with
        | [] => readyAll due now f.scope 0 a.branches
        | joins => ([], joins.map .join) :: readyAll due now f.scope 0 a.branches
      | _, _ => [] := by
  obtain ⟨stage, since, phase, fan, branches⟩ := a
  exact ready.eq_def due now scope _

theorem mem_ready_fanned (hp : a.phase = .fanned) {f : Fan} (hf : a.fan = some f) {q : List Nat}
    {acts : List Act} : (q, acts) ∈ ready due now scope a ↔
      (q = [] ∧ joinable f a.branches ≠ [] ∧ acts = (joinable f a.branches).map .join) ∨
        (q, acts) ∈ readyAll due now f.scope 0 a.branches := by
  rw [ready_eq, hp, hf]
  dsimp only
  generalize joinable f a.branches = joins
  cases joins <;> simp

/-- The positions that can go on, with what they can do, hold exactly what the stages there can do. -/
theorem able_iff {position : List Nat} {x : Act} :
    (∃ acts, (position, acts) ∈ ready due now scope a ∧ x ∈ acts) ↔ Able due now scope a position x := by
  constructor
  · rintro ⟨acts, h, hx⟩
    induction a using Activity.induction generalizing scope position acts with
    | h a ih =>
      cases hp : a.phase with
      | waiting =>
        simp only [ready_eq, hp, List.mem_singleton, Prod.mk.injEq] at h
        obtain ⟨rfl, rfl⟩ := h
        exact List.mem_singleton.1 hx ▸ .start hp
      | working u =>
        simp only [ready_eq, hp] at h
        split at h
        · rename_i hd
          simp only [List.mem_singleton, Prod.mk.injEq] at h
          obtain ⟨rfl, rfl⟩ := h
          exact List.mem_singleton.1 hx ▸ .look hp (by simpa using hd)
        · cases h
      | ended ms lines error => simp [ready_eq, hp] at h
      | fanned =>
        cases hf : a.fan with
        | none => simp [ready_eq, hp, hf] at h
        | some f =>
          rcases (mem_ready_fanned hp hf).1 h with ⟨rfl, _, rfl⟩ | h
          · obtain ⟨i, hi, rfl⟩ := List.mem_map.1 hx
            obtain ⟨b, hb, he, hj⟩ := mem_joinable.1 hi
            exact .join hp hf hb he hj
          · obtain ⟨k, b, position, hb, rfl, hr⟩ := mem_readyAll.1 h
            rw [Nat.zero_add]
            exact .branch hp hf hb (ih b (List.mem_of_getElem? hb) acts hr hx)
  · intro h
    induction h with
    | start hp => exact ⟨[.start], by simp [ready_eq, hp], by simp⟩
    | look hp hd => exact ⟨[.look], by rw [ready_eq, hp]; simp [hd], by simp⟩
    | @join scope a b f i hp hf hb he hj =>
      have hi : i ∈ joinable f a.branches := mem_joinable.2 ⟨b, hb, he, hj⟩
      exact ⟨_, (mem_ready_fanned hp hf).2 (.inl ⟨rfl, List.ne_nil_of_mem hi, rfl⟩),
        List.mem_map_of_mem hi⟩
    | @branch scope a b f i position x hp hf hb h ih =>
      obtain ⟨acts, h, hx⟩ := ih
      exact ⟨acts, (mem_ready_fanned hp hf).2
        (.inr (mem_readyAll.2 ⟨i, b, position, hb, by rw [Nat.zero_add], h⟩)), hx⟩

/-- Every position that can go on can do something. -/
theorem acts_ne_nil {position : List Nat} {acts : List Act}
    (h : (position, acts) ∈ ready due now scope a) : acts ≠ [] := by
  induction a using Activity.induction generalizing scope position with
  | h a ih =>
    cases hp : a.phase with
    | waiting =>
      simp only [ready_eq, hp, List.mem_singleton, Prod.mk.injEq] at h
      simp [h.2]
    | working u =>
      simp only [ready_eq, hp] at h
      split at h
      · simp only [List.mem_singleton, Prod.mk.injEq] at h
        simp [h.2]
      · cases h
    | ended ms lines error => simp [ready_eq, hp] at h
    | fanned =>
      cases hf : a.fan with
      | none => simp [ready_eq, hp, hf] at h
      | some f =>
        rcases (mem_ready_fanned hp hf).1 h with ⟨_, hj, rfl⟩ | h
        · simpa using hj
        · obtain ⟨k, b, position, hb, rfl, hr⟩ := mem_readyAll.1 h
          exact ih b (List.mem_of_getElem? hb) hr

/-- Nothing can go on in a tree exactly when no stage of it can do anything. -/
theorem ready_eq_nil : ready due now scope a = [] ↔ ∀ position x, ¬ Able due now scope a position x := by
  constructor
  · intro h position x hx
    obtain ⟨acts, hacts, _⟩ := able_iff.2 hx
    rw [h] at hacts
    cases hacts
  · intro h
    refine List.eq_nil_iff_forall_not_mem.2 fun ⟨position, acts⟩ hm => ?_
    obtain ⟨x, hx⟩ := List.exists_mem_of_ne_nil acts (acts_ne_nil hm)
    exact h position x (able_iff.1 ⟨acts, hm, hx⟩)

theorem step_branch {b : Activity U} {f : Fan} {i : Nat} (s : Setting W U) (x : Act) (position : List Nat)
    (m : Moment) (w : W) (hp : a.phase = .fanned) (hf : a.fan = some f) (hb : a.branches[i]? = some b) :
    a.step s x (i :: position) m w = (b.step s x position (m.below f b.stage.name) w).map fun p =>
      ⟨{ a with branches := a.branches.set i p.activity }, p.world, p.trace⟩ := by
  obtain ⟨stage, since, phase, fan, branches⟩ := a
  subst hp hf
  simp only [Activity.step, hb]
  rfl

/-- What a stage can do is possible. -/
theorem Able.step {position : List Nat} {x : Act} (h : Able due now scope a position x)
    (s : Setting W U) (m : Moment) (w : W) : ∃ p, a.step s x position m w = some p := by
  induction h generalizing m with
  | start hp => exact ⟨_, by rw [Activity.step, act, hp]⟩
  | look hp hd => exact ⟨_, by rw [Activity.step, act, hp]⟩
  | join hp hf hb he hj =>
    obtain ⟨ms, lines, error, he⟩ := hasEnded_iff.1 he
    exact ⟨_, by simp only [Activity.step, act, hp, hf, hb, he, hj]; rfl⟩
  | @branch scope a b f i position x hp hf hb h ih =>
    obtain ⟨p, hp'⟩ := ih (m.below f b.stage.name)
    exact ⟨_, by rw [step_branch s x position m w hp hf hb, hp', Option.map_some]⟩

/-- A step that comes in time: the runner of a unit is looked at only when the unit is due, or its scope
is cancelled. -/
inductive Timely (s : Setting W U) (x : Act) : Activity U → Moment → W → Played W U → Prop
  | here {a : Activity U} {m : Moment} {w : W} {p : Played W U} (h : Acted s m w a x p)
      (hd : ∀ u, a.phase = .working u →
        m.scope.isSome = true ∨ (s.runner.due u).any (· ≤ m.now) = true) : Timely s x a m w p
  | branch {a b : Activity U} {m : Moment} {w : W} {p : Played W U} {f : Fan} {i : Nat}
      (hp : a.phase = .fanned) (hf : a.fan = some f) (hb : a.branches[i]? = some b)
      (h : Timely s x b (m.below f b.stage.name) w p) :
      Timely s x a m w ⟨{ a with branches := a.branches.set i p.activity }, p.world, p.trace⟩

variable {s : Setting W U} {m : Moment} {w : W} {x : Act} {p : Played W U}

theorem Timely.stepped (h : Timely s x a m w p) : Stepped s x a m w p := by
  induction h with
  | here h _ => exact .here h
  | branch hp hf hb _ ih => exact .branch hp hf hb ih

/-- The step of a stage that can go on comes in time. -/
theorem Able.timely {position : List Nat} (h : Able s.runner.due m.now m.scope a position x)
    (ha : a.Sound) (hs : a.step s x position m w = some p) : Timely s x a m w p := by
  induction position generalizing a m p with
  | nil =>
    refine .here (acted_of_act ha.here.proper.group hs) fun u hu => ?_
    cases h with
    | start hp => simp [hu] at hp
    | look hp hd =>
      rw [hu] at hp
      obtain rfl := Phase.working.inj hp
      exact hd
    | join hp => simp [hu] at hp
  | cons i position ih =>
    cases h with
    | branch hp hf hb h =>
      rw [step_branch s x position m w hp hf hb] at hs
      obtain ⟨q, hq, rfl⟩ := Option.map_eq_some_iff.1 hs
      exact .branch hp hf hb (ih (m := m.below _ _) h (ha.branch (List.mem_of_getElem? hb)) hq)

/-! ### Units that are due -/

theorem duesAll_eq (as : List (Activity U)) : duesAll due as = as.flatMap (dues due) := by
  induction as with
  | nil => rfl
  | cons a as ih => rw [duesAll, ih, List.flatMap_cons]

theorem mem_duesAll {as : List (Activity U)} {d : Nat} :
    d ∈ duesAll due as ↔ ∃ b ∈ as, d ∈ dues due b := by
  rw [duesAll_eq, List.mem_flatMap]

theorem dues_eq (due : U → Option Nat) (a : Activity U) :
    dues due a = match a.phase with
      | .working u => (due u).toList
      | _ => duesAll due a.branches := by
  obtain ⟨stage, since, phase, fan, branches⟩ := a
  exact dues.eq_def due _

/-- A stage that has ended waits for no unit. -/
theorem dues_of_hasEnded (ha : a.Sound) (he : a.hasEnded = true) : dues due a = [] := by
  induction ha with
  | @mk a here below ih =>
    obtain ⟨ms, lines, error, hp⟩ := hasEnded_iff.1 he
    rw [dues_eq, hp]
    refine List.eq_nil_iff_forall_not_mem.2 fun d hd => ?_
    obtain ⟨b, hb, hd⟩ := mem_duesAll.1 hd
    rw [ih b hb (here.hasEnded_of_mem (by simp [hp]) hb)] at hd
    cases hd

/-- A unit that is due can be looked at. -/
theorem able_of_due (ha : a.Sound) {d : Nat} (hd : d ∈ dues due a) (hnow : d ≤ now) :
    ∃ position, Able due now scope a position .look := by
  induction ha generalizing scope with
  | @mk a here below ih =>
    cases hp : a.phase with
    | working u =>
      rw [dues_eq, hp] at hd
      refine ⟨[], .look hp (.inr ?_)⟩
      rw [Option.mem_toList.1 hd]
      simpa using hnow
    | waiting =>
      rw [dues_eq, hp, here.single (here.waiting hp)] at hd
      cases hd
    | ended ms lines error =>
      rw [dues_of_hasEnded (.mk here below) (hasEnded_of_phase hp)] at hd
      cases hd
    | fanned =>
      rw [dues_eq, hp] at hd
      obtain ⟨b, hb, hd⟩ := mem_duesAll.1 hd
      obtain ⟨i, hi⟩ := List.mem_iff_getElem?.1 hb
      obtain ⟨f, hf⟩ := Option.ne_none_iff_exists'.1 (here.fanned hp)
      obtain ⟨position, h⟩ : ∃ position, Able due now f.scope b position .look := ih b hb hd
      exact ⟨i :: position, .branch hp hf hi h⟩

/-- A group that has not joined all its branches has one that can be joined, or one at work. -/
theorem Coherent.exists_open (h : a.Coherent) (hp : a.phase = .fanned) {f : Fan} (hf : a.fan = some f) :
    (∃ (i : Nat) (b : Activity U), a.branches[i]? = some b ∧ b.hasEnded = true ∧ f.hasJoined i = false) ∨
      ∃ (i : Nat) (b : Activity U), a.branches[i]? = some b ∧ b.hasEnded = false := by
  by_contra hnone
  rw [not_or] at hnone
  obtain ⟨hjoin, hopen⟩ := hnone
  have hall : ∀ i ∈ List.range a.branches.length, i ∈ f.join.reports.map Report.index := fun i hi => by
    obtain ⟨b, hb⟩ : ∃ b, a.branches[i]? = some b :=
      ⟨_, List.getElem?_eq_getElem (List.mem_range.1 hi)⟩
    by_contra hj
    have he : b.hasEnded = true := by
      by_contra he
      exact hopen ⟨i, b, hb, by simpa using he⟩
    refine hjoin ⟨i, b, hb, he, ?_⟩
    by_contra hj'
    exact hj (Fan.Faithful.hasJoined_iff.1 (by simpa using hj'))
  have hle := (List.Nodup.subperm List.nodup_range hall).length_le
  have hlt := (h.joined f hf).1 hp
  simp only [List.length_range, List.length_map] at hle
  omega

/-- A branch that has not ended is not joined. -/
theorem Coherent.not_hasJoined (h : a.Coherent) {f : Fan} (hf : a.fan = some f) {i : Nat} {b : Activity U}
    (hb : a.branches[i]? = some b) (hn : b.hasEnded = false) : f.hasJoined i = false := by
  by_contra hj
  rw [(h.report_of_hasJoined hf hb (by simpa using hj)).1] at hn
  cases hn

/-- A stage that has not ended can do something, itself or below, or waits for a unit. -/
theorem able_or_due (ha : a.Sound) (hdue : ∀ u, (due u).isSome = true) (hn : a.hasEnded = false) :
    (∃ position x, Able due now scope a position x) ∨ dues due a ≠ [] := by
  induction ha generalizing scope with
  | @mk a here below ih =>
    cases hp : a.phase with
    | waiting => exact .inl ⟨[], .start, .start hp⟩
    | working u =>
      obtain ⟨d, hd⟩ := Option.isSome_iff_exists.1 (hdue u)
      refine .inr ?_
      rw [dues_eq, hp]
      simp [hd]
    | ended ms lines error =>
      rw [hasEnded_of_phase hp] at hn
      cases hn
    | fanned =>
      obtain ⟨f, hf⟩ := Option.ne_none_iff_exists'.1 (here.fanned hp)
      rcases here.exists_open hp hf with ⟨i, b, hb, he, hj⟩ | ⟨i, b, hb, hbn⟩
      · exact .inl ⟨[], .join i, .join hp hf hb he hj⟩
      · have hm := List.mem_of_getElem? hb
        have hb : (∃ position x, Able due now f.scope b position x) ∨ dues due b ≠ [] := ih b hm hbn
        rcases hb with ⟨position, x, h⟩ | h
        · exact .inl ⟨i :: position, x, .branch hp hf hb h⟩
        · obtain ⟨d, hd⟩ := List.exists_mem_of_ne_nil _ h
          refine .inr (List.ne_nil_of_mem (a := d) ?_)
          rw [dues_eq, hp]
          exact mem_duesAll.2 ⟨b, hm, hd⟩

end StageTree.Activity

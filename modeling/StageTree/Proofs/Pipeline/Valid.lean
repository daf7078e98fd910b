import Mathlib.Data.List.TakeWhile
import StageTree.Error
import StageTree.Proofs.Pipeline.Proper

/-! What validation says. It lets a pipeline through exactly if the pipeline and every stage of it keep all
rules. Of the rules that are broken it names the one that is met first on a walk through the tree: a stage
before its branches, the branches in their order, and at each place the rules in theirs. -/

namespace StageTree

namespace Text

theorem trimList_eq_nil {cs : List Char} : trimList cs = [] ↔ ∀ c ∈ cs, isBlank c = true := by
  rw [trimList, List.reverse_eq_nil_iff, List.dropWhile_eq_nil_iff]
  simp only [List.mem_reverse]
  constructor
  · intro h
    rw [← List.dropWhile_eq_nil_iff]
    by_contra hne
    have hhead := List.head_dropWhile_not isBlank hne
    rw [h _ (List.head_mem hne)] at hhead
    cases hhead
  · exact fun h c hc => h c ((List.dropWhile_sublist isBlank).subset hc)

/-- A text shows nothing exactly if nothing is left of it without its blank ends. -/
theorem allBlank_iff {s : String} : allBlank s = true ↔ trim s = "" := by
  rw [allBlank, List.all_eq_true, ← trimList_eq_nil, trim, String.ofList_eq_empty_iff]

end Text

/-! ### The rules -/

/-- A stage that keeps the rules, its branches' own content apart. -/
structure Stage.Fine (s : Stage) : Prop where
  name : Text.trim s.name ≠ ""
  image : ∀ image, s.agent = some (.container image) → Text.trim image ≠ ""
  content : s.steps ≠ [] ∨ s.parallel ≠ none
  keys : ∀ command params, .multi command params ∈ s.steps → (params.map Param.key).Nodup
  group : s.parallel ≠ some []
  own : s.steps ≠ [] → ∀ b ∈ s.branches, b.name ≠ s.name
  names : (s.branches.map Stage.name).Nodup

/-- A pipeline that keeps the rules, with every stage at every depth. -/
structure Pipeline.Valid (p : Pipeline) : Prop where
  stages : p.stages ≠ []
  image : ∀ image, p.agent = .container image → Text.trim image ≠ ""
  names : (p.stages.map Stage.name).Nodup
  members : ∀ s ∈ p.stages, s.Everywhere Stage.Fine

/-- The rules that a stage breaks by itself. Of several repeated keys or names the first one counts. -/
inductive Stage.Faulty (s : Stage) : Violation → Prop
  | name (h : Text.trim s.name = "") : Faulty s .blankName
  | image {image : String} (h : s.agent = some (.container image)) (hb : Text.trim image = "") :
      Faulty s (.blankImage s.name)
  | content (hs : s.steps = []) (hg : s.parallel = none) : Faulty s (.noContent s.name)
  | keys {before after : List Step} {command key : String} {params : List Param}
      (h : s.steps = before ++ .multi command params :: after)
      (hb : ∀ step ∈ before, (step.params.map Param.key).Nodup) (hk : Repeated (params.map Param.key) key) :
      Faulty s (.repeatedKey s.name key)
  | group (h : s.parallel = some []) : Faulty s (.emptyGroup s.name)
  | ownName {b : Stage} (hs : s.steps ≠ []) (hb : b ∈ s.branches) (hn : b.name = s.name) :
      Faulty s (.ownNameBranch s.name)
  | siblings {name : String} (h : Repeated (s.branches.map Stage.name) name) : Faulty s (.sameName s.name name)

/-- The rules that a pipeline breaks, those of its stages apart. -/
inductive Pipeline.Faulty (p : Pipeline) : Violation → Prop
  | stages (h : p.stages = []) : Faulty p .noStages
  | image {image : String} (h : p.agent = .container image) (hb : Text.trim image = "") :
      Faulty p (.blankImage "pipeline")
  | siblings {name : String} (h : Repeated (p.stages.map Stage.name) name) : Faulty p (.sameName "pipeline" name)

/-- When the rule is looked at, among the rules for one place. -/
def Violation.turn : Violation → Nat
  | noStages => 0
  | blankName => 1
  | blankImage _ => 2
  | noContent _ => 3
  | repeatedKey _ _ => 4
  | emptyGroup _ => 5
  | ownNameBranch _ => 6
  | sameName _ _ => 7

/-- A rule broken at a place: the pipeline itself has the empty place, and that of a stage says which stage
at the top it is below, then which branch of that one, and so on. -/
structure Fault where
  place : List Nat
  violation : Violation

/-- One fault is met no later than another: at an earlier place, a stage being before its branches, or at the
same place by a rule that is looked at no later. -/
def Fault.NoLater (x y : Fault) : Prop :=
  x.place < y.place ∨ x.place = y.place ∧ x.violation.turn ≤ y.violation.turn

/-- The stage at a place below a stage. -/
def Stage.at? : List Nat → Stage → Option Stage
  | [], s => some s
  | i :: place, s => s.branches[i]?.bind (at? place)

/-- The faults in the tree of a stage. -/
def Stage.Breaks (s : Stage) (x : Fault) : Prop := ∃ t, s.at? x.place = some t ∧ t.Faulty x.violation

def Stage.BreakAmong (stages : List Stage) (x : Fault) : Prop :=
  ∃ i place s, x.place = i :: place ∧ stages[i]? = some s ∧ s.Breaks ⟨place, x.violation⟩

def Pipeline.Breaks (p : Pipeline) (x : Fault) : Prop :=
  x.place = [] ∧ p.Faulty x.violation ∨ Stage.BreakAmong p.stages x

/-! ### The first fault -/

/-- A choice of the fault that is met first, if there is one. -/
structure Fault.Met (found : Fault → Prop) (o : Option Violation) : Prop where
  absent : o = none → ∀ x, ¬ found x
  first : ∀ v, o = some v → ∃ place, found ⟨place, v⟩ ∧ ∀ y, found y → Fault.NoLater ⟨place, v⟩ y

namespace Fault.Met

variable {F G : Fault → Prop} {o o' : Option Violation}

theorem congr (h : Met F o) (e : ∀ x, G x ↔ F x) : Met G o := by
  rwa [show G = F from funext fun x => propext (e x)]

/-- What is looked for first is met first. -/
theorem orElse (hF : Met F o) (hG : Met G o') (h : ∀ x y, F x → G y → x.NoLater y) :
    Met (fun x => F x ∨ G x) (o <|> o') := by
  cases ho : o with
  | none =>
    have hnone := hF.absent ho
    exact hG.congr fun x => or_iff_right (hnone x)
  | some v =>
    obtain ⟨place, hv, hfirst⟩ := hF.first v ho
    refine ⟨fun e => absurd e (Option.some_ne_none v), fun w e => ?_⟩
    obtain rfl : v = w := Option.some.inj e
    exact ⟨place, .inl hv, fun y hy => hy.elim (hfirst y) (h _ y hv)⟩

/-- A walk that keeps the order of the places meets the same fault first. -/
theorem map (h : Met F o) {f : List Nat → List Nat} (hf : ∀ place place', place < place' → f place < f place') :
    Met (fun x => ∃ place, x.place = f place ∧ F ⟨place, x.violation⟩) o where
  absent e := fun ⟨_, v⟩ ⟨place, _, hx⟩ => h.absent e ⟨place, v⟩ hx
  first v e := by
    obtain ⟨place, hv, hfirst⟩ := h.first v e
    refine ⟨f place, ⟨place, rfl, hv⟩, ?_⟩
    rintro ⟨_, w⟩ ⟨place', rfl, hw⟩
    rcases hfirst _ hw with hlt | ⟨rfl, hle⟩
    · exact .inl (hf _ _ hlt)
    · exact .inr ⟨rfl, hle⟩

/-- The rules for one place are looked at from some turn on. -/
def From (faulty : Violation → Prop) (turn : Nat) (x : Fault) : Prop :=
  x.place = [] ∧ faulty x.violation ∧ turn ≤ x.violation.turn

variable {faulty : Violation → Prop} {turn next : Nat}

/-- The last rule for a place. -/
theorem last (h : ∀ v, o = some v ↔ faulty v ∧ v.turn = turn) (hmax : ∀ v, faulty v → v.turn ≤ turn) :
    Met (From faulty turn) o where
  absent e := fun ⟨_, v⟩ ⟨_, hv, hle⟩ => by
    have hv := (h v).2 ⟨hv, Nat.le_antisymm (hmax v hv) hle⟩
    rw [e] at hv
    cases hv
  first v e := by
    obtain ⟨hv, ht⟩ := (h v).1 e
    refine ⟨[], ⟨rfl, hv, Nat.le_of_eq ht.symm⟩, ?_⟩
    rintro ⟨_, w⟩ ⟨rfl, _, hle⟩
    exact .inr ⟨rfl, ht ▸ hle⟩

/-- One rule for a place, and those after it. -/
theorem step (h : ∀ v, o = some v ↔ faulty v ∧ v.turn = turn) (hnext : turn < next)
    (hbetween : ∀ v, faulty v → turn < v.turn → next ≤ v.turn) (hrest : Met (From faulty next) o') :
    Met (From faulty turn) (o <|> o') := by
  have hone : Met (fun x => x.place = [] ∧ faulty x.violation ∧ x.violation.turn = turn) o := by
    refine ⟨fun e ⟨_, v⟩ ⟨_, hv⟩ => ?_, fun v e => ⟨[], ⟨rfl, (h v).1 e⟩, ?_⟩⟩
    · have hv := (h v).2 hv
      rw [e] at hv
      cases hv
    · rintro ⟨_, w⟩ ⟨rfl, _, hw⟩
      exact .inr ⟨rfl, Nat.le_of_eq (((h v).1 e).2.trans hw.symm)⟩
  refine (hone.orElse hrest ?_).congr fun ⟨place, v⟩ => ?_
  · rintro ⟨_, v⟩ ⟨_, w⟩ ⟨rfl, _, hv⟩ ⟨rfl, _, hw⟩
    exact .inr ⟨rfl, by omega⟩
  · constructor
    · rintro ⟨rfl, hv, hle⟩
      rcases Nat.eq_or_lt_of_le hle with e | hlt
      · exact .inl ⟨rfl, hv, e.symm⟩
      · exact .inr ⟨rfl, hv, hbetween v hv hlt⟩
    · rintro (⟨rfl, hv, e⟩ | ⟨rfl, hv, hle⟩)
      · exact ⟨rfl, hv, Nat.le_of_eq e.symm⟩
      · exact ⟨rfl, hv, Nat.le_trans (Nat.le_of_lt hnext) hle⟩

end Fault.Met

/-! ### One rule at a time -/

namespace Violation

theorem when_eq_some {v w : Violation} {b : Bool} : v.when b = some w ↔ b = true ∧ v = w := by
  cases b <;> simp [Violation.when]

theorem turn_le (v : Violation) : v.turn ≤ 7 := by
  cases v <;> simp [turn]

end Violation

theorem Agent.hasBlankImage_iff {a : Agent} :
    a.hasBlankImage = true ↔ ∃ image, a = .container image ∧ Text.trim image = "" := by
  cases a <;> simp [hasBlankImage, Text.allBlank_iff]

theorem Step.repeatedKey?_eq_none {step : Step} :
    step.repeatedKey? = none ↔ (step.params.map Param.key).Nodup := by
  rw [repeatedKey?, repeatedFrom_eq, firstRepeat?_eq_none]
  simp

theorem Step.repeatedKey?_eq_some {step : Step} {key : String} :
    step.repeatedKey? = some key ↔ Repeated (step.params.map Param.key) key := by
  rw [repeatedKey?, repeatedFrom_eq, firstRepeat?_nil_eq_some]

namespace Stage

variable {s : Stage} {v : Violation}

theorem siblingViolation?_eq_some {parent : String} {stages : List Stage} :
    siblingViolation? parent stages = some v ↔
      ∃ name, Repeated (stages.map Stage.name) name ∧ .sameName parent name = v := by
  simp only [siblingViolation?, Option.map_eq_some_iff, repeatedNameFrom_eq, firstRepeat?_nil_eq_some]

theorem blankName_iff :
    Violation.blankName.when (Text.allBlank s.name) = some v ↔ s.Faulty v ∧ v.turn = 1 := by
  rw [Violation.when_eq_some, Text.allBlank_iff]
  constructor
  · rintro ⟨h, rfl⟩
    exact ⟨.name h, rfl⟩
  · rintro ⟨hv, ht⟩
    cases hv with
    | name h => exact ⟨h, rfl⟩
    | _ => simp [Violation.turn] at ht

theorem blankImage_iff :
    (Violation.blankImage s.name).when s.effectiveAgent.hasBlankImage = some v ↔ s.Faulty v ∧ v.turn = 2 := by
  rw [Violation.when_eq_some, Agent.hasBlankImage_iff, effectiveAgent]
  constructor
  · rintro ⟨⟨image, h, hb⟩, rfl⟩
    refine ⟨.image ?_ hb, rfl⟩
    cases ha : s.agent with
    | none => simp [ha] at h
    | some a => rw [ha, Option.getD_some] at h; rw [h]
  · rintro ⟨hv, ht⟩
    cases hv with
    | image h hb => exact ⟨⟨_, by rw [h, Option.getD_some], hb⟩, rfl⟩
    | _ => simp [Violation.turn] at ht

theorem noContent_iff :
    (Violation.noContent s.name).when (s.steps.isEmpty && s.parallel.isNone) = some v ↔
      s.Faulty v ∧ v.turn = 3 := by
  rw [Violation.when_eq_some, Bool.and_eq_true, List.isEmpty_iff, Option.isNone_iff_eq_none]
  constructor
  · rintro ⟨⟨hs, hg⟩, rfl⟩
    exact ⟨.content hs hg, rfl⟩
  · rintro ⟨hv, ht⟩
    cases hv with
    | content hs hg => exact ⟨⟨hs, hg⟩, rfl⟩
    | _ => simp [Violation.turn] at ht

theorem repeatedKey_iff :
    (s.steps.findSome? Step.repeatedKey?).map (.repeatedKey s.name) = some v ↔ s.Faulty v ∧ v.turn = 4 := by
  simp only [Option.map_eq_some_iff, List.findSome?_eq_some_iff, Step.repeatedKey?_eq_some,
    Step.repeatedKey?_eq_none]
  constructor
  · rintro ⟨key, ⟨before, step, after, h, hk, hb⟩, rfl⟩
    cases step with
    | single command value =>
      -- without parameters no key is repeated
      obtain ⟨_, _, e, _⟩ := hk
      simp [Step.params] at e
    | multi command params => exact ⟨.keys h hb hk, rfl⟩
  · rintro ⟨hv, ht⟩
    cases hv with
    | keys h hb hk => exact ⟨_, ⟨_, _, _, h, hk, hb⟩, rfl⟩
    | _ => simp [Violation.turn] at ht

theorem emptyGroup_iff :
    (Violation.emptyGroup s.name).when (s.parallel == some []) = some v ↔ s.Faulty v ∧ v.turn = 5 := by
  rw [Violation.when_eq_some, beq_iff_eq]
  constructor
  · rintro ⟨h, rfl⟩
    exact ⟨.group h, rfl⟩
  · rintro ⟨hv, ht⟩
    cases hv with
    | group h => exact ⟨h, rfl⟩
    | _ => simp [Violation.turn] at ht

theorem ownNameBranch_iff :
    (Violation.ownNameBranch s.name).when (s.hasSteps && s.branches.any (·.name == s.name)) = some v ↔
      s.Faulty v ∧ v.turn = 6 := by
  simp only [Violation.when_eq_some, hasSteps, Bool.and_eq_true, Bool.not_eq_true',
    List.isEmpty_eq_false_iff, List.any_eq_true, beq_iff_eq]
  constructor
  · rintro ⟨⟨hs, b, hb, hn⟩, rfl⟩
    exact ⟨.ownName hs hb hn, rfl⟩
  · rintro ⟨hv, ht⟩
    cases hv with
    | ownName hs hb hn => exact ⟨⟨hs, _, hb, hn⟩, rfl⟩
    | _ => simp [Violation.turn] at ht

theorem sameName_iff : siblingViolation? s.name s.branches = some v ↔ s.Faulty v ∧ v.turn = 7 := by
  rw [siblingViolation?_eq_some]
  constructor
  · rintro ⟨name, h, rfl⟩
    exact ⟨.siblings h, rfl⟩
  · rintro ⟨hv, ht⟩
    cases hv with
    | siblings h => exact ⟨_, h, rfl⟩
    | _ => simp [Violation.turn] at ht

theorem Faulty.turn_pos (h : s.Faulty v) : 1 ≤ v.turn := by
  cases h <;> simp [Violation.turn]

/-! ### All rules -/

/-- A stage by itself is searched for the rules in their order. -/
theorem met_ownViolation? (s : Stage) :
    Fault.Met (fun x => x.place = [] ∧ s.Faulty x.violation) s.ownViolation? := by
  have between (turn : Nat) (v : Violation) (_ : s.Faulty v) : turn < v.turn → turn + 1 ≤ v.turn := id
  have h : Fault.Met (Fault.Met.From s.Faulty 1) s.ownViolation? :=
    .step (fun _ => blankName_iff) (Nat.lt_succ_self _) (between 1) <|
    .step (fun _ => blankImage_iff) (Nat.lt_succ_self _) (between 2) <|
    .step (fun _ => noContent_iff) (Nat.lt_succ_self _) (between 3) <|
    .step (fun _ => repeatedKey_iff) (Nat.lt_succ_self _) (between 4) <|
    .step (fun _ => emptyGroup_iff) (Nat.lt_succ_self _) (between 5) <|
    .step (fun _ => ownNameBranch_iff) (Nat.lt_succ_self _) (between 6) <|
    .last (fun _ => sameName_iff) fun v _ => v.turn_le
  exact h.congr fun x => and_congr_right fun _ => (and_iff_left_of_imp Faulty.turn_pos).symm

theorem violation?_eq (s : Stage) : s.violation? = (s.ownViolation? <|> memberViolation? s.branches) := by
  obtain ⟨name, agent, steps, failFast, parallel⟩ := s
  cases parallel <;> rfl

theorem breaks_iff {x : Fault} :
    s.Breaks x ↔ x.place = [] ∧ s.Faulty x.violation ∨ BreakAmong s.branches x := by
  obtain ⟨place, v⟩ := x
  cases place with
  | nil => simp [Breaks, BreakAmong, at?]
  | cons i place =>
    simp only [Breaks, BreakAmong, at?, Option.bind_eq_some_iff, reduceCtorEq, false_and, false_or,
      List.cons.injEq]
    constructor
    · rintro ⟨t, ⟨b, hb, ht⟩, hv⟩
      exact ⟨i, place, b, ⟨rfl, rfl⟩, hb, t, ht, hv⟩
    · rintro ⟨_, _, b, ⟨rfl, rfl⟩, hb, t, ht, hv⟩
      exact ⟨t, ⟨b, hb, ht⟩, hv⟩

theorem breakAmong_cons {t : Stage} {stages : List Stage} {x : Fault} : BreakAmong (t :: stages) x ↔
    (∃ place, x.place = 0 :: place ∧ t.Breaks ⟨place, x.violation⟩) ∨
      ∃ place, x.place = place.modifyHead (· + 1) ∧ BreakAmong stages ⟨place, x.violation⟩ := by
  constructor
  · rintro ⟨i, place, s, hx, hs, hb⟩
    cases i with
    | zero =>
      obtain rfl : t = s := by simpa using hs
      exact .inl ⟨place, hx, hb⟩
    | succ i => exact .inr ⟨i :: place, hx, i, place, s, rfl, by simpa using hs, hb⟩
  · rintro (⟨place, hx, hb⟩ | ⟨_, hx, i, place, s, rfl, hs, hb⟩)
    · exact ⟨0, place, t, hx, rfl, hb⟩
    · exact ⟨i + 1, place, s, hx, by simpa using hs, hb⟩

theorem cons_lt_cons {i : Nat} {place place' : List Nat} (h : place < place') : i :: place < i :: place' :=
  List.cons_lt_cons_iff.2 (.inr ⟨rfl, h⟩)

theorem modifyHead_lt {place place' : List Nat} (h : place < place') :
    place.modifyHead (· + 1) < place'.modifyHead (· + 1) := by
  cases place with
  | nil =>
    cases place' with
    | nil => exact absurd h (List.lt_irrefl _)
    | cons => exact List.nil_lt_cons _ _
  | cons i place =>
    cases place' with
    | nil => exact absurd h (List.not_lt_nil _)
    | cons j place' =>
      rcases List.cons_lt_cons_iff.1 h with hlt | ⟨rfl, hlt⟩
      · exact List.cons_lt_cons_iff.2 (.inl (Nat.succ_lt_succ hlt))
      · exact cons_lt_cons hlt

/-- The trees of a list are searched one after the other. -/
theorem met_memberViolation? {stages : List Stage} (h : ∀ s ∈ stages, Fault.Met s.Breaks s.violation?) :
    Fault.Met (BreakAmong stages) (memberViolation? stages) := by
  induction stages with
  | nil => exact ⟨fun _ _ hx => by simp [BreakAmong] at hx, fun v hv => by cases hv⟩
  | cons t stages ih =>
    have hhead := (h t List.mem_cons_self).map fun _ _ => cons_lt_cons (i := 0)
    have htail := (ih fun s hs => h s (List.mem_cons_of_mem _ hs)).map fun _ _ => modifyHead_lt
    refine (hhead.orElse htail ?_).congr fun x => breakAmong_cons
    rintro ⟨_, v⟩ ⟨_, w⟩ ⟨place, rfl, _⟩ ⟨_, rfl, i, place', s, rfl, _⟩
    exact .inl (List.cons_lt_cons_iff.2 (.inl (Nat.succ_pos i)))

theorem not_breakAmong_nil {stages : List Stage} {x : Fault} (hx : x.place = []) : ¬ BreakAmong stages x := by
  rintro ⟨i, place, s, e, _⟩
  rw [hx] at e
  cases e

/-- At the place of a stage its own rules come before those of its branches. -/
theorem noLater_of_breakAmong {stages : List Stage} {x y : Fault} (hx : x.place = []) (hy : BreakAmong stages y) :
    x.NoLater y := by
  obtain ⟨i, place, s, e, _⟩ := hy
  exact .inl (by rw [hx, e]; exact List.nil_lt_cons _ _)

/-- The tree of a stage is searched from the stage down. -/
theorem met_violation? (s : Stage) : Fault.Met s.Breaks s.violation? := by
  induction s using Stage.induction with
  | h s ih =>
    rw [violation?_eq]
    exact (s.met_ownViolation?.orElse (met_memberViolation? ih) fun x y hx hy =>
      noLater_of_breakAmong hx.1 hy).congr fun x => breaks_iff

end Stage

namespace Pipeline

variable {p : Pipeline} {v : Violation}

theorem noStages_iff : Violation.noStages.when p.stages.isEmpty = some v ↔ p.Faulty v ∧ v.turn = 0 := by
  rw [Violation.when_eq_some, List.isEmpty_iff]
  constructor
  · rintro ⟨h, rfl⟩
    exact ⟨.stages h, rfl⟩
  · rintro ⟨hv, ht⟩
    cases hv with
    | stages h => exact ⟨h, rfl⟩
    | _ => simp [Violation.turn] at ht

theorem blankImage_iff :
    (Violation.blankImage "pipeline").when p.agent.hasBlankImage = some v ↔ p.Faulty v ∧ v.turn = 2 := by
  rw [Violation.when_eq_some, Agent.hasBlankImage_iff]
  constructor
  · rintro ⟨⟨image, h, hb⟩, rfl⟩
    exact ⟨.image h hb, rfl⟩
  · rintro ⟨hv, ht⟩
    cases hv with
    | image h hb => exact ⟨⟨_, h, hb⟩, rfl⟩
    | _ => simp [Violation.turn] at ht

theorem sameName_iff : Stage.siblingViolation? "pipeline" p.stages = some v ↔ p.Faulty v ∧ v.turn = 7 := by
  rw [Stage.siblingViolation?_eq_some]
  constructor
  · rintro ⟨name, h, rfl⟩
    exact ⟨.siblings h, rfl⟩
  · rintro ⟨hv, ht⟩
    cases hv with
    | siblings h => exact ⟨_, h, rfl⟩
    | _ => simp [Violation.turn] at ht

theorem Faulty.turn_cases (h : p.Faulty v) : v.turn = 0 ∨ v.turn = 2 ∨ v.turn = 7 := by
  cases h <;> simp [Violation.turn]

/-- A pipeline is searched from the rules for the whole of it down. -/
theorem met_violation? (p : Pipeline) : Fault.Met p.Breaks p.violation? := by
  have hown : Fault.Met (Fault.Met.From p.Faulty 0)
      (Violation.noStages.when p.stages.isEmpty <|> (Violation.blankImage "pipeline").when p.agent.hasBlankImage
        <|> Stage.siblingViolation? "pipeline" p.stages) :=
    .step (fun _ => noStages_iff) (by decide) (fun v hv ht => by have := hv.turn_cases; omega) <|
    .step (fun _ => blankImage_iff) (by decide) (fun v hv ht => by have := hv.turn_cases; omega) <|
    .last (fun _ => sameName_iff) fun v _ => v.turn_le
  have hmembers : Fault.Met (Stage.BreakAmong p.stages) (Stage.memberViolation? p.stages) :=
    Stage.met_memberViolation? fun s _ => s.met_violation?
  have h := hown.orElse hmembers fun x y hx hy => Stage.noLater_of_breakAmong hx.1 hy
  simp only [Option.orElse_eq_orElse, Option.orElse_eq_or, Option.or_assoc] at h
  rw [violation?]
  simp only [Option.orElse_eq_orElse, Option.orElse_eq_or]
  refine h.congr fun x => ?_
  simp only [Breaks, Fault.Met.From, Nat.zero_le, and_true]

end Pipeline

/-! ### One fault for a rule and a place -/

/-- What one check finds is one violation. -/
theorem Violation.eq_of_check {faulty : Violation → Prop} {o : Option Violation} {v w : Violation} {turn : Nat}
    (h : ∀ v, o = some v ↔ faulty v ∧ v.turn = turn) (hv : faulty v) (hw : faulty w) (ht : v.turn = turn)
    (ht' : w.turn = turn) : v = w :=
  Option.some.inj (((h v).2 ⟨hv, ht⟩).symm.trans ((h w).2 ⟨hw, ht'⟩))

open Violation (eq_of_check)

theorem Stage.Faulty.eq {s : Stage} {v w : Violation} (hv : s.Faulty v) (hw : s.Faulty w)
    (ht : w.turn = v.turn) : v = w := by
  cases hv with
  | name h => exact eq_of_check (fun _ => blankName_iff) (.name h) hw rfl ht
  | image h hb => exact eq_of_check (fun _ => blankImage_iff) (.image h hb) hw rfl ht
  | content hs hg => exact eq_of_check (fun _ => noContent_iff) (.content hs hg) hw rfl ht
  | keys h hb hk => exact eq_of_check (fun _ => repeatedKey_iff) (.keys h hb hk) hw rfl ht
  | group h => exact eq_of_check (fun _ => emptyGroup_iff) (.group h) hw rfl ht
  | ownName hs hb hn => exact eq_of_check (fun _ => ownNameBranch_iff) (.ownName hs hb hn) hw rfl ht
  | siblings h => exact eq_of_check (fun _ => sameName_iff) (.siblings h) hw rfl ht

theorem Pipeline.Faulty.eq {p : Pipeline} {v w : Violation} (hv : p.Faulty v) (hw : p.Faulty w)
    (ht : w.turn = v.turn) : v = w := by
  cases hv with
  | stages h => exact eq_of_check (fun _ => noStages_iff) (.stages h) hw rfl ht
  | image h hb => exact eq_of_check (fun _ => blankImage_iff) (.image h hb) hw rfl ht
  | siblings h => exact eq_of_check (fun _ => sameName_iff) (.siblings h) hw rfl ht

theorem Pipeline.Breaks.eq {p : Pipeline} {place : List Nat} {v w : Violation} (hv : p.Breaks ⟨place, v⟩)
    (hw : p.Breaks ⟨place, w⟩) (ht : w.turn = v.turn) : v = w := by
  rcases hv with ⟨hplace, hv⟩ | ⟨i, rest, s, rfl, hs, t, ht₁, hv⟩
  · rcases hw with ⟨_, hw⟩ | hw
    · exact hv.eq hw ht
    · exact absurd hw (Stage.not_breakAmong_nil hplace)
  · rcases hw with ⟨e, _⟩ | ⟨j, rest', s', e, hs', t', ht₂, hw⟩
    · cases e
    · obtain ⟨rfl, rfl⟩ := List.cons.inj e
      obtain rfl := Option.some.inj (hs.symm.trans hs')
      obtain rfl := Option.some.inj (ht₁.symm.trans ht₂)
      exact hv.eq hw ht

/-! ### Validation -/

theorem Stage.ownViolation?_eq_none {s : Stage} : s.ownViolation? = none ↔ s.Fine := by
  simp only [ownViolation?, Option.orElse_eq_orElse, Option.orElse_eq_or, Option.or_eq_none_iff,
    Violation.when_eq_none, siblingViolation?_eq_none, Option.map_eq_none_iff,
    List.findSome?_eq_none_iff, Step.repeatedKey?_eq_none, ← Bool.not_eq_true, Text.allBlank_iff,
    Agent.hasBlankImage_iff]
  constructor
  · rintro ⟨hname, himage, hcontent, hkeys, hgroup, hown, hnames⟩
    exact
      { name := hname
        image := fun image h hb => himage ⟨image, by rw [effectiveAgent, h, Option.getD_some], hb⟩
        content := by
          by_contra hne
          simp only [not_or, not_not] at hne
          simp [hne.1, hne.2] at hcontent
        keys := fun command params h => hkeys _ h
        group := by simpa using hgroup
        own := fun hs b hb e => hown (by simpa [hasSteps, hs] using ⟨b, hb, e⟩)
        names := hnames }
  · intro h
    refine ⟨h.name, ?_, ?_, fun step hstep => ?_, by simpa using h.group, ?_, h.names⟩
    · rintro ⟨image, ha, hb⟩
      refine h.image image ?_ hb
      cases hs : s.agent with
      | none => simp [effectiveAgent, hs] at ha
      | some a => rw [← ha, effectiveAgent, hs, Option.getD_some]
    · rcases h.content with hs | hg
      · simp [hs]
      · simp [hg]
    · cases step with
      | single => exact List.nodup_nil
      | multi command params => exact h.keys command params hstep
    · intro hown
      simp only [hasSteps, Bool.and_eq_true, Bool.not_eq_true', List.isEmpty_eq_false_iff, List.any_eq_true,
        beq_iff_eq] at hown
      obtain ⟨hs, b, hb, e⟩ := hown
      exact h.own hs b hb e

theorem Stage.violation?_eq_none_iff (s : Stage) : s.violation? = none ↔ s.Everywhere Fine := by
  induction s using Stage.induction with
  | h s ih =>
    rw [violation?_eq_none, ownViolation?_eq_none]
    constructor
    · rintro ⟨hown, hbelow⟩
      exact .mk hown fun b hb => (ih b hb).1 (hbelow b hb)
    · intro h
      exact ⟨h.here, fun b hb => (ih b hb).2 (h.branch hb)⟩

theorem Pipeline.violation?_eq_none_iff (p : Pipeline) : p.violation? = none ↔ p.Valid := by
  simp only [violation?, Option.orElse_eq_orElse, Option.orElse_eq_or, Option.or_eq_none_iff,
    Violation.when_eq_none, Stage.siblingViolation?_eq_none, Stage.memberViolation?_eq_none,
    Stage.violation?_eq_none_iff, ← Bool.not_eq_true, List.isEmpty_iff, Agent.hasBlankImage_iff]
  constructor
  · rintro ⟨hstages, himage, hnames, hmembers⟩
    exact ⟨hstages, fun image h hb => himage ⟨image, h, hb⟩, hnames, hmembers⟩
  · intro h
    refine ⟨h.stages, ?_, h.names, h.members⟩
    rintro ⟨image, ha, hb⟩
    exact h.image image ha hb

/-- Validation lets a pipeline through exactly if it keeps the rules at every depth. An error that it returns
is that of a rule which is broken, at the place and in the turn in which such a rule is met first. -/
theorem Pipeline.validation_exact (p : Pipeline) : (p.violation? = none ↔ p.Valid) ∧
    ∀ e, p.violation?.map Violation.error = some e ↔
      ∃ x, p.Breaks x ∧ (∀ y, p.Breaks y → x.NoLater y) ∧
        e.message = x.violation.message ∧ e.stages = x.violation.stages := by
  refine ⟨p.violation?_eq_none_iff, fun e => ?_⟩
  have hmet := p.met_violation?
  constructor
  · intro he
    obtain ⟨v, hv, rfl⟩ := Option.map_eq_some_iff.1 he
    obtain ⟨place, hbreaks, hfirst⟩ := hmet.first v hv
    exact ⟨⟨place, v⟩, hbreaks, hfirst, rfl, rfl⟩
  · rintro ⟨⟨place, v⟩, hbreaks, hfirst, hmessage, hstages⟩
    cases hv : p.violation? with
    | none => exact absurd hbreaks (hmet.absent hv _)
    | some w =>
      obtain ⟨place', hbreaks', hfirst'⟩ := hmet.first w hv
      -- each of the two faults is met no later than the other one
      have hsame : place = place' ∧ w.turn = v.turn := by
        rcases hfirst _ hbreaks' with hlt | ⟨he, hle⟩ <;> rcases hfirst' _ hbreaks with hlt' | ⟨he', hle'⟩
        · exact absurd (List.lt_trans hlt hlt') (List.lt_irrefl _)
        · exact absurd (he' ▸ hlt) (List.lt_irrefl _)
        · exact absurd (he ▸ hlt') (List.lt_irrefl _)
        · exact ⟨he, Nat.le_antisymm hle' hle⟩
      obtain ⟨rfl, ht⟩ := hsame
      obtain rfl := hbreaks.eq hbreaks' ht
      obtain ⟨message, stages⟩ := e
      exact congrArg some (by rw [Violation.error, ← hmessage, ← hstages])

end StageTree

import StageTree.Proofs.Bindings
import StageTree.Proofs.CommandLine.Arguments
import StageTree.Proofs.CommandLine.Verdict
import StageTree.Proofs.Run.Attempts
import StageTree.Proofs.Run.InTurn
import StageTree.Proofs.Text.Order

/-! Variables from the command line to the commands of the steps. An argument is split at its first equals sign; of
arguments for one name the last one counts; and every attempt at the unit of a stage runs its shell texts with
exactly these variables. -/

namespace StageTree

namespace CommandLine

/-! ### What arguments give -/

/-- Of two lists that are related member by member the one is split where the other one is. -/
theorem exists_split_of_forall₂ {α β : Type} {R : α → β → Prop} {l : List α} {before after : List β} {b : β}
    (h : List.Forall₂ R l (before ++ b :: after)) :
    ∃ l₁ a l₂, l = l₁ ++ a :: l₂ ∧ R a b ∧ List.Forall₂ R l₂ after := by
  have hrest := List.forall₂_drop_append l before (b :: after) h
  obtain ⟨a, l₂, hab, hafter, hdrop⟩ := List.forall₂_cons_right_iff.1 hrest
  exact ⟨l.take before.length, a, l₂, by rw [← hdrop, List.take_append_drop], hab, hafter⟩

variable {given : List String} {vars : List (String × String)} {arg key value : String}

theorem mem_names_of_gives (h : List.Forall₂ (fun arg b => Gives arg b.1 b.2) given vars) :
    key ∈ vars.map Prod.fst ↔ ∃ arg ∈ given, ∃ value, Gives arg key value := by
  induction h with
  | nil => simp
  | @cons arg b given vars hb _ ih =>
    have hhead : key = b.1 ↔ ∃ value, Gives arg key value :=
      ⟨fun e => ⟨b.2, e ▸ hb⟩, fun ⟨_, h⟩ => (h.unique hb).1⟩
    rw [List.map_cons, List.mem_cons, ih, hhead]
    simp

/-- The variables that arguments give: each name once, in the order of its bytes, with the value of the last argument
for it. Split at its first equals sign, the text of a variable says what it is. -/
structure Bound (given : List String) (env : Bindings) : Prop where
  once : (env.entries.map Prod.fst).Nodup
  increasing : env.entries.Pairwise fun b b' => Text.bytes b.1 < Text.bytes b'.1
  names : ∀ key, key ∈ env.entries.map Prod.fst ↔ ∃ arg ∈ given, ∃ value, Gives arg key value
  last : ∀ key value, (key, value) ∈ env.entries ↔ ∃ before arg after, given = before ++ arg :: after ∧
    Gives arg key value ∧ ∀ later ∈ after, ∀ value, ¬ Gives later key value
  split : ∀ b ∈ env.entries, splitEquals (b.1 ++ "=" ++ b.2).toList = some b

theorem mem_entries_iff (h : List.Forall₂ (fun arg b => Gives arg b.1 b.2) given vars) :
    (key, value) ∈ (Bindings.ofList vars).entries ↔ ∃ before arg after, given = before ++ arg :: after ∧
      Gives arg key value ∧ ∀ later ∈ after, ∀ value, ¬ Gives later key value := by
  rw [← Bindings.get?_eq_some_iff, Bindings.get?_ofList_eq_some]
  constructor
  · rintro ⟨before, after, rfl, hlast⟩
    obtain ⟨front, arg, rest, rfl, harg, hrest⟩ := exists_split_of_forall₂ h
    refine ⟨front, arg, rest, rfl, harg, fun later hlater value hgives => hlast ?_⟩
    exact (mem_names_of_gives hrest).2 ⟨later, hlater, value, hgives⟩
  · rintro ⟨front, arg, rest, rfl, harg, hlast⟩
    obtain ⟨before, b, after, rfl, hb, hafter⟩ := exists_split_of_forall₂ h.flip
    obtain ⟨rfl, rfl⟩ := harg.unique hb
    refine ⟨before, after, rfl, fun hmem => ?_⟩
    obtain ⟨later, hlater, value, hgives⟩ := (mem_names_of_gives hafter.flip).1 hmem
    exact hlast later hlater value hgives

theorem bound (h : given.mapM readVariable = .ok vars) : Bound given (.ofList vars) := by
  have hall := forall₂_gives h
  refine
    { once := Bindings.nodup_names _
      increasing := (Bindings.ofList vars).sorted.imp Text.bytes_lt
      names := fun key => Bindings.mem_names_ofList.trans (mem_names_of_gives hall)
      last := fun key value => mem_entries_iff hall
      split := fun b hb => ?_ }
  obtain ⟨_, arg, _, _, hgives, _⟩ := (mem_entries_iff hall).1 hb
  rw [← hgives.1]
  exact (gives_iff.1 hgives).1

end CommandLine

/-! ### What the attempts of a run do -/

/-- A run in which all units have some variables, and all attempts execute the commands of a unit with them. -/
structure Run.Uses {M : Type} (r : Run M (Trial Hanging)) (c : Config) (programs : Programs M) (env : Bindings)
    (p : Pipeline) (m : M) (moves : List Move) : Prop where
  units : ∀ e ∈ r.trace, ∀ unit, e.what = .submitted unit → ∃ s, (e.path, s) ∈ p.preorder ∧ unit = .ofStage s env
  /-- The same moves make the same run where the attempts are kept. -/
  attempts : ∃ attempts,
    (begin p (m, [])).moved (c.keeping programs env) moves = some { r with world := (r.world, attempts) } ∧
      ∀ a ∈ attempts, (∃ path s, (path, s) ∈ p.preorder ∧ a.unit = .ofStage s env) ∧ a.Executes c.backend env

theorem Run.uses_of_moved {M : Type} {r : Run M (Trial Hanging)} {c : Config} {programs : Programs M} {env : Bindings}
    {p : Pipeline} {m : M} {moves : List Move} (hp : p.Proper)
    (h : (begin p m).moved (c.setting programs env) moves = some r) : r.Uses c programs env p m moves where
  units e he unit hwhat := by
    obtain ⟨s, hs, hunit⟩ := exists_stage_of_submitted hp h he hwhat
    exact ⟨s, hp.find?_eq_some_iff.1 hs, hunit⟩
  attempts := by
    obtain ⟨attempts, hkept⟩ := moved_keeping_attempts h
    refine ⟨attempts, hkept, fun a ha => ?_⟩
    obtain ⟨⟨path, s, hs, hunit⟩, hcourse⟩ := attempts_of_moved hp hkept a ha
    have henv : a.unit.env = env := by
      rw [hunit]
      rfl
    have hexecutes := Attempted.executes_of_course hcourse
    rw [henv] at hexecutes
    exact ⟨⟨path, s, hs, hunit⟩, hexecutes⟩

namespace CommandLine

variable {given : List String} {vars : List (String × String)}

/-- Arguments that are read as variables, and what becomes of these. -/
structure Carried (given : List String) (vars : List (String × String)) : Prop where
  bound : Bound given (.ofList vars)
  /-- The arguments can be given for a file. -/
  asked : ∀ file, Shape.of file.toList = .plain → file ≠ "" →
    Request.ofArgs ("run" :: (given.map varArg ++ [file])) = .ok (.run file none vars none)
  /-- What is asked for is answered by a run with these variables. -/
  answered : ∀ (M : Type) (programs : Programs M) read (m : M) file config output c p,
    loadConfig read config = .ok c → loadPipeline read file = .ok p → p.violation? = none →
      ∃ moves r, (Run.begin p m).moved (c.setting programs (.ofList vars)) moves = some r ∧ r.verdict.isSome = true ∧
        (Request.run file config vars output).answer programs read m = (r.world, report output r.outcome)
  executed : ∀ (M : Type) (programs : Programs M) (m : M) c p, p.violation? = none →
    ∀ moves r, (Run.begin p m).moved (c.setting programs (.ofList vars)) moves = some r →
      r.Uses c programs (.ofList vars) p m moves

theorem loadPipeline_eq_ok {read : String → Contents} {file : String} {p : Pipeline}
    (h : loadPipeline read file = .ok p) : ∃ source, (read file).text = .ok source ∧ Source.parse source = .ok p := by
  cases hs : (read file).text with
  | error reason =>
    rw [loadPipeline, hs] at h
    cases h
  | ok source =>
    refine ⟨source, rfl, ?_⟩
    rw [loadPipeline_eq hs] at h
    cases hp : Source.parse source with
    | error e =>
      rw [hp] at h
      cases h
    | ok q =>
      rw [hp] at h
      exact congrArg Except.ok (Except.ok.inj h)

theorem carried (h : given.mapM readVariable = .ok vars) : Carried given vars where
  bound := bound h
  asked file hfile hne := (ofArgs_varArg hfile hne given vars).2 h
  answered M programs read m file config output c p hc hl hv := by
    obtain ⟨source, hs, hp⟩ := loadPipeline_eq_ok hl
    have hadmits : c.Admits source p := ⟨fault?_of_loadConfig hc, hp, hv⟩
    obtain ⟨moves, hmoves, hover⟩ := hadmits.exists_moved programs (.ofList vars) [] m
    exact ⟨moves, _, hmoves, hover, answer_run hs hc hp⟩
  executed M programs m c p hv moves r hr := Run.uses_of_moved (Pipeline.proper_of_violation?_eq_none hv) hr

/-- An argument is refused if it has no equals sign or starts with one; any other gives the text before its first
equals sign the value after it. If all that is given for variables is accepted, each name is bound once, to its last
value, and every attempt at any unit of any run executes the commands with these variables: on the host they are the
environment that is added, and in a container they are arguments before its id, in the order of the bytes of their
names. -/
theorem variables_reach_commands :
    (∀ arg, (∃ reason, readVariable arg = .error reason) ↔ '=' ∉ arg.toList ∨ arg.toList.head? = some '=') ∧
      (∀ arg key value, readVariable arg = .ok (key, value) ↔ Gives arg key value) ∧
      (∀ args file config vars output, Request.ofArgs ("run" :: args) = .ok (.run file config vars output) →
        (variablesIn none args).mapM readVariable = .ok vars) ∧
      ∀ given vars, given.mapM readVariable = .ok vars → Carried given vars :=
  ⟨fun _ => readVariable_eq_error, fun _ _ _ => readVariable_eq_ok, fun _ _ _ _ _ => mapM_variablesIn,
    fun _ _ => carried⟩

def hostThenContainer : Pipeline :=
  let on (name : String) (agent : Agent) : Stage := { name, agent := some agent, steps := [.single "echo" name] }
  ⟨.none, [on "a" .none, on "b" (.container "alpine")]⟩

/-- A name that comes twice, and a value with an equals sign. -/
theorem variables_reach_commands_both :
    let given := ["B=1", "A=x=y", "B="]
    let env := Bindings.ofList [("B", "1"), ("A", "x=y"), ("B", "")]
    let m : List CallResult := [.ended {}, .ended {}, .ended { stdout := [99] }, .ended {}, .ended {}]
    let moves : List Move := [.stage [] .start 0, .stage [] .start 0]
    (∃ reason, readVariable "=1" = .error reason) ∧ Bound given env ∧ env.entries = [("A", "x=y"), ("B", "")] ∧
      (∃ r, (Run.begin hostThenContainer m).moved (({} : Config).setting Backend.prepared env) moves = some r ∧
        r.Uses {} Backend.prepared env hostThenContainer m moves) ∧
      ((Run.begin hostThenContainer (m, [])).moved (({} : Config).keeping Backend.prepared env) moves).map
          (fun r => r.world.2.flatMap fun a => shellCalls a.deeds) =
        some [⟨"bash", ["-c", "echo 'a'"], env⟩,
          ⟨"docker", ["exec", "-e", "A=x=y", "-e", "B=", "c", "sh", "-c", "echo 'b'"], .empty⟩] := by
  intro given env m moves
  obtain ⟨hrejected, _, _, hcarried⟩ := variables_reach_commands
  have hread : given.mapM readVariable = .ok [("B", "1"), ("A", "x=y"), ("B", "")] := by decide +kernel
  have hmoved : ((Run.begin hostThenContainer m).moved (({} : Config).setting Backend.prepared env) moves).isSome =
      true := by decide +kernel
  obtain ⟨r, hr⟩ := Option.isSome_iff_exists.1 hmoved
  obtain ⟨hbound, _, _, hexecuted⟩ := hcarried given _ hread
  exact ⟨(hrejected "=1").2 (.inr rfl), hbound, by decide +kernel,
    ⟨r, hr, hexecuted _ _ _ _ _ (by decide +kernel) _ _ hr⟩, by decide +kernel⟩

end CommandLine

end StageTree

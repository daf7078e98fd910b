import Mathlib.Data.List.Forall2
import Mathlib.Data.List.TakeWhile
import StageTree.CommandLine.Request
import StageTree.Proofs.Process.Container

/-! Variables on the command line. An argument is split at its first equals sign, and is refused if there is none or
nothing before it. The variables of a command are read from the values that its arguments give for them, wherever
these stand. -/

namespace StageTree.CommandLine

/-! ### Arguments -/

/-- A text split at its first equals sign. -/
theorem splitEquals_eq_some {cs : List Char} {key value : String} :
    splitEquals cs = some (key, value) ↔ cs = key.toList ++ '=' :: value.toList ∧ '=' ∉ key.toList := by
  constructor
  · intro h
    unfold splitEquals at h
    split at h
    · cases h
    · rename_i c rest hdrop
      obtain ⟨rfl, rfl⟩ := Prod.mk.inj (Option.some.inj h)
      have hc : c = '=' := by
        have hhead := List.head?_dropWhile_not (fun c => decide (c ≠ '=')) cs
        rw [hdrop] at hhead
        simpa using hhead
      subst hc
      rw [String.toList_ofList, String.toList_ofList]
      refine ⟨?_, fun hmem => ?_⟩
      · rw [← hdrop, List.takeWhile_append_dropWhile]
      · simpa using List.mem_takeWhile_imp hmem
  · rintro ⟨rfl, hkey⟩
    have hall : ∀ c ∈ key.toList, decide (c ≠ '=') = true := fun c hc => by
      simpa using fun e : c = '=' => hkey (e ▸ hc)
    rw [splitEquals, List.dropWhile_append_of_pos hall, List.takeWhile_append_of_pos hall]
    simp [String.ofList_toList]

theorem splitEquals_eq_none {cs : List Char} : splitEquals cs = none ↔ '=' ∉ cs := by
  constructor
  · intro h hmem
    obtain ⟨before, after, rfl, hbefore⟩ := List.eq_append_cons_of_mem hmem
    have hsome : splitEquals (before ++ '=' :: after) = some (.ofList before, .ofList after) :=
      splitEquals_eq_some.2 (by simpa using hbefore)
    rw [h] at hsome
    cases hsome
  · intro h
    cases hs : splitEquals cs with
    | none => rfl
    | some b =>
      rw [(splitEquals_eq_some.1 hs).1] at h
      simp at h

/-- An argument that gives a variable its value: a name that is not empty and has no equals sign, then an equals
sign, then the value. -/
def Gives (arg key value : String) : Prop := arg = key ++ "=" ++ value ∧ key ≠ "" ∧ '=' ∉ key.toList

variable {arg key value : String}

theorem gives_iff : Gives arg key value ↔ splitEquals arg.toList = some (key, value) ∧ key ≠ "" := by
  rw [Gives, splitEquals_eq_some, ← String.toList_inj, String.toList_append, String.toList_append, List.append_assoc,
    and_assoc, and_comm (a := key ≠ "")]
  rfl

theorem readVariable_eq_ok : readVariable arg = .ok (key, value) ↔ Gives arg key value := by
  rw [gives_iff, readVariable]
  cases splitEquals arg.toList with
  | none => simp
  | some b =>
    by_cases hkey : b.1 = ""
    · simp only [hkey, if_true, Option.some.injEq]
      refine iff_of_false (by simp) ?_
      rintro ⟨rfl, hne⟩
      exact hne hkey
    · simp only [hkey, if_false, Except.ok.injEq, Prod.mk.injEq, Option.some.injEq]
      constructor
      · rintro ⟨rfl, rfl⟩
        exact ⟨rfl, hkey⟩
      · rintro ⟨rfl, _⟩
        exact ⟨rfl, rfl⟩

/-- An argument is rejected if it has no equals sign or starts with one, and only then. -/
theorem readVariable_eq_error :
    (∃ reason, readVariable arg = .error reason) ↔ '=' ∉ arg.toList ∨ arg.toList.head? = some '=' := by
  rw [← splitEquals_eq_none]
  cases hs : splitEquals arg.toList with
  | none => simp [readVariable, hs]
  | some b =>
    obtain ⟨key, value⟩ := b
    obtain ⟨harg, hkey⟩ := splitEquals_eq_some.1 hs
    have hempty : key = "" ↔ arg.toList.head? = some '=' := by
      rw [harg, ← String.toList_inj]
      cases hk : key.toList with
      | nil => simp
      | cons c cs =>
        rw [hk] at hkey
        refine iff_of_false (by simp) fun hhead => hkey ?_
        obtain rfl : c = '=' := by simpa using hhead
        exact List.mem_cons_self
    rw [← hempty]
    by_cases h : key = "" <;> simp [readVariable, hs, h]

theorem Gives.unique {key' value' : String} (h : Gives arg key value) (h' : Gives arg key' value') :
    key = key' ∧ value = value' := by
  have hsplit := (gives_iff.1 h).1.symm.trans (gives_iff.1 h').1
  exact Prod.mk.inj (Option.some.inj hsplit)

/-! ### The command line -/

variable {given : List String} {vars : List (String × String)}

theorem forall₂_gives (h : given.mapM readVariable = .ok vars) :
    List.Forall₂ (fun arg b => Gives arg b.1 b.2) given vars := by
  obtain ⟨_, _, _, _, _, _, _, herror⟩ | ⟨vars', hall, hok⟩ := mapM_cases readVariable given
  · rw [h] at herror
    cases herror
  · obtain rfl : vars = vars' := Except.ok.inj (h.symm.trans hok)
    exact hall.imp fun _ _ => readVariable_eq_ok.1

/-- The option that an argument gives, and the value that comes with it, if one does. -/
def Flag.of? (arg : String) : Option (Flag × Option String) :=
  match Shape.of arg.toList with
  | .long name value => (Flag.ofName? name).map (·, value)
  | .short letter rest => (Flag.ofLetter? letter).map (·, attached rest)
  | _ => none

/-- The values that arguments give for variables, after an option that awaits its value, if there is one. -/
def variablesIn (awaited : Option Flag) : List String → List String
  | [] => []
  | arg :: args =>
    if arg = "--" then []
    else match Flag.of? arg with
      | some (o, some value) => (if o = .var then [value] else []) ++ variablesIn none args
      | some (o, none) => variablesIn (some o) args
      | none => (if awaited = some .var then [arg] else []) ++ variablesIn none args

/-- Values that are read as variables, in addition to others. -/
def Reads (values : List String) (old new : List (String × String)) : Prop :=
  ∃ more, values.mapM readVariable = .ok more ∧ new = old ++ more

theorem Reads.nil (vars : List (String × String)) : Reads [] vars vars := ⟨[], rfl, (List.append_nil _).symm⟩

theorem Reads.append {values values' : List String} {vars vars' vars'' : List (String × String)}
    (h : Reads values vars vars') (h' : Reads values' vars' vars'') : Reads (values ++ values') vars vars'' := by
  obtain ⟨more, hmore, rfl⟩ := h
  obtain ⟨more', hmore', rfl⟩ := h'
  refine ⟨more ++ more', ?_, List.append_assoc _ _ _⟩
  rw [List.mapM_append, hmore, hmore']
  rfl

namespace Given

def unread (g : Given) : List String :=
  match g.pending with
  | some (.flag .var, some value) => [value]
  | _ => []

def awaited (g : Given) : Option Flag :=
  match g.pending with
  | some (.flag o, none) => some o
  | _ => none

variable {g g' : Given} {slot : Slot} {value arg : String} {o : Flag} {args : List String}

theorem reads_put (h : g.put slot value = .ok g') :
    g'.pending = g.pending ∧ Reads (if slot = .flag .var then [value] else []) g.vars g'.vars := by
  have hpath {α : Type} {x : Except Refusal α} {f : α → Given} (h : x.map f = .ok g') : ∃ a, f a = g' := by
    cases x with
    | error e => cases h
    | ok a => exact ⟨a, Except.ok.inj h⟩
  rcases slot with _ | (_ | _ | _)
  · obtain ⟨_, rfl⟩ := hpath h
    exact ⟨rfl, .nil _⟩
  · obtain ⟨_, rfl⟩ := hpath h
    exact ⟨rfl, .nil _⟩
  · rw [put] at h
    cases hread : readVariable value with
    | error reason => simp [hread] at h
    | ok v =>
      rw [hread] at h
      obtain rfl := Except.ok.inj h
      refine ⟨rfl, [v], ?_, rfl⟩
      rw [if_pos rfl, List.mapM_cons, hread]
      rfl
  · obtain ⟨_, rfl⟩ := hpath h
    exact ⟨rfl, .nil _⟩

/-- What is not read yet is read when the pending value is checked. -/
theorem reads_settle (h : g.settle = .ok g') :
    g'.pending = none ∧ g.awaited = none ∧ Reads g.unread g.vars g'.vars := by
  unfold settle at h
  split at h
  · rename_i hp
    obtain rfl := Except.ok.inj h
    refine ⟨hp, by rw [awaited, hp], ?_⟩
    rw [unread, hp]
    exact .nil _
  · cases h
  · rename_i slot value hp
    obtain ⟨hpending, hreads⟩ := reads_put h
    have hawaited : g.awaited = none := by
      rw [awaited, hp]
      cases slot <;> rfl
    refine ⟨hpending, hawaited, ?_⟩
    rcases slot with _ | (_ | _ | _) <;> simpa [unread, hp] using hreads

theorem reads_positional (h : g.positional arg = .ok g') :
    g'.unread = [] ∧ g'.awaited = none ∧ g.awaited = none ∧ Reads g.unread g.vars g'.vars := by
  unfold positional at h
  split at h
  · cases h
  · cases hsettle : g.settle with
    | error e => simp [hsettle, Except.map] at h
    | ok q =>
      rw [hsettle] at h
      obtain rfl := Except.ok.inj h
      obtain ⟨_, hawaited, hreads⟩ := reads_settle hsettle
      exact ⟨rfl, rfl, hawaited, hreads⟩

theorem reads_flag (h : g.flag o (some value) = .ok g') : g.awaited = none ∧ g'.unread = [] ∧
    g'.awaited = none ∧ Reads (g.unread ++ if o = .var then [value] else []) g.vars g'.vars := by
  unfold flag at h
  cases hsettle : g.settle with
  | error e => simp [hsettle] at h
  | ok q =>
    rw [hsettle] at h
    obtain ⟨hpending, hawaited, hreads⟩ := reads_settle hsettle
    obtain ⟨hpending', hreads'⟩ := reads_put h
    rw [hpending] at hpending'
    refine ⟨hawaited, by rw [unread, hpending'], by rw [awaited, hpending'], hreads.append ?_⟩
    simpa using hreads'

theorem take_of_flag {value : Option String} (hf : Flag.of? arg = some (o, value)) :
    g.take true arg = g.flag o value := by
  unfold Flag.of? at hf
  unfold take
  split at hf
  · rename_i name value' hshape
    obtain ⟨o', ho, heq⟩ := Option.map_eq_some_iff.1 hf
    obtain ⟨rfl, rfl⟩ := Prod.mk.inj heq
    have hname : name ≠ "help" := by
      rintro rfl
      cases ho
    simp only [hshape]
    split <;> simp_all
  · rename_i letter rest hshape
    obtain ⟨o', ho, heq⟩ := Option.map_eq_some_iff.1 hf
    obtain ⟨rfl, rfl⟩ := Prod.mk.inj heq
    have hletter : letter ≠ 'h' := by
      rintro rfl
      cases ho
    simp only [hshape]
    split <;> simp_all
  · cases hf

theorem help_ne_ok : g.help ≠ .ok g' := by
  unfold help
  split <;> simp

theorem take_of_plain (hf : Flag.of? arg = none) (h : g.take true arg = .ok g') :
    (∃ o, g.pending = some (.flag o, none) ∧ g' = { g with pending := some (.flag o, some arg) }) ∨
      g.awaited = none ∧ g.positional arg = .ok g' := by
  unfold Flag.of? at hf
  unfold take at h
  split at h
  · exact absurd h help_ne_ok
  · cases h
  · exact absurd h help_ne_ok
  · rename_i name value _ _ hshape
    simp only [hshape, Option.map_eq_none_iff] at hf
    simp [hf] at h
  · rename_i letter rest _ hshape
    simp only [hshape, Option.map_eq_none_iff] at hf
    simp [hf] at h
  · split at h
    · rename_i o hp
      exact .inl ⟨o, hp, (Except.ok.inj h).symm⟩
    · rename_i hp
      refine .inr ⟨?_, h⟩
      rw [awaited]
      split
      · rename_i o hp'
        exact absurd hp' (hp o)
      · rfl

/-- What is given for variables after some values is what is not read yet, and what the arguments give. -/
def toRead (g : Given) (args : List String) : List String := g.unread ++ variablesIn g.awaited args

theorem reads_take (hne : arg ≠ "--") (h : g.take true arg = .ok g') (args : List String) :
    ∃ front, g.toRead (arg :: args) = front ++ g'.toRead args ∧ Reads front g.vars g'.vars := by
  cases hf : Flag.of? arg with
  | some b =>
    obtain ⟨o, value⟩ := b
    rw [take_of_flag hf] at h
    cases value with
    | some value =>
      obtain ⟨hawaited, hunread, hawaited', hreads⟩ := reads_flag h
      refine ⟨_, ?_, hreads⟩
      simp [toRead, variablesIn, hne, hf, hunread, hawaited']
    | none =>
      unfold flag at h
      cases hsettle : g.settle with
      | error e => simp [hsettle] at h
      | ok q =>
        rw [hsettle] at h
        obtain rfl := Except.ok.inj h
        obtain ⟨_, _, hreads⟩ := reads_settle hsettle
        refine ⟨_, ?_, hreads⟩
        simp [toRead, variablesIn, hne, hf, unread, awaited]
  | none =>
    rcases take_of_plain hf h with ⟨o, hp, rfl⟩ | ⟨hawaited, hpositional⟩
    · refine ⟨[], ?_, .nil _⟩
      cases o <;> simp [toRead, variablesIn, hne, hf, unread, awaited, hp]
    · obtain ⟨hunread, hawaited', _, hreads⟩ := reads_positional hpositional
      refine ⟨_, ?_, hreads⟩
      simp [toRead, variablesIn, hne, hf, hunread, hawaited, hawaited']

/-- After two hyphens alone nothing is given for variables any more. -/
theorem reads_foldlM (h : (args.foldlM positional g).bind settle = .ok g') : Reads g.unread g.vars g'.vars := by
  induction args generalizing g with
  | nil => exact (reads_settle h).2.2
  | cons arg args ih =>
    rw [List.foldlM_cons] at h
    cases hpositional : g.positional arg with
    | error e =>
      rw [hpositional] at h
      cases h
    | ok q =>
      rw [hpositional] at h
      obtain ⟨hunread, _, _, hreads⟩ := reads_positional hpositional
      have hrest := ih h
      rw [hunread] at hrest
      simpa using hreads.append hrest

/-- What the arguments give for variables is read, in their order. -/
theorem reads_takeAll (h : g.takeAll true args = .ok g') : Reads (g.toRead args) g.vars g'.vars := by
  induction args generalizing g with
  | nil =>
    rw [toRead, variablesIn, List.append_nil]
    exact (reads_settle h).2.2
  | cons arg args ih =>
    rw [takeAll] at h
    split at h
    · rename_i hstop
      rw [toRead, variablesIn, if_pos hstop, List.append_nil]
      exact reads_foldlM h
    · rename_i hne
      cases htake : g.take true arg with
      | error e => simp [htake] at h
      | ok q =>
        rw [htake] at h
        obtain ⟨front, hfront, hreads⟩ := reads_take hne htake args
        rw [hfront]
        exact hreads.append (ih h)

end Given

variable {args : List String} {file : String} {config output : Option String}

/-- The variables of a command line are those that are read from what its arguments give for them. -/
theorem mapM_variablesIn (h : Request.ofArgs ("run" :: args) = .ok (.run file config vars output)) :
    (variablesIn none args).mapM readVariable = .ok vars := by
  rw [Request.ofArgs, operands] at h
  cases htake : ({} : Given).takeAll true args with
  | error e => simp [htake, Except.map] at h
  | ok g =>
    obtain ⟨more, hmore, hvars⟩ := Given.reads_takeAll htake
    rw [htake] at h
    cases hfile : g.file with
    | none => simp [hfile, Except.map] at h
    | some path =>
      simp only [hfile, Option.elim_some, Except.map, Except.ok.injEq, Request.run.injEq] at h
      obtain ⟨_, _, rfl, _⟩ := h
      rw [hvars]
      exact hmore

def varArg (given : String) : String := "--var=" ++ given

theorem flag_varArg (given : String) : Flag.of? (varArg given) = some (.var, some given) := by
  have hsplit : splitEquals ('v' :: 'a' :: 'r' :: '=' :: given.toList) = some ("var", given) :=
    splitEquals_eq_some.2 ⟨rfl, by decide⟩
  have hshape : Shape.of (varArg given).toList = .long "var" (some given) := by
    rw [varArg, String.toList_append, show "--var=".toList = ['-', '-', 'v', 'a', 'r', '='] from rfl]
    simp only [List.cons_append, List.nil_append, Shape.of, hsplit]
  rw [Flag.of?, hshape]
  rfl

theorem varArg_ne_stop (given : String) : varArg given ≠ "--" := fun h => by
  have hflag := flag_varArg given
  rw [h] at hflag
  cases hflag

theorem ne_stop_of_plain (hfile : Shape.of file.toList = .plain) : file ≠ "--" := by
  rintro rfl
  cases hfile

theorem variablesIn_varArg (hfile : Shape.of file.toList = .plain) (given : List String) :
    variablesIn none (given.map varArg ++ [file]) = given := by
  induction given with
  | nil => simp [variablesIn, ne_stop_of_plain hfile, Flag.of?, hfile]
  | cons arg given ih => simp [variablesIn, varArg_ne_stop, flag_varArg, ih]

theorem takeAll_varArg (hfile : Shape.of file.toList = .plain) (hne : file ≠ "")
    (h : List.Forall₂ (fun arg b => Gives arg b.1 b.2) given vars) (front : List (String × String)) :
    ({ vars := front } : Given).takeAll true (given.map varArg ++ [file]) =
      .ok { file := some file, vars := front ++ vars } := by
  induction h generalizing front with
  | nil =>
    simp [Given.takeAll, ne_stop_of_plain hfile, Given.take, hfile, Given.positional, Given.hasFile, Given.settle,
      Given.put, Given.path, hne, Except.map]
  | @cons arg v given vars hv _ ih =>
    have htake : ({ vars := front } : Given).take true (varArg arg) = .ok { vars := front ++ [v] } := by
      rw [Given.take_of_flag (flag_varArg arg)]
      simp [Given.flag, Given.settle, Given.put, readVariable_eq_ok.2 hv]
    rw [List.map_cons, List.cons_append, Given.takeAll, if_neg (varArg_ne_stop arg), htake]
    simpa using ih (front ++ [v])

/-- A list of arguments can be given for a file exactly if each of them can be read. -/
theorem ofArgs_varArg (hfile : Shape.of file.toList = .plain) (hne : file ≠ "") (given : List String)
    (vars : List (String × String)) :
    Request.ofArgs ("run" :: (given.map varArg ++ [file])) = .ok (.run file none vars none) ↔
      given.mapM readVariable = .ok vars := by
  constructor
  · intro h
    rw [← variablesIn_varArg hfile given]
    exact mapM_variablesIn h
  · intro h
    rw [Request.ofArgs, operands, takeAll_varArg hfile hne (forall₂_gives h) []]
    rfl

end StageTree.CommandLine

import Mathlib.Data.Fintype.Basic
import StageTree.Config
import StageTree.Proofs.Bindings
import StageTree.Proofs.Json.Record
import StageTree.Unit.Basic

/-! The JSON forms of pipelines, units of work and configurations lose nothing: what is read from the form of a
value is that value, in whatever order the fields of its objects stand. -/

namespace StageTree

open Json (Gives Lossless Origin Record Shuffled ShuffledFields)

/-! ### Maps -/

theorem toFields_of_shuffled {ps : List (String × String)} {fs : List (String × Json)}
    (h : ShuffledFields (ps.map fun p => (p.1, .string p.2)) fs) :
    Json.toFields Json.toText (.object fs) = .ok ps := by
  rw [Json.toFields]
  induction ps generalizing fs with
  | nil =>
    cases h
    rfl
  | cons p ps ih =>
    cases h with
    | cons head tail =>
      rw [Json.shuffled_string head, List.mapM_cons, ih tail]
      rfl

theorem Bindings.lossless : Lossless Bindings.toJson Bindings.ofJson := by
  refine .of_gives fun m k hk => ?_
  obtain ⟨gs, fs, rfl, hperm, hshuffled⟩ := Json.shuffled_object hk
  have hgs : (Relation.Comp (· = List.map (fun p : String × String => (p.1, Json.string p.2)) ·) List.Perm)
      gs m.entries := by
    rw [List.eq_map_comp_perm]
    exact hperm.symm
  obtain ⟨ps, rfl, hps⟩ := hgs
  rw [Bindings.ofJson, toFields_of_shuffled hshuffled]
  exact congrArg Except.ok (Bindings.ofList_of_perm hps)

/-! ### Agents, steps and commands -/

theorem Agent.lossless : Lossless Agent.toJson Agent.ofJson := by
  refine .of_gives fun a => ?_
  cases a with
  | none =>
    refine Json.gives_tagged "none" (by simp) (by simp) rfl rfl fun k hk => ?_
    obtain ⟨gs, fs, rfl, hperm, hshuffled⟩ := Json.shuffled_object hk
    rfl
  | container image =>
    refine Json.gives_tagged "container" (by simp) (by simp) rfl rfl ?_
    refine Record.Gives.ofJson ?_ .held
    exact .map (Record.gives_field (by simp) (by simp) (Json.gives_text image)) _

theorem Param.lossless (origin : Origin) : Lossless Param.toJson (Param.record.ofJson origin) := by
  refine .of_gives fun p => ?_
  refine Record.Gives.ofJson ?_ origin
  exact .seq (.map (Record.gives_field (by simp) (by simp) (Json.gives_text p.key)) _)
    (Record.gives_field (by simp) (by simp) (Json.gives_text p.value))

theorem Param.hasExcess_forms (ps : List Param) : Json.anyExcess (ps.map Param.toJson) = false := by
  induction ps with
  | nil => rfl
  | cons p ps ih =>
    rw [List.map_cons, Json.anyExcess, ih]
    rfl

theorem Step.lossless : Lossless Step.toJson Step.ofJson := by
  refine .of_gives fun s => ?_
  cases s with
  | single command value =>
    refine Json.gives_tagged "single_arg" (by simp) (by simp) rfl rfl ?_
    refine Record.Gives.ofJson ?_ .held
    exact .seq (.map (Record.gives_field (by simp) (by simp) (Json.gives_text command)) _)
      (Record.gives_field (by simp) (by simp) (Json.gives_text value))
  | multi command params =>
    have hclean : (Step.multi command params).toJson.hasExcess = false := by
      simp [Step.toJson, Json.hasExcess, Json.anyFieldExcess, Param.hasExcess_forms]
    refine Json.gives_tagged "multi_arg" (by simp) (by simp) hclean rfl ?_
    refine Record.Gives.ofJson ?_ .held
    exact .seq (.map (Record.gives_field (by simp) (by simp) (Json.gives_text command)) _)
      (Record.gives_field (by simp) (by simp) (Json.gives_list fun p _ => (Param.lossless .held).gives p))

theorem Bindings.hasExcess_form (m : Bindings) : m.toJson.hasExcess = false := by
  rw [Bindings.toJson, Json.hasExcess]
  induction m.entries with
  | nil => rfl
  | cons b l ih =>
    rw [List.map_cons, Json.anyFieldExcess, ih]
    rfl

theorem Command.lossless : Lossless Command.toJson Command.ofJson := by
  refine .of_gives fun c => ?_
  cases c with
  | shell text =>
    refine Json.gives_tagged "shell" (by simp) (by simp) rfl rfl ?_
    refine Record.Gives.ofJson ?_ .held
    exact .map (Record.gives_field (by simp) (by simp) (Json.gives_text text)) _
  | invoke name params =>
    have hclean : (Command.invoke name params).toJson.hasExcess = false := by
      simp [Command.toJson, Json.hasExcess, Json.anyFieldExcess, Bindings.hasExcess_form]
    refine Json.gives_tagged "invoke" (by simp) (by simp) hclean rfl ?_
    refine Record.Gives.ofJson ?_ .held
    exact .seq (.map (Record.gives_field (by simp) (by simp) (Json.gives_text name)) _)
      (Record.gives_field (by simp) (by simp) (Bindings.lossless.gives params))

/-! ### Units of work -/

theorem gives_steps (ss : List Step) : Gives (Json.toList Step.ofJson) (.array (ss.map Step.toJson)) ss :=
  Json.gives_list fun s _ => Step.lossless.gives s

theorem UnitOfWork.lossless (origin : Origin) : Lossless UnitOfWork.toJson (UnitOfWork.ofJson origin) := by
  refine .of_gives fun u => ?_
  obtain ⟨name, steps, agent, env⟩ := u
  refine Record.Gives.ofJson ?_ origin
  by_cases hempty : env.isEmpty = true
  · obtain rfl : env = .empty := Bindings.eq_of_perm (by rw [List.isEmpty_iff.1 hempty]; exact .refl _)
    refine .seq (.seq (.seq (.map (Record.gives_field ?_ ?_ (Json.gives_text name)) _)
      (Record.gives_field ?_ ?_ (gives_steps steps))) (Record.gives_field ?_ ?_ (Agent.lossless.gives agent)))
      (Record.gives_absent _ ?_) <;> simp [hempty]
  · refine .seq (.seq (.seq (.map (Record.gives_field ?_ ?_ (Json.gives_text name)) _)
      (Record.gives_field ?_ ?_ (gives_steps steps))) (Record.gives_field ?_ ?_ (Agent.lossless.gives agent)))
      (Record.gives_field ?_ ?_ (Bindings.lossless.gives env)) <;> simp [hempty]

/-! ### Configurations -/

theorem gives_word (n : UInt64) : Gives Json.toWord (Json.ofWord n) n := by
  have h := (Json.gives_nat n.toNat).map Nat.toUInt64
  rwa [Nat.toUInt64_eq, UInt64.ofNat_toNat] at h

theorem RetryPolicy.lossless (origin : Origin) : Lossless RetryPolicy.toJson (RetryPolicy.ofJson origin) := by
  refine .of_gives fun p => ?_
  have hbackoff : Backoff.ofName? p.backoff.name = some p.backoff := by cases p.backoff <;> rfl
  have hjitter : Jitter.ofName? p.jitter.name = some p.jitter := by cases p.jitter <;> rfl
  refine Record.Gives.ofJson ?_ origin
  exact .seq (.seq (.seq (.seq (.seq (.map
    (Record.gives_field (by simp) (by simp) (gives_word p.maxAttempts)) _)
    (Record.gives_field (by simp) (by simp) (gives_word p.attemptTimeoutSecs)))
    (Record.gives_field (by simp) (by simp) (gives_word p.baseDelayMs)))
    (Record.gives_field (by simp) (by simp) (gives_word p.maxDelayMs)))
    (Record.gives_field (by simp) (by simp) (Json.gives_variant origin hbackoff)))
    (Record.gives_field (by simp) (by simp) (Json.gives_variant origin hjitter))

theorem BackendConfig.lossless (origin : Origin) : Lossless BackendConfig.toJson (BackendConfig.ofJson origin) := by
  refine .of_gives fun b => ?_
  have hpolicy : PullPolicy.ofName? b.pullPolicy.name = some b.pullPolicy := by cases b.pullPolicy <;> rfl
  refine Record.Gives.ofJson ?_ origin
  exact .seq (.seq (.seq (.map
    (Record.gives_field (by simp) (by simp) (Json.gives_text b.hostShell)) _)
    (Record.gives_field (by simp) (by simp) (Json.gives_text b.containerShell)))
    (Record.gives_field (by simp) (by simp) (Json.gives_text b.dockerBinary)))
    (Record.gives_field (by simp) (by simp) (Json.gives_variant origin hpolicy))

theorem Config.lossless (origin : Origin) : Lossless Config.toJson (Config.ofJson origin) := by
  refine .of_gives fun c => ?_
  refine Record.Gives.ofJson ?_ origin
  exact .seq (.map
    (Record.gives_field (by simp) (by simp) ((RetryPolicy.lossless origin).gives c.retry)) _)
    (Record.gives_field (by simp) (by simp) ((BackendConfig.lossless origin).gives c.backend))

/-! ### Stages -/

namespace Stage

theorem allToJson_eq (ss : List Stage) : allToJson ss = ss.map toJson := by
  induction ss with
  | nil => rfl
  | cons s ss ih => rw [allToJson, ih, List.map_cons]

def groupForm (branches : List Stage) : Json := .object [("stages", .array (branches.map toJson))]

theorem groupField_eq (parallel : Option (List Stage)) :
    groupField parallel = Json.fieldOf "parallel" groupForm parallel := by
  cases parallel with
  | none => rfl
  | some branches => rw [groupField, allToJson_eq, Json.fieldOf, groupForm]

theorem stepsField_eq (steps : List Step) : stepsField steps =
    Json.fieldOf "steps" (fun ss => .array (ss.map Step.toJson)) (if steps.isEmpty then none else some steps) := by
  cases steps <;> rfl

def fields (s : Stage) : List (String × Json) :=
  ("name", .string s.name) :: Json.fieldOf "agent" Agent.toJson s.agent ++ stepsField s.steps ++
    Json.fieldOf "fail_fast" .bool s.failFast ++ Json.fieldOf "parallel" groupForm s.parallel

theorem toJson_eq (s : Stage) : s.toJson = .object s.fields := by
  obtain ⟨name, agent, steps, failFast, parallel⟩ := s
  rw [toJson, groupField_eq]
  rfl

end Stage

theorem names_fieldOf_sublist {α : Type} (name : String) (f : α → Json) (o : Option α) :
    ((Json.fieldOf name f o).map Prod.fst).Sublist [name] := by
  cases o with
  | none => exact List.nil_sublist _
  | some a => exact .refl _

theorem filter_fieldOf {α : Type} (name other : String) (f : α → Json) (o : Option α) :
    (Json.fieldOf name f o).filter (·.1 == other) = if name = other then Json.fieldOf name f o else [] := by
  cases o with
  | none => simp [Json.fieldOf]
  | some a => by_cases h : name = other <;> simp [Json.fieldOf, h]

/-- A field that is left out where it has no value, among others with names of their own. -/
theorem gives_fieldOf {α β : Type} {name : String} {f : α → Json} {read : Json → Except Json.Misfit β} {o : Option α}
    {fs : List (String × Json)} (absent : β) (value : α → β) (hnodup : (fs.map Prod.fst).Nodup)
    (hfield : fs.filter (·.1 == name) = Json.fieldOf name f o) (h : ∀ a, o = some a → Gives read (f a) (value a)) :
    Record.Gives (Record.field name (some absent) read) fs (o.elim absent value) := by
  cases o with
  | none =>
    refine Record.gives_absent absent fun hmem => ?_
    obtain ⟨b, hb, rfl⟩ := List.mem_map.1 hmem
    have hfiltered : b ∈ fs.filter (·.1 == b.1) := List.mem_filter.2 ⟨hb, by simp⟩
    rw [hfield] at hfiltered
    cases hfiltered
  | some a =>
    have hmem : (name, f a) ∈ fs.filter (·.1 == name) := by
      rw [hfield]
      exact List.mem_singleton_self _
    exact Record.gives_field hnodup (List.mem_filter.1 hmem).1 (h a rfl)

namespace Stage

theorem nodup_names_fields (s : Stage) : (s.fields.map Prod.fst).Nodup := by
  have hsub : (s.fields.map Prod.fst).Sublist
      (["name"] ++ ["agent"] ++ ["steps"] ++ ["fail_fast"] ++ ["parallel"]) := by
    unfold fields
    rw [stepsField_eq, List.map_append, List.map_append, List.map_append, List.map_cons]
    exact ((((names_fieldOf_sublist _ _ _).cons_cons _).append (names_fieldOf_sublist _ _ _)).append
      (names_fieldOf_sublist _ _ _)).append (names_fieldOf_sublist _ _ _)
  exact hsub.nodup (by decide)

theorem gives_group {branches : List Stage} {read : Json → Except Json.Misfit Stage} (origin : Origin)
    (h : ∀ b ∈ branches, Gives read b.toJson b) :
    Gives (Record.ofJson origin (Record.required "stages" (Json.toList read))) (groupForm branches) branches := by
  refine Record.Gives.ofJson ?_ origin
  exact Record.gives_field (by simp) (by simp) (Json.gives_list h)

/-- What is read from the form of a stage, by a reader that reads its branches right. -/
theorem gives_fields {s : Stage} {origin : Origin} {read : Json → Except Json.Misfit Stage}
    (h : ∀ b ∈ s.branches, Gives read b.toJson b) :
    Record.Gives (mk <$> Record.required "name" Json.toText
      <*> Record.optional "agent" Agent.ofJson
      <*> Record.defaulted "steps" [] (Json.toList Step.ofJson)
      <*> Record.optional "fail_fast" Json.toBool
      <*> Record.optional "parallel" (Record.ofJson origin (Record.required "stages" (Json.toList read))))
      s.fields s := by
  have hnodup := s.nodup_names_fields
  have hname : Record.Gives (Record.required "name" Json.toText) s.fields s.name :=
    Record.gives_field hnodup (by simp [fields]) (Json.gives_text s.name)
  have hagent : Record.Gives (Record.optional "agent" Agent.ofJson) s.fields (s.agent.elim none some) := by
    refine gives_fieldOf none some hnodup ?_ fun a _ => (Agent.lossless.gives a).option ?_
    · simp [fields, stepsField_eq, filter_fieldOf]
    · cases a <;> simp [Agent.toJson]
  have hsteps : Record.Gives (Record.defaulted "steps" [] (Json.toList Step.ofJson)) s.fields
      ((if s.steps.isEmpty then none else some s.steps).elim [] id) := by
    refine gives_fieldOf [] id hnodup ?_ fun ss _ => gives_steps ss
    simp [fields, stepsField_eq, filter_fieldOf]
  have hfailFast : Record.Gives (Record.optional "fail_fast" Json.toBool) s.fields (s.failFast.elim none some) := by
    refine gives_fieldOf none some hnodup ?_ fun b _ => (Json.gives_bool b).option (by simp)
    simp [fields, stepsField_eq, filter_fieldOf]
  have hparallel : Record.Gives (Record.optional "parallel"
      (Record.ofJson origin (Record.required "stages" (Json.toList read)))) s.fields (s.parallel.elim none some) := by
    refine gives_fieldOf none some hnodup ?_ fun branches hb => (gives_group origin ?_).option (by simp [groupForm])
    · simp [fields, stepsField_eq, filter_fieldOf]
    · rwa [Stage.branches, hb] at h
  have hs := ((((hname.map mk).seq hagent).seq hsteps).seq hfailFast).seq hparallel
  have hempty : (if s.steps.isEmpty then none else some s.steps).elim [] id = s.steps := by
    cases s.steps <;> rfl
  have hoption {α : Type} (o : Option α) : o.elim none some = o := by cases o <;> rfl
  simp only [hoption, hempty] at hs
  obtain ⟨name, agent, steps, failFast, parallel⟩ := s
  exact hs

/-- The limit on nesting is never met by a value that is as deep as the limit. -/
theorem gives_within (origin : Origin) (s : Stage) (depth : Nat) (h : s.toJson.depth ≤ depth) :
    Gives (ofJsonWithin origin depth) s.toJson s := by
  induction s using Stage.induction generalizing depth with
  | h s ih =>
    obtain ⟨depth, rfl⟩ : ∃ d, depth = d + 1 := Nat.exists_eq_succ_of_ne_zero fun e => by
      rw [e, toJson_eq, Json.depth] at h
      omega
    rw [toJson_eq]
    refine Record.Gives.ofJson (gives_fields fun b hb => ih b hb depth ?_) origin
    obtain ⟨branches, hparallel, hb⟩ : ∃ branches, s.parallel = some branches ∧ b ∈ branches := by
      unfold Stage.branches at hb
      cases hp : s.parallel with
      | none => simp [hp] at hb
      | some branches => exact ⟨branches, rfl, by simpa [hp] using hb⟩
    have hitem := Json.depth_lt_of_mem_items (List.mem_map_of_mem (f := toJson) hb)
    have hgroup : (Json.array (branches.map toJson)).depth <
        (Json.object [("stages", .array (branches.map toJson))]).depth :=
      Json.depth_lt_of_mem_fields (List.mem_singleton_self _)
    have hfield : ("parallel", groupForm branches) ∈ s.fields := by simp [fields, hparallel, Json.fieldOf]
    have hstage := Json.depth_lt_of_mem_fields hfield
    rw [toJson_eq] at h
    rw [groupForm] at hstage
    omega

theorem lossless (origin : Origin) : Lossless toJson (ofJson origin) := by
  refine .of_gives fun s k hk => ?_
  rw [ofJson, hk.depth_eq]
  exact gives_within origin s _ (Nat.le_refl _) k hk

end Stage

theorem Pipeline.lossless (origin : Origin) : Lossless Pipeline.toJson (Pipeline.ofJson origin) := by
  refine .of_gives fun p => ?_
  obtain ⟨agent, stages⟩ := p
  unfold Pipeline.toJson
  rw [Stage.allToJson_eq]
  refine Record.Gives.ofJson ?_ origin
  exact .seq (.map (Record.gives_field (by simp) (by simp) (Agent.lossless.gives agent)) _)
    (Record.gives_field (by simp) (by simp) (Json.gives_list fun s _ => (Stage.lossless origin).gives s))

/-- The JSON forms of pipelines with stages of any depth, of their stages, agents, steps and parameters, of commands,
of units of work, and of configurations and their parts lose nothing. What is read from the form of a value, along its
text or after it is held, in whatever order the fields of its objects and the bindings of its maps stand, is that value;
and no two values have one form. -/
theorem forms_lossless (origin : Origin) :
    Lossless Pipeline.toJson (Pipeline.ofJson origin) ∧ Lossless Stage.toJson (Stage.ofJson origin) ∧
      Lossless Agent.toJson Agent.ofJson ∧ Lossless Step.toJson Step.ofJson ∧
      Lossless Param.toJson (Param.record.ofJson origin) ∧ Lossless Command.toJson Command.ofJson ∧
      Lossless UnitOfWork.toJson (UnitOfWork.ofJson origin) ∧
      Lossless RetryPolicy.toJson (RetryPolicy.ofJson origin) ∧
      Lossless BackendConfig.toJson (BackendConfig.ofJson origin) ∧ Lossless Config.toJson (Config.ofJson origin) :=
  ⟨Pipeline.lossless origin, Stage.lossless origin, Agent.lossless, Step.lossless, Param.lossless origin,
    Command.lossless, UnitOfWork.lossless origin, RetryPolicy.lossless origin, BackendConfig.lossless origin,
    Config.lossless origin⟩

end StageTree

import StageTree.Proofs.Json.Forms
import StageTree.Proofs.Json.Printed
import StageTree.Proofs.Pipeline.Valid

/-! Configurations that are given in part. Whichever fields a text lists, in whatever order and among whatever
fields that no section has, it is read as the defaults with just these fields changed, and the rules are kept
or broken by what comes of it. -/

namespace StageTree

open Json (Origin Record)

/-! ### Objects that hold some fields -/

namespace Json

/-- An object holds some fields, in any order and among others whose names are not among the known ones. -/
def Holds (known : List String) (fields : List (String × Json)) (j : Json) : Prop :=
  ∃ all others, j = .object all ∧ all.Perm (fields ++ others) ∧ ∀ f ∈ others, f.1 ∉ known

variable {α β : Type} {name : String} {fs gs : List (String × Json)} {known : List String} {j : Json}

theorem Record.occurrences_values {i : Nat} :
    (Record.occurrences name i fs).map Prod.snd = (fs.filter (·.1 == name)).map Prod.snd := by
  induction fs generalizing i with
  | nil => rfl
  | cons f fs ih =>
    obtain ⟨k, j⟩ := f
    by_cases h : k = name <;> simp [Record.occurrences, h, ih]

/-- A field is read where it is the only one of its name, and has its default where there is none. -/
theorem Record.read_defaulted {read : Json → Except Misfit β} {o : Option Json} {v : Option β}
    (h : (fs.filter (·.1 == name)).map Prod.snd = o.toList) (hread : Option.Rel (fun j b => read j = .ok b) o v)
    (d : β) (i : Nat) : (Record.defaulted name d read).read (.named fs) i = .ok (v.getD d) := by
  rw [← Record.occurrences_values (i := 0)] at h
  rw [Record.defaulted, Record.field]
  cases hread with
  | none =>
    have hnone : Record.occurrences name 0 fs = [] := List.map_eq_nil_iff.1 h
    simp only [hnone]
    rfl
  | @some j b hb =>
    obtain ⟨⟨n, j'⟩, hsingle, hj⟩ := List.map_eq_singleton_iff.1 h
    obtain rfl : j' = j := hj
    simp only [hsingle, hb]
    rfl

theorem Record.read_map {r : Record α} {f : α → β} {a : α} {fields : Fields} {i : Nat}
    (h : r.read fields i = .ok a) : (f <$> r).read fields i = .ok (f a) := by
  have hread : (f <$> r).read fields i = (r.read fields i).map f := rfl
  rw [hread, h]
  rfl

/-- Among the fields that an object holds each known one is as it would be alone. -/
theorem values_of_perm {others : List (String × Json)} {f : α → Json} {o : Option α} (hperm : gs.Perm (fs ++ others))
    (hothers : ∀ f ∈ others, f.1 ∉ known) (hname : name ∈ known)
    (hfs : fs.filter (·.1 == name) = fieldOf name f o) :
    (gs.filter (·.1 == name)).map Prod.snd = (o.map f).toList := by
  have hnone : others.filter (·.1 == name) = [] := by
    rw [List.filter_eq_nil_iff]
    intro f hf hn
    rw [beq_iff_eq] at hn
    exact hothers f hf (hn ▸ hname)
  have hvalues : ((gs.filter (·.1 == name)).map Prod.snd).Perm ((fieldOf name f o).map Prod.snd) := by
    simpa [hnone, hfs] using (hperm.filter (·.1 == name)).map Prod.snd
  -- one field at most is left, so there is no other order for it
  cases o with
  | none => exact hvalues.eq_nil
  | some a => exact List.perm_singleton.1 hvalues

end Json

/-! ### What is listed -/

/-- The fields of a policy that are listed. -/
structure RetryPolicy.Changes where
  maxAttempts : Option UInt64 := none
  attemptTimeoutSecs : Option UInt64 := none
  baseDelayMs : Option UInt64 := none
  maxDelayMs : Option UInt64 := none
  backoff : Option Backoff := none
  jitter : Option Jitter := none
  deriving DecidableEq, Repr

structure BackendConfig.Changes where
  hostShell : Option String := none
  containerShell : Option String := none
  dockerBinary : Option String := none
  pullPolicy : Option PullPolicy := none
  deriving DecidableEq, Repr

/-- The sections of a configuration that are listed, and what is listed in them. -/
structure Config.Changes where
  retry : Option RetryPolicy.Changes := none
  backend : Option BackendConfig.Changes := none
  deriving DecidableEq, Repr

namespace RetryPolicy

def fieldNames : List String :=
  ["max_attempts", "attempt_timeout_secs", "base_delay_ms", "max_delay_ms", "backoff_strategy", "jitter_strategy"]

namespace Changes

def fields (l : Changes) : List (String × Json) :=
  Json.fieldOf "max_attempts" Json.ofWord l.maxAttempts ++
    Json.fieldOf "attempt_timeout_secs" Json.ofWord l.attemptTimeoutSecs ++
    Json.fieldOf "base_delay_ms" Json.ofWord l.baseDelayMs ++ Json.fieldOf "max_delay_ms" Json.ofWord l.maxDelayMs ++
    Json.fieldOf "backoff_strategy" (fun b => .string b.name) l.backoff ++
    Json.fieldOf "jitter_strategy" (fun j => .string j.name) l.jitter

/-- The value that lists these fields and no other ones. -/
def form (l : Changes) : Json := .object l.fields

/-- The default policy with the listed fields in place of its own. -/
def applied (l : Changes) : RetryPolicy :=
  let d : RetryPolicy := {}
  { maxAttempts := l.maxAttempts.getD d.maxAttempts
    attemptTimeoutSecs := l.attemptTimeoutSecs.getD d.attemptTimeoutSecs
    baseDelayMs := l.baseDelayMs.getD d.baseDelayMs
    maxDelayMs := l.maxDelayMs.getD d.maxDelayMs
    backoff := l.backoff.getD d.backoff
    jitter := l.jitter.getD d.jitter }

/-- A value lists just these fields of a policy, and any other ones. -/
def Listed (l : Changes) (j : Json) : Prop := j.Holds fieldNames l.fields

end Changes

end RetryPolicy

namespace BackendConfig

def fieldNames : List String := ["host_shell", "container_shell", "docker_binary", "pull_policy"]

namespace Changes

def fields (l : Changes) : List (String × Json) :=
  Json.fieldOf "host_shell" .string l.hostShell ++ Json.fieldOf "container_shell" .string l.containerShell ++
    Json.fieldOf "docker_binary" .string l.dockerBinary ++
    Json.fieldOf "pull_policy" (fun p => .string p.name) l.pullPolicy

def form (l : Changes) : Json := .object l.fields

def applied (l : Changes) : BackendConfig :=
  let d : BackendConfig := {}
  { hostShell := l.hostShell.getD d.hostShell
    containerShell := l.containerShell.getD d.containerShell
    dockerBinary := l.dockerBinary.getD d.dockerBinary
    pullPolicy := l.pullPolicy.getD d.pullPolicy }

/-- A value lists just these fields of the programs, and any other ones. -/
def Listed (l : Changes) (j : Json) : Prop := j.Holds fieldNames l.fields

end Changes

end BackendConfig

namespace Config

namespace Changes

def fields (l : Changes) : List (String × Json) :=
  Json.fieldOf "retry" RetryPolicy.Changes.form l.retry ++ Json.fieldOf "backend" BackendConfig.Changes.form l.backend

def form (l : Changes) : Json := .object l.fields

def applied (l : Changes) : Config :=
  { retry := (l.retry.map RetryPolicy.Changes.applied).getD {}
    backend := (l.backend.map BackendConfig.Changes.applied).getD {} }

/-- A value lists just these sections with just these fields, and any other ones. -/
def Listed (l : Changes) (j : Json) : Prop :=
  ∃ retry backend, Option.Rel RetryPolicy.Changes.Listed l.retry retry ∧
    Option.Rel BackendConfig.Changes.Listed l.backend backend ∧
    j.Holds ["retry", "backend"] (Json.fieldOf "retry" id retry ++ Json.fieldOf "backend" id backend)

end Changes

def changes (c : Config) : Changes where
  retry := some {
    maxAttempts := c.retry.maxAttempts
    attemptTimeoutSecs := c.retry.attemptTimeoutSecs
    baseDelayMs := c.retry.baseDelayMs
    maxDelayMs := c.retry.maxDelayMs
    backoff := c.retry.backoff
    jitter := c.retry.jitter }
  backend := some {
    hostShell := c.backend.hostShell
    containerShell := c.backend.containerShell
    dockerBinary := c.backend.dockerBinary
    pullPolicy := c.backend.pullPolicy }

/-- The rules of a configuration in order, whether each of them is kept, and what is said where it is not. -/
def rules (c : Config) : List (Bool × String) :=
  [(1 ≤ c.retry.maxAttempts, "retry.max_attempts must be at least 1"),
    (1 ≤ c.retry.attemptTimeoutSecs, "retry.attempt_timeout_secs must be at least 1"),
    (Text.trim c.backend.hostShell ≠ "", "backend.host_shell must not be empty"),
    (Text.trim c.backend.containerShell ≠ "", "backend.container_shell must not be empty"),
    (Text.trim c.backend.dockerBinary ≠ "", "backend.docker_binary must not be empty")]

/-- What is said of the first rule that a configuration breaks. -/
def broken? (c : Config) : Option String := (c.rules.find? (!·.1)).map Prod.snd

/-- The configuration if it keeps every rule, and else what is said of the first one that it breaks. -/
def verdict (c : Config) : Except RunError Config := c.broken?.elim (.ok c) fun message => .error (.config message)

theorem find?_rule {kept : Prop} [Decidable kept] (message : String) (rest : List (Bool × String)) :
    (((decide kept, message) :: rest).find? (!·.1)).map Prod.snd =
      if kept then (rest.find? (!·.1)).map Prod.snd else some message := by
  by_cases h : kept <;> simp [h]

theorem one_le_iff {n : UInt64} : 1 ≤ n ↔ n ≠ 0 := by
  rw [UInt64.le_iff_toNat_le, ne_eq, ← UInt64.toNat_inj]
  exact Nat.one_le_iff_ne_zero

/-- The rules of a configuration, one after the other. -/
theorem broken?_eq (c : Config) : c.broken? =
    if c.retry.maxAttempts = 0 then some "retry.max_attempts must be at least 1"
    else if c.retry.attemptTimeoutSecs = 0 then some "retry.attempt_timeout_secs must be at least 1"
    else if Text.trim c.backend.hostShell = "" then some "backend.host_shell must not be empty"
    else if Text.trim c.backend.containerShell = "" then some "backend.container_shell must not be empty"
    else if Text.trim c.backend.dockerBinary = "" then some "backend.docker_binary must not be empty"
    else none := by
  have hnone : ([] : List (Bool × String)).find? (!·.1) = none := rfl
  rw [broken?, rules]
  simp only [find?_rule, hnone, one_le_iff, ite_not, Option.map_none]

theorem fault?_eq (c : Config) : c.fault? =
    if c.retry.maxAttempts = 0 then some .noAttempts
    else if c.retry.attemptTimeoutSecs = 0 then some .noTime
    else if Text.trim c.backend.hostShell = "" then some (.blankProgram "host_shell")
    else if Text.trim c.backend.containerShell = "" then some (.blankProgram "container_shell")
    else if Text.trim c.backend.dockerBinary = "" then some (.blankProgram "docker_binary")
    else none := by
  rw [fault?, RetryPolicy.fault?, BackendConfig.fault?]
  simp only [Text.allBlank_iff]
  by_cases hattempts : c.retry.maxAttempts = 0
  · rw [if_pos hattempts, if_pos hattempts]
    rfl
  by_cases htime : c.retry.attemptTimeoutSecs = 0
  · rw [if_neg hattempts, if_pos htime, if_neg hattempts, if_pos htime]
    rfl
  · rw [if_neg hattempts, if_neg htime, if_neg hattempts, if_neg htime]
    rfl

theorem message_ite {fails : Prop} [Decidable fails] {f : ConfigFault} {g : Option ConfigFault} {message : String}
    {rest : Option String} (hf : f.message = message) (hg : g.map ConfigFault.message = rest) :
    (if fails then some f else g).map ConfigFault.message = if fails then some message else rest := by
  by_cases h : fails
  · rw [if_pos h, if_pos h, Option.map_some, hf]
  · rw [if_neg h, if_neg h, hg]

/-- The fault of a configuration is the first rule that it breaks. -/
theorem fault?_message (c : Config) : c.fault?.map ConfigFault.message = c.broken? := by
  rw [broken?_eq, fault?_eq]
  exact message_ite rfl (message_ite rfl (message_ite rfl (message_ite rfl (message_ite rfl rfl))))

theorem checked_eq (c : Config) : c.checked.mapError ConfigFault.error = c.verdict := by
  rw [verdict, ← fault?_message, checked]
  cases c.fault? <;> rfl

end Config

/-! ### What is read -/

theorem toWord_ofWord (n : UInt64) : Json.toWord (.ofWord n) = .ok n := gives_word n _ (.same _)

section Sections

variable {fields all others : List (String × Json)} {j : Json}

/-- A field that stands at most once among those that an object holds is read from there, or has its default. -/
theorem read_listed {α : Type} {f : α → Json} {read : Json → Except Json.Misfit α} {known : List String} (name : String)
    (o : Option α) (hperm : all.Perm (fields ++ others)) (hothers : ∀ f ∈ others, f.1 ∉ known) (hname : name ∈ known)
    (hfield : fields.filter (·.1 == name) = Json.fieldOf name f o) (hread : ∀ a, read (f a) = .ok a) (d : α) (i : Nat) :
    (Record.defaulted name d read).read (.named all) i = .ok (o.getD d) := by
  refine Record.read_defaulted (Json.values_of_perm hperm hothers hname hfield) ?_ d i
  cases o with
  | none => exact .none
  | some a => exact .some (hread a)

theorem RetryPolicy.Changes.ofJson_eq {l : Changes} (origin : Origin) (h : l.Listed j) :
    RetryPolicy.ofJson origin j = .ok l.applied := by
  obtain ⟨all, others, rfl, hperm, hothers⟩ := h
  have hbackoff (b : Backoff) : Json.toVariant Backoff.ofName? origin (.string b.name) = .ok b := by cases b <;> rfl
  have hjitter (t : Jitter) : Json.toVariant Jitter.ofName? origin (.string t.name) = .ok t := by cases t <;> rfl
  -- the names are distinct, so that a filter for one of them leaves that field alone
  have hattempts := read_listed "max_attempts" l.maxAttempts hperm hothers (by decide)
    (by simp [fields, filter_fieldOf]) toWord_ofWord
  have htimeout := read_listed "attempt_timeout_secs" l.attemptTimeoutSecs hperm hothers (by decide)
    (by simp [fields, filter_fieldOf]) toWord_ofWord
  have hbase := read_listed "base_delay_ms" l.baseDelayMs hperm hothers (by decide)
    (by simp [fields, filter_fieldOf]) toWord_ofWord
  have hmax := read_listed "max_delay_ms" l.maxDelayMs hperm hothers (by decide)
    (by simp [fields, filter_fieldOf]) toWord_ofWord
  have hstrategy := read_listed "backoff_strategy" l.backoff hperm hothers (by decide)
    (by simp [fields, filter_fieldOf]) hbackoff
  have hchance := read_listed "jitter_strategy" l.jitter hperm hothers (by decide)
    (by simp [fields, filter_fieldOf]) hjitter
  rw [RetryPolicy.ofJson, Record.ofJson, Record.read_seq (Record.read_seq (Record.read_seq (Record.read_seq
    (Record.read_seq (Record.read_map (hattempts _ _)) (htimeout _ _)) (hbase _ _)) (hmax _ _)) (hstrategy _ _))
    (hchance _ _)]
  rfl

theorem BackendConfig.Changes.ofJson_eq {l : Changes} (origin : Origin) (h : l.Listed j) :
    BackendConfig.ofJson origin j = .ok l.applied := by
  obtain ⟨all, others, rfl, hperm, hothers⟩ := h
  have htext (s : String) : Json.toText (.string s) = .ok s := rfl
  have hpolicy (p : PullPolicy) : Json.toVariant PullPolicy.ofName? origin (.string p.name) = .ok p := by
    cases p <;> rfl
  have hhost := read_listed "host_shell" l.hostShell hperm hothers (by decide)
    (by simp [fields, filter_fieldOf]) htext
  have hcontainer := read_listed "container_shell" l.containerShell hperm hothers (by decide)
    (by simp [fields, filter_fieldOf]) htext
  have hdocker := read_listed "docker_binary" l.dockerBinary hperm hothers (by decide)
    (by simp [fields, filter_fieldOf]) htext
  have hpull := read_listed "pull_policy" l.pullPolicy hperm hothers (by decide)
    (by simp [fields, filter_fieldOf]) hpolicy
  rw [BackendConfig.ofJson, Record.ofJson, Record.read_seq (Record.read_seq (Record.read_seq
    (Record.read_map (hhost _ _)) (hcontainer _ _)) (hdocker _ _)) (hpull _ _)]
  rfl

/-- What is read of a section that an object holds, if it holds one. -/
theorem rel_read {α β : Type} {Listed : α → Json → Prop} {read : Json → Except Json.Misfit β} {applied : α → β}
    {o : Option α} {part : Option Json} (h : Option.Rel Listed o part)
    (hread : ∀ l j, Listed l j → read j = .ok (applied l)) :
    Option.Rel (fun j b => read j = .ok b) (part.map id) (o.map applied) := by
  cases h with
  | none => exact .none
  | some h => exact .some (hread _ _ h)

theorem Config.Changes.ofJson_eq {l : Changes} (origin : Origin) (h : l.Listed j) :
    Config.ofJson origin j = .ok l.applied := by
  obtain ⟨retry, backend, hretry, hbackend, all, others, rfl, hperm, hothers⟩ := h
  have hretries : (all.filter (·.1 == "retry")).map Prod.snd = (retry.map id).toList :=
    Json.values_of_perm hperm hothers (by simp) (by simp [filter_fieldOf])
  have hbackends : (all.filter (·.1 == "backend")).map Prod.snd = (backend.map id).toList :=
    Json.values_of_perm hperm hothers (by simp) (by simp [filter_fieldOf])
  have hpolicy := Record.read_defaulted hretries (rel_read hretry fun _ _ => RetryPolicy.Changes.ofJson_eq origin)
  have hprograms := Record.read_defaulted hbackends
    (rel_read hbackend fun _ _ => BackendConfig.Changes.ofJson_eq origin)
  rw [Config.ofJson, Record.ofJson, Record.read_seq (Record.read_map (hpolicy _ _)) (hprograms _ _)]
  rfl

end Sections

/-! ### Forms -/

namespace Json

theorem PrintableFields.append {fs gs : List (String × Json)} :
    PrintableFields fs → PrintableFields gs → PrintableFields (fs ++ gs)
  | .nil, hgs => hgs
  | .cons head tail, hgs => .cons head (tail.append hgs)

theorem depthFields_append (fs gs : List (String × Json)) :
    depthFields (fs ++ gs) = max (depthFields fs) (depthFields gs) := by
  induction fs with
  | nil => simp [depthFields]
  | cons f fs ih => rw [List.cons_append, depthFields, depthFields, ih, max_assoc]

/-- Fields that can be printed and none of which lies deeper than a bound. -/
structure Shallow (n : Nat) (fs : List (String × Json)) : Prop where
  printable : PrintableFields fs
  depth_le : depthFields fs ≤ n

theorem Shallow.append {n : Nat} {fs gs : List (String × Json)} (hfs : Shallow n fs) (hgs : Shallow n gs) :
    Shallow n (fs ++ gs) where
  printable := hfs.printable.append hgs.printable
  depth_le := by
    rw [depthFields_append]
    exact max_le hfs.depth_le hgs.depth_le

theorem shallow_fieldOf {α : Type} {name : String} {f : α → Json} {n : Nat} (o : Option α)
    (hprintable : ∀ a, (f a).Printable) (hdepth : ∀ a, (f a).depth ≤ n) : Shallow n (fieldOf name f o) := by
  cases o with
  | none => exact ⟨.nil, Nat.zero_le n⟩
  | some a => exact ⟨.cons (hprintable a) .nil, by simpa [fieldOf, depthFields] using hdepth a⟩

theorem shallow_words {name : String} (o : Option UInt64) : Shallow 1 (fieldOf name ofWord o) :=
  shallow_fieldOf o (fun n => .whole n.toNat_lt) fun _ => Nat.le_refl 1

theorem shallow_strings {α : Type} {name : String} {f : α → String} (o : Option α) :
    Shallow 1 (fieldOf name (fun a => .string (f a)) o) :=
  shallow_fieldOf o (fun a => .string (f a)) fun _ => Nat.le_refl 1

theorem Shallow.depth_object_le {n : Nat} {fs : List (String × Json)} (h : Shallow n fs) :
    (Json.object fs).depth ≤ n + 1 := by
  rw [depth]
  exact Nat.succ_le_succ h.depth_le

theorem holds_object {known : List String} {fs : List (String × Json)} : (Json.object fs).Holds known fs :=
  ⟨fs, [], rfl, by simp, by simp⟩

end Json

namespace RetryPolicy.Changes

theorem shallow_fields (l : Changes) : Json.Shallow 1 l.fields :=
  ((((Json.shallow_words l.maxAttempts).append (Json.shallow_words l.attemptTimeoutSecs)).append
    (Json.shallow_words l.baseDelayMs)).append (Json.shallow_words l.maxDelayMs)).append
    (Json.shallow_strings l.backoff) |>.append (Json.shallow_strings l.jitter)

end RetryPolicy.Changes

namespace BackendConfig.Changes

theorem shallow_fields (l : Changes) : Json.Shallow 1 l.fields :=
  (((Json.shallow_strings l.hostShell).append (Json.shallow_strings l.containerShell)).append
    (Json.shallow_strings l.dockerBinary)).append (Json.shallow_strings l.pullPolicy)

end BackendConfig.Changes

namespace Config

namespace Changes

theorem shallow_fields (l : Changes) : Json.Shallow 2 l.fields :=
  (Json.shallow_fieldOf l.retry (fun r => .object r.shallow_fields.printable)
    fun r => r.shallow_fields.depth_object_le).append
    (Json.shallow_fieldOf l.backend (fun b => .object b.shallow_fields.printable)
      fun b => b.shallow_fields.depth_object_le)

theorem listed_form (l : Changes) : l.Listed l.form := by
  refine ⟨l.retry.map RetryPolicy.Changes.form, l.backend.map BackendConfig.Changes.form, ?_, ?_, ?_⟩
  · cases l.retry with
    | none => exact .none
    | some r => exact .some Json.holds_object
  · cases l.backend with
    | none => exact .none
    | some b => exact .some Json.holds_object
  · have hmap {α : Type} (name : String) (f : α → Json) (o : Option α) :
        Json.fieldOf name id (o.map f) = Json.fieldOf name f o := by
      cases o <;> rfl
    rw [hmap, hmap]
    exact Json.holds_object

/-- The value that lists some fields is read from its text. -/
theorem readLoosely?_form (l : Changes) :
    Json.readLoosely? Json.depthLimit l.form.compact.toList = some l.form := by
  have hdepth : l.form.depth ≤ 3 := l.shallow_fields.depth_object_le
  exact (Json.Printable.object l.shallow_fields.printable).readLoosely?_compact (hdepth.trans (by decide))

end Changes

theorem form_changes (c : Config) : c.changes.form = c.toJson := rfl

theorem applied_changes (c : Config) : c.changes.applied = c := rfl

/-! ### What a text gives -/

/-- A text that lists some fields gives the verdict on the defaults with these fields changed. -/
theorem verdict_of_listed {l : Changes} {text : String} {j : Json}
    (hread : Json.readLoosely? Json.depthLimit text.toList = some j) (h : l.Listed j) :
    (ofText text).mapError ConfigFault.error = l.applied.verdict := by
  rw [ofText, Json.decode, hread, ← checked_eq]
  simp only [Changes.ofJson_eq .text h]

/-- Whatever fields of a configuration a text lists with whatever values, in any order and among any others, what it
gives is the verdict on the default configuration with just these fields replaced: this configuration where there is at
least one attempt, at least a second for each and no program with a blank name, and else the first of these rules that
it breaks. The compact texts of all values that list them are read so; and with every field listed the text of a
configuration gives the configuration back, or the rule that it breaks. -/
theorem ofText_listed :
    (∀ (l : Changes) (text : String) (j : Json), Json.readLoosely? Json.depthLimit text.toList = some j →
      l.Listed j → (ofText text).mapError ConfigFault.error = l.applied.verdict) ∧
    (∀ (l : Changes) (j : Json), j.Printable → j.depth ≤ Json.depthLimit → l.Listed j →
      (ofText j.compact).mapError ConfigFault.error = l.applied.verdict) ∧
    (∀ l : Changes, (ofText l.form.compact).mapError ConfigFault.error = l.applied.verdict) ∧
    ∀ c : Config, (ofText c.toJson.compact).mapError ConfigFault.error = c.verdict := by
  have hform (l : Changes) : (ofText l.form.compact).mapError ConfigFault.error = l.applied.verdict :=
    verdict_of_listed l.readLoosely?_form l.listed_form
  refine ⟨fun l text j => verdict_of_listed, fun l j hprintable hdepth h => ?_, hform, fun c => ?_⟩
  · exact verdict_of_listed (hprintable.readLoosely?_compact hdepth) h
  · rw [← form_changes, hform, applied_changes]

/-- Neither section needs the other one, nor its own place, and the policy is judged before the programs. -/
theorem ofText_listed_partly :
    (ofText "\x7b\"zone\": 7, \"retry\": \x7b\"labels\": [null], \"max_attempts\": 5\x7d\x7d").mapError
      ConfigFault.error = .ok { retry := { maxAttempts := 5 } } ∧
    (ofText "\x7b\"backend\": \x7b\"host_shell\": \" \"\x7d, \"retry\": \x7b\"max_attempts\": 0\x7d\x7d").mapError
      ConfigFault.error = .error (.config "retry.max_attempts must be at least 1") := by
  constructor
  · let retry : Json := .object [("labels", .array [.null]), ("max_attempts", .nat 5)]
    have hretry : RetryPolicy.Changes.Listed { maxAttempts := some 5 } retry :=
      ⟨_, [("labels", .array [.null])], rfl, .swap _ _ _, by decide⟩
    refine (ofText_listed.1 { retry := some { maxAttempts := some 5 } } _
      (.object [("zone", .nat 7), ("retry", retry)]) (by decide +kernel) ⟨some retry, none, .some hretry, .none, ?_⟩).trans
      (by decide)
    exact ⟨_, [("zone", .nat 7)], rfl, .swap _ _ _, by decide⟩
  · let retry : Json := .object [("max_attempts", .nat 0)]
    let backend : Json := .object [("host_shell", .string " ")]
    refine (ofText_listed.1 { retry := some { maxAttempts := some 0 }, backend := some { hostShell := some " " } } _
      (.object [("backend", backend), ("retry", retry)]) (by decide +kernel)
      ⟨some retry, some backend, .some Json.holds_object, .some Json.holds_object, ?_⟩).trans (by decide)
    exact ⟨_, [], rfl, .swap _ _ _, by decide⟩

end Config

end StageTree

import StageTree.Proofs.Run.Moves

/-! The ledger of a run, and the outputs of its units, as what is known of the stages of its tree: the
stage at a path has a record once it has ended, and outputs once its unit has returned some. -/

namespace StageTree

variable {W U : Type}

def Entry.outputs? (e : Entry) : Option (List String × List String) :=
  match e.what with
  | .returned (.ok lines) => some (e.path, lines)
  | _ => none

namespace Mark

def record? : Mark → Option StageRecord
  | record r => some r
  | _ => none

def outputs? : Mark → Option (List String × List String)
  | outputs path lines => some (path, lines)
  | _ => none

end Mark

theorem Entry.record?_eq (e : Entry) : e.record? = e.mark?.bind Mark.record? := by
  obtain ⟨ms, path, what⟩ := e
  cases what with
  | returned r =>
    cases r with
    | ok lines => rfl
    | error e => by_cases h : e.isCancellation <;> simp [record?, mark?, h, Mark.record?]
  | _ => rfl

theorem Entry.outputs?_eq (e : Entry) : e.outputs? = e.mark?.bind Mark.outputs? := by
  obtain ⟨ms, path, what⟩ := e
  cases what with
  | returned r =>
    cases r with
    | ok lines => rfl
    | error e => by_cases h : e.isCancellation <;> simp [outputs?, mark?, h, Mark.outputs?]
  | _ => rfl

namespace Activity

def record? (path : List String) (a : Activity U) : Option StageRecord :=
  match a.phase with
  | .ended ms _ error => some (.finish path (.ofMillis a.since) (.ofMillis ms) error)
  | _ => none

def status? (a : Activity U) : Option Status := if a.hasEnded then some (.ofError a.error?) else none

theorem record?_of_phase (path : List String) {a : Activity U} {ms : Nat} {lines : Option (List String)}
    {error : Option RunError} (h : a.phase = .ended ms lines error) :
    a.record? path = some (.finish path (.ofMillis a.since) (.ofMillis ms) error) := by
  rw [record?, h]

theorem record?_eq_some {path : List String} {a : Activity U} {rec : StageRecord}
    (h : a.record? path = some rec) : rec.path = path ∧ rec.status = .ofError a.error? ∧ a.hasEnded = true := by
  rw [record?] at h
  split at h
  · rename_i hp
    obtain rfl := Option.some.inj h
    exact ⟨rfl, by rw [error?_of_phase hp]; rfl, hasEnded_of_phase hp⟩
  · cases h

theorem record?_eq_none {path : List String} {a : Activity U} (h : a.hasEnded = false) :
    a.record? path = none := by
  cases hr : a.record? path with
  | none => rfl
  | some rec =>
    rw [(record?_eq_some hr).2.2] at h
    cases h

theorem lines_eq_none {a : Activity U} (h : a.hasEnded = false) : a.lines = none := by
  rw [Activity.lines]
  split
  · rename_i hp
    rw [hasEnded_of_phase hp] at h
    cases h
  · rfl

/-- The marks of a unit hold no record. -/
theorem unitMark_records (path : List String) (ms : Nat) (lines : Option (List String))
    (error : Option RunError) : (unitMark path ms lines error).filterMap Mark.record? = [] := by
  match lines, error with
  | some lines, _ => rfl
  | none, none => rfl
  | none, some e => by_cases hc : e.isCancellation <;> simp [unitMark, hc, Mark.record?]

theorem held_records (path : List String) (a : Activity U) :
    (a.held path).filterMap Mark.record? = (a.record? path).toList := by
  cases he : a.hasEnded with
  | false => rw [held_eq_nil he, record?_eq_none he]; rfl
  | true =>
    obtain ⟨ms, lines, error, hp⟩ := hasEnded_iff.1 he
    rw [held_of_phase hp, record?_of_phase path hp, List.filterMap_append]
    split
    · rfl
    · rw [unitMark_records]; rfl

/-- The outputs of a coherent stage are those of its unit. -/
theorem Coherent.held_outputs {a : Activity U} (h : a.Coherent) (path : List String) :
    (a.held path).filterMap Mark.outputs? = (a.lines.map fun lines => (path, lines)).toList := by
  cases he : a.hasEnded with
  | false => rw [held_eq_nil he, lines_eq_none he]; rfl
  | true =>
    obtain ⟨ms, lines, error, hp⟩ := hasEnded_iff.1 he
    have hfits := h.fits
    rw [hp] at hfits
    rw [held_of_phase hp, lines_of_phase hp, List.filterMap_append]
    cases hfits with
    | returned hs ms lines =>
      -- a stage with outputs is past a group without an error
      have hf : (a.fan.bind fun f => f.join.error) = none := by
        cases hfan : a.fan with
        | none => rfl
        | some f =>
          cases he : f.join.error with
          | none => simp [he]
          | some e => rcases h.error f e hfan he with e' | ⟨_, e'⟩ <;> simp [hp] at e'
      rw [hf]
      rfl
    | idle hs ms => split <;> rfl
    | failed ms e => by_cases hc : e.isCancellation <;> split <;> simp [unitMark, hc, Mark.outputs?]

end Activity

/-- A stage that is found is found among more stages, if they stand after those around it. -/
theorem Stage.find?_append {stages more : List Stage} {name : String} {path : List String} {s : Stage}
    (h : find? stages (name :: path) = some s) : find? (stages ++ more) (name :: path) = some s := by
  have hnamed {t : Stage} (ht : named? name stages = some t) : named? name (stages ++ more) = some t := by
    rw [named?] at ht
    rw [named?, List.find?_append, ht, Option.some_or]
  cases path with
  | nil => exact hnamed h
  | cons c path =>
    rw [find?] at h ⊢
    · obtain ⟨t, ht, h⟩ := Option.bind_eq_some_iff.1 h
      rw [hnamed ht]
      exact h
    · simp
    · simp

/-- The stage of a node is found in the stage tree at the path of the node. -/
theorem Activity.find?_eq {as : List (Activity U)} (hn : (as.map (·.stage.name)).Nodup)
    (hs : ∀ a ∈ as, a.Sound) {name : String} {rest : List String} {n : Activity U}
    (h : (named? name as).bind (at? rest) = some n) :
    Stage.find? (as.map stage) (name :: rest) = some n.stage := by
  induction rest generalizing name as with
  | nil =>
    obtain ⟨a, ha, hr⟩ := Option.bind_eq_some_iff.1 h
    obtain rfl := Option.some.inj hr
    rw [Stage.find?, Stage.named?, List.find?_map]
    exact congrArg (Option.map stage) ha
  | cons c rest ih =>
    obtain ⟨a, ha, hr⟩ := Option.bind_eq_some_iff.1 h
    have hm := ((named?_eq_some hn).1 ha).1
    have hstage : Stage.named? name (as.map stage) = some a.stage := by
      rw [Stage.named?, List.find?_map]
      exact congrArg (Option.map stage) ha
    obtain ⟨b, hb, _⟩ := Option.bind_eq_some_iff.1 hr
    have hbranches := (hs a hm).here.stages_of_mem (List.mem_of_find?_eq_some hb)
    have hih := ih (hs a hm).here.names (fun b hb => (hs a hm).branch hb) hr
    rw [← hbranches] at hih
    rw [Stage.find?, hstage]
    · exact hih
    · simp

/-- Members picked out of a list whose members have distinct keys have distinct keys. -/
theorem nodup_filterMap_key {α β κ : Type} {l : List α} {key : α → κ} {pick : α → Option β} {key' : β → κ}
    (hl : (l.map key).Nodup) (h : ∀ a b, pick a = some b → key' b = key a) :
    ((l.filterMap pick).map key').Nodup := by
  have hsub : ((l.filterMap pick).map key').Sublist (l.map key) := by
    clear hl
    induction l with
    | nil => exact List.Sublist.refl _
    | cons a l ih =>
      cases hp : pick a with
      | none => simpa [hp] using ih.cons _
      | some b => simpa [hp, h a b hp] using ih.cons_cons (key a)
  exact hl.sublist hsub

namespace Run

variable {s : Setting W U} {r : Run W U} {p : Pipeline}

def outputs (r : Run W U) : List (List String × List String) := r.trace.filterMap Entry.outputs?

def outputsAt? (r : Run W U) (path : List String) : Option (List String) :=
  (r.outputs.find? (·.1 == path)).map Prod.snd

def statusAt? (r : Run W U) (path : List String) : Option Status :=
  (recordAt? r.records path).map StageRecord.status

/-- The stage at a path, with all that is known of it, once the one at its top is at work. -/
def at? (r : Run W U) : List String → Option (Activity U)
  | [] => none
  | name :: path => (Activity.named? name (r.past ++ r.present.toList)).bind (Activity.at? path)

/-- Below a stage of a run the stages are those of its tree. -/
theorem at?_append {path : List String} (hne : path ≠ []) (rest : List String) :
    r.at? (path ++ rest) = (r.at? path).bind (Activity.at? rest) := by
  cases path with
  | nil => exact absurd rfl hne
  | cons name path =>
    rw [List.cons_append, at?, at?, Option.bind_assoc]
    exact congrArg _ (funext fun a => a.at?_append path rest)

theorem ne_nil_of_at? {path : List String} {n : Activity U} (hn : r.at? path = some n) : path ≠ [] := by
  rintro rfl
  cases hn

namespace Sound

variable (h : r.Sound p) (hp : p.Proper)

include h in
theorem sound_of_mem {a : Activity U} (ha : a ∈ r.past ++ r.present.toList) : a.Sound := by
  rcases List.mem_append.1 ha with ha | ha
  · exact (h.past a ha).1
  · exact (h.present a (Option.mem_toList.1 ha)).1

include h hp in
theorem names : ((r.past ++ r.present.toList).map (·.stage.name)).Nodup := by
  have e : (r.past ++ r.present.toList).map (·.stage.name) ++ r.future.map Stage.name =
      p.stages.map Stage.name := by
    rw [← h.stages]
    cases r.present <;> simp
  exact (List.nodup_append.1 (e ▸ hp.names)).1

include h hp in
/-- The nodes of a run are those at the end of its paths. -/
theorem mem_nodes {path : List String} {n : Activity U} : (path, n) ∈ r.nodes ↔ r.at? path = some n := by
  rw [nodes, Activity.mem_nodesBelow_at? (h.names hp) fun a ha => (h.sound_of_mem ha).distinct]
  cases path with
  | nil => simp [at?]
  | cons name path => simp [at?]

include h hp in
theorem nodes_nodup : (r.nodes.map Prod.fst).Nodup :=
  Activity.nodesBelow_paths_nodup (h.names hp)
    (fun _ ha => Activity.nodes_paths_nodup (h.sound_of_mem ha).distinct) []

include h hp in
/-- The stage of a node is the one of the pipeline at the path of the node. -/
theorem find?_eq {path : List String} {n : Activity U} (hn : r.at? path = some n) :
    p.find? path = some n.stage := by
  cases path with
  | nil => cases hn
  | cons name rest =>
    have hfind := Activity.find?_eq (h.names hp) (fun a ha => h.sound_of_mem ha) hn
    have hstages : p.stages = (r.past ++ r.present.toList).map Activity.stage ++ r.future := by
      rw [← h.stages]
      cases r.present <;> simp
    rw [Pipeline.find?, hstages]
    exact Stage.find?_append hfind

include h in
/-- Every tree of a run is sound. -/
theorem sound_of_mem_nodes {n : List String × Activity U} (hn : n ∈ r.nodes) : n.2.Sound := by
  obtain ⟨a, ha, hn⟩ := Activity.mem_nodesBelow.1 hn
  exact (h.sound_of_mem ha).of_mem_nodes hn

include h hp in
theorem sound_of_at? {path : List String} {n : Activity U} (hn : r.at? path = some n) : n.Sound :=
  h.sound_of_mem_nodes ((h.mem_nodes hp).2 hn)

include h hp in
/-- The branches of a stage are found below its path. -/
theorem at?_branch {path : List String} {n b : Activity U} (hn : r.at? path = some n) (hb : b ∈ n.branches) :
    r.at? (path ++ [b.stage.name]) = some b := by
  rw [at?_append (ne_nil_of_at? hn), hn, Option.bind_some,
    Activity.at?_cons_of_mem (h.sound_of_at? hp hn).here.names hb]
  rfl

end Sound

/-- The records of a run are those of its stages that have ended, in another order. -/
theorem Marked.records_perm (h : r.Marked) : r.records.Perm (r.nodes.filterMap fun n => n.2.record? n.1) := by
  have e : r.records = (r.trace.filterMap Entry.mark?).filterMap Mark.record? := by
    rw [records, List.filterMap_filterMap]
    exact List.filterMap_congr fun e _ => e.record?_eq
  rw [e]
  refine (h.filterMap Mark.record?).trans (List.Perm.of_eq ?_)
  rw [marks, List.filterMap_flatMap, List.filterMap_eq_flatMap_toList]
  exact List.flatMap_congr fun n _ => Activity.held_records n.1 n.2

theorem Marked.outputs_perm (h : r.Marked) (hs : r.Sound p) :
    r.outputs.Perm (r.nodes.filterMap fun n => n.2.lines.map fun lines => (n.1, lines)) := by
  have e : r.outputs = (r.trace.filterMap Entry.mark?).filterMap Mark.outputs? := by
    rw [outputs, List.filterMap_filterMap]
    exact List.filterMap_congr fun e _ => e.outputs?_eq
  rw [e]
  refine (h.filterMap Mark.outputs?).trans (List.Perm.of_eq ?_)
  rw [marks, List.filterMap_flatMap, List.filterMap_eq_flatMap_toList]
  exact List.flatMap_congr fun n hn => (hs.sound_of_mem_nodes hn).here.held_outputs n.1

/-- No stage has two records. -/
theorem Marked.records_nodup (h : r.Marked) (hs : r.Sound p) (hp : p.Proper) :
    (r.records.map StageRecord.path).Nodup :=
  ((h.records_perm.map _).nodup_iff).2
    (nodup_filterMap_key (hs.nodes_nodup hp) fun _ _ hn => (Activity.record?_eq_some hn).1)

/-- The records are those of the stages that have ended. -/
theorem Marked.mem_records (h : r.Marked) (hs : r.Sound p) (hp : p.Proper) {rec : StageRecord} :
    rec ∈ r.records ↔ ∃ n, r.at? rec.path = some n ∧ n.record? rec.path = some rec := by
  rw [h.records_perm.mem_iff, List.mem_filterMap]
  constructor
  · rintro ⟨⟨path, n⟩, hn, hrec⟩
    obtain rfl : rec.path = path := (Activity.record?_eq_some hrec).1
    exact ⟨n, (hs.mem_nodes hp).1 hn, hrec⟩
  · rintro ⟨n, hn, hrec⟩
    exact ⟨(rec.path, n), (hs.mem_nodes hp).2 hn, hrec⟩

theorem Marked.mem_of_record? (h : r.Marked) (hs : r.Sound p) (hp : p.Proper) {path : List String}
    {n : Activity U} {rec : StageRecord} (hn : r.at? path = some n) (hrec : n.record? path = some rec) :
    rec ∈ r.records := by
  obtain rfl := (Activity.record?_eq_some hrec).1
  exact (h.mem_records hs hp).2 ⟨n, hn, hrec⟩

/-- The record at a path is that of the stage there. -/
theorem Marked.recordAt?_eq (h : r.Marked) (hs : r.Sound p) (hp : p.Proper) (path : List String) :
    recordAt? r.records path = (r.at? path).bind (Activity.record? path) := by
  refine Option.ext fun rec => ?_
  rw [recordAt?, find?_key_eq_some (h.records_nodup hs hp), h.mem_records hs hp,
    Option.bind_eq_some_iff]
  constructor
  · rintro ⟨⟨n, hn, hrec⟩, rfl⟩
    exact ⟨n, hn, hrec⟩
  · rintro ⟨n, hn, hrec⟩
    obtain rfl := (Activity.record?_eq_some hrec).1
    exact ⟨⟨n, hn, hrec⟩, rfl⟩

theorem Marked.outputsAt?_eq (h : r.Marked) (hs : r.Sound p) (hp : p.Proper) (path : List String) :
    r.outputsAt? path = (r.at? path).bind Activity.lines := by
  have hnodup : (r.outputs.map Prod.fst).Nodup := by
    refine (((h.outputs_perm hs).map _).nodup_iff).2
      (nodup_filterMap_key (hs.nodes_nodup hp) fun n o ho => ?_)
    obtain ⟨lines, _, rfl⟩ := Option.map_eq_some_iff.1 ho
    rfl
  refine Option.ext fun lines => ?_
  rw [outputsAt?, Option.map_eq_some_iff, Option.bind_eq_some_iff]
  constructor
  · rintro ⟨⟨path', lines'⟩, ho, rfl⟩
    obtain ⟨hm, rfl⟩ := (find?_key_eq_some hnodup).1 ho
    obtain ⟨n, hn, e⟩ := List.mem_filterMap.1 ((h.outputs_perm hs).mem_iff.1 hm)
    obtain ⟨lines, hl, e⟩ := Option.map_eq_some_iff.1 e
    obtain ⟨rfl, rfl⟩ := Prod.mk.inj e
    exact ⟨n.2, (hs.mem_nodes hp).1 hn, hl⟩
  · rintro ⟨n, hn, hl⟩
    refine ⟨(path, lines), (find?_key_eq_some hnodup).2 ⟨?_, rfl⟩, rfl⟩
    refine (h.outputs_perm hs).mem_iff.2 (List.mem_filterMap.2 ⟨(path, n), (hs.mem_nodes hp).2 hn, ?_⟩)
    rw [hl]
    rfl

theorem Marked.statusAt?_eq (h : r.Marked) (hs : r.Sound p) (hp : p.Proper) (path : List String) :
    r.statusAt? path = (r.at? path).bind Activity.status? := by
  rw [statusAt?, h.recordAt?_eq hs hp]
  cases r.at? path with
  | none => rfl
  | some a =>
    rw [Option.bind_some, Option.bind_some, Activity.status?]
    cases he : a.hasEnded with
    | false => rw [Activity.record?_eq_none he]; rfl
    | true =>
      obtain ⟨ms, lines, error, hph⟩ := Activity.hasEnded_iff.1 he
      rw [Activity.record?_of_phase path hph, Activity.error?_of_phase hph]
      rfl

end Run

end StageTree

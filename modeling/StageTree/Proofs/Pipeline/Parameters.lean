import StageTree.Backend.Handler
import StageTree.Proofs.Bindings
import StageTree.Proofs.Pipeline.Paths
import StageTree.Proofs.Run.InTurn
import StageTree.Proofs.Source.Printed

/-! How the parameters of steps reach their handlers. The command of a step loses a parameter exactly if a key is
given twice, and then it holds the value given last. Validation turns such steps away at every depth, so a handler
is handed the parameters as they are written. -/

namespace StageTree

open Source (Layout Lexeme)

/-- That a map holds each of some parameters, and nothing else. -/
def Bindings.Holds (m : Bindings) (params : List Param) : Prop :=
  m.entries.Perm (params.map fun p => (p.key, p.value))

namespace Step

/-- A step whose command has as many parameters as the step, and each with its value. -/
def Kept : Step → Prop
  | single _ _ => True
  | multi command params => ∃ m, (multi command params).toCommand = .invoke command m ∧
      m.entries.length = params.length ∧ ∀ p ∈ params, m.get? p.key = some p.value

/-- A step that gives a key a second time, as no key was given before, and whose command has the last of the values
that are given for it. -/
structure Loses (step : Step) (key : String) : Prop where
  second : ∃ before p after, step.params = before ++ p :: after ∧ p.key = key ∧ key ∈ before.map Param.key ∧
    (before.map Param.key).Nodup
  last : ∃ command params m before p after, step = .multi command params ∧ step.toCommand = .invoke command m ∧
    params = before ++ p :: after ∧ p.key = key ∧ key ∉ after.map Param.key ∧ m.get? key = some p.value

variable {step : Step} {params : List Param}

def pairs (params : List Param) : List (String × String) := params.map fun p => (p.key, p.value)

theorem fst_pairs (params : List Param) : (pairs params).map Prod.fst = params.map Param.key := by
  rw [pairs, List.map_map]
  rfl

theorem holds_ofList (h : (params.map Param.key).Nodup) : (Bindings.ofList (pairs params)).Holds params :=
  Bindings.entries_ofList_perm (by rwa [fst_pairs])

theorem repeatedKey?_eq_none_iff_kept : step.repeatedKey? = none ↔ step.Kept := by
  rw [repeatedKey?_eq_none]
  cases step with
  | single command value => exact iff_of_true List.nodup_nil trivial
  | multi command params =>
    constructor
    · intro h
      have hholds := holds_ofList h
      refine ⟨_, rfl, hholds.length_eq.trans (List.length_map _), fun p hp => ?_⟩
      exact Bindings.get?_eq_some_iff.2 (hholds.mem_iff.2 (List.mem_map_of_mem hp))
    · rintro ⟨m, hm, hlength, _⟩
      obtain rfl : Bindings.ofList (pairs params) = m := (Command.invoke.inj hm).2
      show (params.map Param.key).Nodup
      rw [← fst_pairs, ← Bindings.length_entries_ofList, hlength, pairs, List.length_map]

/-- Of the parameters with a key the command has the last. -/
theorem exists_last {key : String} (h : key ∈ params.map Param.key) :
    ∃ before p after, params = before ++ p :: after ∧ p.key = key ∧ key ∉ after.map Param.key ∧
      (Bindings.ofList (pairs params)).get? key = some p.value := by
  have hbound : ((Bindings.ofList (pairs params)).get? key).isSome = true := by
    rwa [Bindings.isSome_get?_ofList, fst_pairs]
  obtain ⟨value, hvalue⟩ := Option.isSome_iff_exists.1 hbound
  obtain ⟨l, l', hl, hlast⟩ := Bindings.get?_ofList_eq_some.1 hvalue
  obtain ⟨before, rest, rfl, rfl, hrest⟩ := List.map_eq_append_iff.1 hl
  obtain ⟨p, after, rfl, hp, rfl⟩ := List.map_eq_cons_iff.1 hrest
  obtain ⟨rfl, rfl⟩ := Prod.mk.inj hp
  rw [← pairs, fst_pairs] at hlast
  exact ⟨before, p, after, rfl, rfl, hlast, hvalue⟩

/-- A step is told of exactly if its command loses something, and what it is told of is what it loses. -/
theorem repeatedKey?_eq_some_iff_loses {key : String} : step.repeatedKey? = some key ↔ step.Loses key := by
  rw [repeatedKey?_eq_some]
  constructor
  · rintro ⟨before, after, hkeys, hnodup, hmem⟩
    obtain ⟨front, rest, hparams, rfl, hrest⟩ := List.map_eq_append_iff.1 hkeys
    obtain ⟨p, back, rfl, hp, rfl⟩ := List.map_eq_cons_iff.1 hrest
    refine ⟨⟨front, p, back, hparams, hp, hmem, hnodup⟩, ?_⟩
    cases step with
    | single command value => simp [params] at hparams
    | multi command params =>
      have hkey : key ∈ params.map Param.key := by
        rw [show params = front ++ p :: back from hparams]
        simp [hp]
      obtain ⟨before, q, after, hsplit, hq, hlast, hvalue⟩ := exists_last hkey
      exact ⟨command, params, _, before, q, after, rfl, rfl, hsplit, hq, hlast, hvalue⟩
  · intro h
    obtain ⟨before, p, after, hparams, rfl, hmem, hnodup⟩ := h.second
    exact ⟨before.map Param.key, after.map Param.key, by rw [hparams, List.map_append, List.map_cons], hnodup, hmem⟩

end Step

/-! ### Pipelines that are let through -/

namespace Stage

variable {s : Stage} {t : Step} {path : List String}

theorem infix_clause (keyword : String) (content : List Lexeme) : content <:+: Source.clause keyword content :=
  ⟨[.word keyword, .openBrace], [.closeBrace], by simp [Source.clause]⟩

theorem infix_stepLexemes (s : Stage) : stepLexemes s.steps <:+: s.lexemes := by
  obtain ⟨name, agent, steps, failFast, parallel⟩ := s
  exact ⟨.word "stage" :: .openParen :: .text name :: .closeParen :: .openBrace :: agent.elim [] Agent.lexemes,
    failFast.elim [] failFastLexemes ++ (groupLexemes parallel ++ [.closeBrace]), by simp [lexemes]⟩

theorem infix_groupLexemes (s : Stage) : groupLexemes s.parallel <:+: s.lexemes := by
  obtain ⟨name, agent, steps, failFast, parallel⟩ := s
  exact ⟨.word "stage" :: .openParen :: .text name :: .closeParen :: .openBrace ::
    (agent.elim [] Agent.lexemes ++ (stepLexemes steps ++ failFast.elim [] failFastLexemes)), [.closeBrace],
    by simp [lexemes]⟩

theorem infix_of_mem_steps (h : t ∈ s.steps) : t.lexemes <:+: s.lexemes := by
  have hsteps : stepLexemes s.steps = Source.clause "steps" (s.steps.flatMap Step.lexemes) := by
    obtain ⟨u, ts, hts⟩ := List.exists_cons_of_ne_nil (List.ne_nil_of_mem h)
    rw [hts]
    rfl
  have hmem : t.lexemes <:+: s.steps.flatMap Step.lexemes := List.infix_of_mem_flatten (List.mem_map_of_mem h)
  exact (hmem.trans (hsteps ▸ infix_clause "steps" _)).trans s.infix_stepLexemes

theorem infix_of_mem_branches {b : Stage} (h : b ∈ s.branches) : b.lexemes <:+: s.lexemes := by
  cases hp : s.parallel with
  | none => simp [branches, hp] at h
  | some stages =>
    rw [branches_of_parallel hp] at h
    have hmem : b.lexemes <:+: allLexemes stages := by
      rw [allLexemes_eq]
      exact List.infix_of_mem_flatten (List.mem_map_of_mem h)
    have hgroup : groupLexemes (some stages) <:+: s.lexemes := hp ▸ s.infix_groupLexemes
    exact (hmem.trans (infix_clause "parallel" _)).trans hgroup

/-- What is written of a stage stands in what is written of each stage around it. -/
theorem infix_of_mem_preorder {above : List String} {r : Stage} (h : (path, s) ∈ r.preorder above) :
    s.lexemes <:+: r.lexemes := by
  induction r using Stage.induction generalizing above with
  | h r ih =>
    rw [preorder_eq, List.mem_cons, mem_preorderAll] at h
    rcases h with h | ⟨b, hb, h⟩
    · obtain rfl := (Prod.mk.inj h).2
      exact List.infix_rfl
    · exact (ih b hb h).trans (infix_of_mem_branches hb)

end Stage

namespace Pipeline

variable {p : Pipeline} {path : List String} {s : Stage}

theorem infix_of_mem_preorder (h : (path, s) ∈ p.preorder) : s.lexemes <:+: p.lexemes := by
  obtain ⟨r, hr, h⟩ := Stage.mem_preorderAll.1 h
  have hall : r.lexemes <:+: Stage.allLexemes p.stages := by
    rw [Stage.allLexemes_eq]
    exact List.infix_of_mem_flatten (List.mem_map_of_mem hr)
  have hbody : Stage.allLexemes p.stages <:+: p.agent.lexemes ++ Source.clause "stages" (Stage.allLexemes p.stages) :=
    (Stage.infix_clause "stages" _).trans (List.suffix_append _ _).isInfix
  exact (Stage.infix_of_mem_preorder h).trans (hall.trans (hbody.trans (Stage.infix_clause "pipeline" _)))

theorem Valid.fine_of_mem_preorder (hp : p.Valid) (h : (path, s) ∈ p.preorder) : s.Fine := by
  obtain ⟨r, hr, h⟩ := Stage.mem_preorderAll.1 h
  exact (hp.members r hr).of_mem_preorder h

/-- A pipeline whose parameters reach the handlers as they are written. -/
structure HandsOver (p : Pipeline) : Prop where
  /-- Whatever handler renders the command of a step, it is handed the parameters of the step. -/
  received : ∀ path s, (path, s) ∈ p.preorder → ∀ command params, .multi command params ∈ s.steps →
    ∃ m : Bindings, m.Holds params ∧ ∀ (handlers : Handlers) (h : Handler), handlers.find? command = some h →
      handlers.render (Step.multi command params).toCommand = h.render m
  /-- The steps are those of the source, each with its parameters one after the other. -/
  written : ∀ source, Source.parse source = .ok p → ∃ L : Layout, L.text = source ∧ L.lexemes = p.lexemes ∧
    ∀ path s, (path, s) ∈ p.preorder → ∀ t ∈ s.steps, t.lexemes <:+: L.lexemes
  /-- What a run submits are the commands of the steps of a stage. -/
  submitted : ∀ (W U : Type) (c : Setting W U) (w : W) (moves : List Move) (r : Run W U),
    (Run.begin p w).moved c moves = some r → ∀ e ∈ r.trace, ∀ unit, e.what = .submitted unit →
      ∃ s, (e.path, s) ∈ p.preorder ∧ unit.commands = s.steps.map Step.toCommand

theorem handsOver_of_valid (hp : p.Valid) : p.HandsOver := by
  have hproper := proper_of_violation?_eq_none (p.violation?_eq_none_iff.2 hp)
  refine
    { received := fun path s hs command params ht => ?_
      written := fun source hparse => ?_
      submitted := fun W U c w moves r hr e he unit hwhat => ?_ }
  · refine ⟨_, Step.holds_ofList ((hp.fine_of_mem_preorder hs).keys command params ht), fun handlers h hfind => ?_⟩
    simp only [Step.toCommand, Handlers.render, hfind]
    rfl
  · obtain ⟨_, L, htext, hlexemes⟩ := (Source.parse_iff_layout source p).1 hparse
    refine ⟨L, htext, hlexemes, fun path s hs t ht => ?_⟩
    rw [hlexemes]
    exact (Stage.infix_of_mem_steps ht).trans (infix_of_mem_preorder hs)
  · obtain ⟨s, hs, rfl⟩ := Run.exists_stage_of_submitted hproper hr he hwhat
    exact ⟨s, hproper.find?_eq_some_iff.1 hs, rfl⟩

/-- No key is found to be repeated in a step exactly if its command holds each parameter with its value, and nothing
else. The key that is found is the first that comes again, and the command holds what it is given last. So in a
pipeline that is let through every handler is handed exactly the parameters that are written for the step. -/
theorem parameters_handed_over :
    (∀ step : Step, step.repeatedKey? = none ↔ step.Kept) ∧
      (∀ (step : Step) (key : String), step.repeatedKey? = some key ↔ step.Loses key) ∧
      ∀ p : Pipeline, p.violation? = none → p.HandsOver :=
  ⟨fun _ => Step.repeatedKey?_eq_none_iff_kept, fun _ _ => Step.repeatedKey?_eq_some_iff_loses,
    fun p hp => handsOver_of_valid (p.violation?_eq_none_iff.1 hp)⟩

/-- A step in a branch, and the same step with a key too many, which is not let through. -/
theorem parameters_handed_over_branch :
    let params : List Param := [⟨"url", "u"⟩, ⟨"branch", "b"⟩]
    let s : Stage := { name := "b", steps := [.multi "git" params] }
    let p : Pipeline := ⟨.none, [{ name := "a", parallel := some [s] }]⟩
    p.violation? = none ∧ (Step.multi "git" (params ++ [⟨"url", "v"⟩])).Loses "url" ∧
      ∃ m : Bindings, m.Holds params ∧
        Handlers.builtins.render (Step.multi "git" params).toCommand = Handler.git.render m := by
  intro params s p
  obtain ⟨_, hloses, hvalid⟩ := parameters_handed_over
  have hp : p.violation? = none := by decide +kernel
  obtain ⟨m, hm, hrender⟩ := (hvalid p hp).received ["a", "b"] s (by decide +kernel) "git" params List.mem_cons_self
  exact ⟨hp, (hloses _ _).1 (by decide), m, hm, hrender .builtins .git rfl⟩

end Pipeline

end StageTree

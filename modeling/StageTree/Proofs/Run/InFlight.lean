import StageTree.Proofs.Activity.InFlight
import StageTree.Proofs.Run.Moves

/-! The units in flight in a run. Every unit that a run submitted has returned or is at work, and once the
run is over none is at work. -/

namespace StageTree.Run

variable {W U : Type} {s : Setting W U} {r r' : Run W U} {p : Pipeline} {w : W}

def submitted (r : Run W U) : List (List String) := r.trace.filterMap Entry.submitted?

def returned (r : Run W U) : List (List String) := r.trace.filterMap Entry.returned?

/-- The paths of the stages whose units are at work. -/
def inFlight (r : Run W U) : List (List String) := r.nodes.flatMap fun n => n.2.atWork n.1

theorem inFlight_eq (r : Run W U) :
    r.inFlight = (r.past ++ r.present.toList).flatMap fun a => a.inFlight [a.stage.name] := by
  rw [inFlight, nodes, Activity.nodesBelow_eq_flatMap, List.flatMap_assoc]
  rfl

/-- The units that were submitted are those in flight and those that have returned. -/
def Balanced (r : Run W U) : Prop := (r.inFlight ++ r.returned).Perm r.submitted

theorem balanced_begin (p : Pipeline) (w : W) : (begin p w : Run W U).Balanced := by
  rw [Balanced, begin, advance]
  cases p.stages <;>
    simp [inFlight_eq, submitted, returned, Entry.submitted?, Entry.returned?, entry, List.filterMap_cons]

theorem Balanced.take (h : r.Balanced) {a : Activity U} {q : Played W U} {x : Act} {draw : Nat}
    (ha : r.present = some a) (hs : a.Sound)
    (hq : Activity.Stepped s x a (r.moment a draw) r.world q) : (r.take q).Balanced := by
  have hperm : (((r.past ++ [q.activity]).flatMap fun a => a.inFlight [a.stage.name]) ++
      (r.trace ++ q.trace).filterMap Entry.returned?).Perm
        ((r.trace ++ q.trace).filterMap Entry.submitted?) := by
    have hq' := hq.inFlight_perm hs
    rw [Balanced, inFlight_eq, ha, Option.toList_some, List.flatMap_append, List.flatMap_singleton,
      submitted, returned] at h
    rw [List.filterMap_append, List.filterMap_append, List.flatMap_append, List.flatMap_singleton,
      hq.stage_eq]
    rw [List.perm_iff_count] at *
    intro path
    have hbefore := h path
    have hstep := hq' path
    simp only [List.count_append, Run.moment] at *
    omega
  have htaking := taking_take r q
  generalize r.take q = r' at htaking ⊢
  cases htaking with
  | on hn => simpa [Balanced, inFlight_eq, submitted, returned] using hperm
  | next he hf => simpa [Balanced, inFlight_eq, submitted, returned] using hperm
  | completed he hf =>
    simpa [Balanced, inFlight_eq, submitted, returned, List.filterMap_cons, Entry.submitted?,
      Entry.returned?, entry] using hperm
  | failed he =>
    simpa [Balanced, inFlight_eq, submitted, returned, List.filterMap_cons, Entry.submitted?,
      Entry.returned?, entry] using hperm

theorem Balanced.cancel (h : r.Balanced) (reason : String) : (r.cancel reason).Balanced := by
  rw [Run.cancel]
  split
  · exact h
  · rw [Balanced, inFlight_eq, submitted, returned] at h ⊢
    cases hp : r.present with
    | none => simpa [hp] using h
    | some a => simpa [hp] using h

theorem balanced_of_moved (hp : p.Proper) {moves : List Move} (h : (begin p w).moved s moves = some r) :
    r.Balanced := by
  refine (moved_invariant (P := fun r => r.Sound p ∧ r.Balanced) (fun q q' move _ ⟨hs, hb⟩ hstep => ?_)
    ⟨sound_begin hp w, balanced_begin p w⟩ h).2
  obtain ⟨_, hmoved⟩ := moved_of_step hstep
  refine ⟨hs.moved hp hmoved, ?_⟩
  cases hmoved with
  | stage ha hq => exact hb.take ha (hs.present _ ha).1 (hs.stepped ha hq)
  | cancel reason => exact hb.cancel reason
  | tick hlt => exact hb

/-- A run that is over has no unit in flight. -/
theorem Sound.inFlight_eq_nil (h : r.Sound p) (hv : r.verdict.isSome = true) : r.inFlight = [] := by
  have hpresent : r.present = none := by
    cases hp : r.present with
    | none => rfl
    | some a =>
      have hnone := h.going.2 (by simp [hp])
      rw [hnone] at hv
      cases hv
  rw [inFlight_eq, hpresent, Option.toList_none, List.append_nil, List.flatMap_eq_nil_iff]
  exact fun a ha => Activity.inFlight_of_hasEnded (h.past a ha).1 (h.past a ha).2 _

end StageTree.Run

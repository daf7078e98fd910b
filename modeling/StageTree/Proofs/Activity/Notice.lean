import StageTree.Proofs.Activity.Place
import StageTree.Proofs.Activity.Scopes

/-! What a group tells when it joins a branch. It tells that it cancels its branches exactly when it joins a
failure, fails fast and has a live scope; and whoever has told this has a scope that is cancelled. -/

namespace StageTree

variable {W U : Type}

namespace Happening

def isJoining : Happening → Bool
  | joined _ _ | cancelling _ => true
  | _ => false

def isCancelling : Happening → Bool
  | cancelling _ => true
  | _ => false

theorem isCancelling_iff {what : Happening} : what.isCancelling = true ↔ ∃ name, what = .cancelling name := by
  cases what <;> simp [isCancelling]

def isOfRun : Happening → Bool
  | runStarted _ | runFailed _ _ | runCompleted => true
  | _ => false

end Happening

theorem Gathered.exists_of_cancelling {failFast : Bool} {rs : List (Report Results)}
    {es : List Happening} (h : Gathered failFast rs es) {name : String} (hc : .cancelling name ∈ es) :
    failFast = true ∧ ∃ r ∈ rs, r.error.any RunError.isFailure = true := by
  induction h with
  | nil => cases hc
  | joined r h ih =>
    obtain ⟨hff, r', hr', hfail⟩ := ih (by simpa using hc)
    exact ⟨hff, r', List.mem_append_left _ hr', hfail⟩
  | cancelling r h hff hr ih => exact ⟨hff, r, by simp, hr⟩

namespace Activity

variable {vars : Bindings} {path : List String} {a b n : Activity U} {es : List Happening}

/-! ### What a story tells of the group -/

theorem Led.exists_of_cancelling (h : Led a es) {name : String} (hc : .cancelling name ∈ es) :
    a.stage.failsFast = true ∧
      ∃ f, a.fan = some f ∧ ∃ r ∈ f.join.reports, r.error.any RunError.isFailure = true := by
  cases h with
  | alone => cases hc
  | grouped hf _ hg =>
    obtain ⟨hff, hr⟩ := hg.exists_of_cancelling (show Happening.cancelling name ∈ _ by simpa using hc)
    exact ⟨hff, _, hf, hr⟩

/-- A stage that has told that it cancels its branches fails fast and has joined a failure. -/
theorem Told.exists_of_cancelling (h : Told vars path a es) {name : String} (hc : .cancelling name ∈ es) :
    a.stage.failsFast = true ∧
      ∃ f, a.fan = some f ∧ ∃ r ∈ f.join.reports, r.error.any RunError.isFailure = true := by
  cases h with
  | unstarted | refused => simp at hc
  | gathering _ hf hg | settled _ hf _ hg =>
    obtain ⟨hff, hr⟩ := hg.exists_of_cancelling (show Happening.cancelling name ∈ _ by simpa using hc)
    exact ⟨hff, _, hf, hr⟩
  | working _ _ hl | returned _ _ hl => exact hl.exists_of_cancelling (show Happening.cancelling name ∈ _ by simpa using hc)

/-- In a tree in which every group is alert the scope of such a stage is cancelled. -/
theorem Told.scope_of_cancelling (h : Told vars path a es) (ha : a.Alert) {name : String}
    (hc : .cancelling name ∈ es) {f : Fan} (hf : a.fan = some f) : f.scope ≠ none := by
  obtain ⟨hff, f', hf', r, hr, hfail⟩ := h.exists_of_cancelling hc
  obtain rfl := Option.some.inj (hf'.symm.trans hf)
  intro hscope
  rw [ha.here hff f' hf' hscope r hr] at hfail
  cases hfail

theorem Told.started_mem (h : Told vars path a es) (hp : a.phase ≠ .waiting) : Happening.started ∈ es := by
  cases h with
  | unstarted e => exact absurd e hp
  | refused | gathering | settled | working | returned => simp

/-- What happens to the run itself is in the story of no stage. -/
theorem Told.isOfRun_eq_false (h : Told vars path a es) {what : Happening} (hw : what ∈ es) :
    what.isOfRun = false := by
  cases hd : what.isDetail with
  | true => cases what <;> simp_all [Happening.isDetail, Happening.isOfRun]
  | false =>
    have hmem : what ∈ Happening.outline es := List.mem_filter.2 ⟨hw, by simp [hd]⟩
    have ho := h.outlined
    generalize Happening.outline es = os at hmem ho
    cases ho <;> simp at hmem
    case gathering => exact hmem ▸ rfl
    case working | alone => rcases hmem with rfl | rfl <;> rfl
    case returned => rcases hmem with rfl | rfl | rfl | rfl <;> rfl

/-! ### What an act tells of the group -/

section Acts

variable {s : Setting W U} {m : Moment} {w : W} {x : Act} {p : Played W U}

theorem Taken.isJoining_eq_false {since : Nat} {t : Turn W U} {phase : Phase U} {w' : W} {trace : List Entry}
    (h : Taken m since t phase w' trace) : ∀ what ∈ trace.map Entry.what, what.isJoining = false := by
  cases h with
  | waits w notes u => simp [Moment.entry, Happening.isJoining]
  | returns w notes r =>
    intro what hw
    simp only [List.map_append, List.map_map, List.mem_append, List.mem_map, List.map_cons, List.map_nil,
      List.mem_cons, List.not_mem_nil, or_false] at hw
    rcases hw with ⟨note, _, rfl⟩ | rfl | rfl <;> rfl

theorem Onward.isJoining_eq_false {stage : Stage} {since : Nat} {phase : Phase U} {w' : W} {trace : List Entry}
    (h : Onward s m stage since w phase w' trace) : ∀ what ∈ trace.map Entry.what, what.isJoining = false := by
  cases h with
  | idle => simp [Moment.entry, Moment.ending, Happening.isJoining]
  | unit _ ht => exact List.forall_mem_cons.2 ⟨rfl, ht.isJoining_eq_false⟩

/-- An act joins nothing, or it is the join of a branch that has ended and tells first of that. -/
theorem Acted.joining_cases (h : Acted s m w a x p) :
    (∀ what ∈ p.trace.map Entry.what, what.isJoining = false) ∨
      ∃ f b r more, a.fan = some f ∧ b ∈ a.branches ∧ b.hasEnded = true ∧ r.name = b.stage.name ∧
        r.error = b.error? ∧ p.trace.map Entry.what = (a.joiningEntries f r m).map Entry.what ++ more ∧
        ∀ what ∈ more, what.isJoining = false := by
  cases h with
  | refused | fanned => simp [Moment.entry, Moment.ending, Happening.isJoining]
  | begun hp hs hg ho => exact .inl (List.forall_mem_cons.2 ⟨rfl, ho.isJoining_eq_false⟩)
  | looked hp ht => exact .inl ht.isJoining_eq_false
  | @joined i ms f b lines error hp hf hb he =>
    exact .inr ⟨f, b, b.report i error, [], hf, List.mem_of_getElem? hb, hasEnded_of_phase he, rfl,
      (error?_of_phase he).symm, by simp, by simp⟩
  | @failed i ms f b lines error e hp hf hb he =>
    exact .inr ⟨f, b, b.report i error, [(m.ending a.since (some e)).what], hf, List.mem_of_getElem? hb,
      hasEnded_of_phase he, rfl, (error?_of_phase he).symm, List.map_append,
      by simp [Happening.isJoining, Moment.ending, Moment.entry]⟩
  | @gathered i ms f b lines error phase w' trace hp hf hb he hj hl hr ho =>
    exact .inr ⟨f, b, b.report i error, _, hf, List.mem_of_getElem? hb, hasEnded_of_phase he, rfl,
      (error?_of_phase he).symm, List.map_append, ho.isJoining_eq_false⟩

/-- What is joined is a branch that has ended, with the error that it ended with. -/
theorem Acted.exists_of_joined (h : Acted s m w a x p) {name : String} {error : Option RunError}
    (hw : .joined name error ∈ p.trace.map Entry.what) :
    ∃ b ∈ a.branches, b.stage.name = name ∧ b.hasEnded = true ∧ b.error? = error := by
  rcases h.joining_cases with hnone | ⟨f, b, r, more, _, hb, he, hname, herror, htrace, hmore⟩
  · cases hnone _ hw
  · rw [htrace, joiningEntries, List.map_cons, List.cons_append, List.mem_cons, List.mem_append] at hw
    rcases hw with hw | hw | hw
    · obtain ⟨rfl, rfl⟩ := Happening.joined.inj hw
      exact ⟨b, hb, hname.symm, he, herror.symm⟩
    · split at hw <;> simp [Moment.entry] at hw
    · cases hmore _ hw

/-- An act tells that the branches of a group are cancelled exactly if it joins one that failed, the group
fails fast and its scope is live. -/
theorem Acted.cancelling_iff (h : Acted s m w a x p) {name : String} :
    .cancelling name ∈ p.trace.map Entry.what ↔
      a.stage.failsFast = true ∧ (∀ f, a.fan = some f → f.scope = none) ∧
        ∃ e more, e.isFailure = true ∧ p.trace.map Entry.what = .joined name (some e) :: more := by
  rcases h.joining_cases with hnone | ⟨f, b, r, more, hf, hb, he, hname, herror, htrace, hmore⟩
  · constructor
    · intro hw
      cases hnone _ hw
    · rintro ⟨_, _, e, more, _, hw⟩
      cases hnone _ (hw ▸ List.mem_cons_self)
  · have hnot : Happening.cancelling name ∉ more := fun hw => by cases hmore _ hw
    have hscope : (∀ f, a.fan = some f → f.scope = none) ↔ f.scope = none := by simp [hf]
    rw [htrace, hscope, joiningEntries]
    by_cases hc : Join.cancels a.stage.failsFast f.scope r = true
    · obtain ⟨hff, hlive, hfail⟩ := Join.cancels_iff.1 hc
      obtain ⟨e, hre, hefail⟩ := (Option.any_eq_true _ _).1 hfail
      rw [if_pos hc, hre]
      constructor
      · intro hw
        obtain rfl : name = r.name := by simpa [Moment.entry, hnot] using hw
        exact ⟨hff, hlive, e, _, hefail, rfl⟩
      · rintro ⟨_, _, _, _, _, hw⟩
        rw [← (Happening.joined.inj (List.cons.inj hw).1).1]
        simp [Moment.entry]
    · refine iff_of_false (by simp [hc, Moment.entry, hnot]) ?_
      rintro ⟨hff, hlive, e, more', hefail, hw⟩
      obtain ⟨hjoined, _⟩ := List.cons.inj hw
      refine hc ?_
      refine Join.cancels_iff.2 ⟨hff, hlive, ?_⟩
      rw [(Happening.joined.inj hjoined).2]
      exact hefail

/-- An act tells this at most once. -/
theorem Acted.countP_cancelling_le (h : Acted s m w a x p) :
    (p.trace.map Entry.what).countP Happening.isCancelling ≤ 1 := by
  have hzero {es : List Happening} (hes : ∀ what ∈ es, what.isJoining = false) :
      es.countP Happening.isCancelling = 0 := by
    refine List.countP_eq_zero.2 fun what hw => ?_
    have hjoining := hes what hw
    cases what <;> simp_all [Happening.isJoining, Happening.isCancelling]
  rcases h.joining_cases with hnone | ⟨f, b, r, more, _, _, _, _, _, htrace, hmore⟩
  · rw [hzero hnone]
    exact Nat.zero_le 1
  · rw [htrace, List.countP_append, hzero hmore, joiningEntries]
    split <;> simp [Moment.entry, Happening.isCancelling]

end Acts

/-! ### The group around a branch -/

/-- A stage with something below it has started. -/
theorem Coherent.phase_ne_waiting (ha : a.Coherent) {name : String} {rest : List String}
    (hn : a.at? (name :: rest) = some n) : a.phase ≠ .waiting := fun hp => by
  rw [at?, ha.single (ha.waiting hp)] at hn
  cases hn


/-- The scope around a branch is that of the group. -/
theorem scopeAt?_concat {scope : Option String} {name : String} (hn : a.at? path = some n)
    (hb : named? name n.branches = some b) : a.scopeAt? scope (path ++ [name]) = n.fan.bind Fan.scope := by
  induction path generalizing scope a with
  | nil =>
    obtain rfl := Option.some.inj hn
    rw [List.nil_append, scopeAt?, hb]
    rfl
  | cons top path ih =>
    obtain ⟨c, hc, hn⟩ := Option.bind_eq_some_iff.1 hn
    rw [List.cons_append, scopeAt?, hc, Option.bind_some, ih hn]

end Activity

end StageTree

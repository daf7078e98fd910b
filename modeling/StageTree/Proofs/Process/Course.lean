import StageTree.Process.Container

/-! What comes of a plan. The programs of any world can be watched, so that the world keeps the calls made
in it. An attempt by a plan, dropped at any time, makes the calls of one course through the plan. -/

namespace StageTree

variable {M B X : Type}

/-- A call as it was made. It has no result if it was given up before its program ended, or if it was made
aside. -/
inductive Deed where
  | call (c : Call) (result : Option CallResult)
  | aside (c : Call)
  deriving DecidableEq, Repr

/-- The programs in a world that keeps the calls made in it. -/
def Programs.watched (p : Programs M) : Programs (M × List Deed) where
  call c m := (((p.call c m.1).1, m.2 ++ [.call c (p.call c m.1).2]), (p.call c m.1).2)
  callAside c m := (p.callAside c m.1, m.2 ++ [.aside c])

namespace Backend

/-- An attempt looked at, at the given instants, as long as it waits, and dropped if it waits then. -/
def follow (b : Backend B X) : List Nat → B × Progress X AttemptResult → B × Option AttemptResult
  | _, (w, .returns r) => (w, some r)
  | [], (w, .waits x) => (b.drop x w, none)
  | now :: looks, (w, .waits x) => b.follow looks (b.look x now w)

/-- What comes of an attempt that is started, looked at, and dropped unless it has returned; a dropped
attempt has no result. -/
def attempt (b : Backend B X) (unit : UnitOfWork) (now : Nat) (looks : List Nat) (w : B) :
    B × Option AttemptResult :=
  b.follow looks (b.start unit now w)

end Backend

namespace Plan

def clearing (cleanup : Option Call) : List Deed := cleanup.toList.map .aside

/-- A course through a plan: calls with what may come of them, and the result, if it is not dropped. -/
inductive Course : Plan → List Deed → Option AttemptResult → Prop
  | done (cleanup : Option Call) (result : AttemptResult) :
      Course (.done cleanup result) (clearing cleanup) (some result)
  | went {c : Call} {cleanup : Option Call} {next : CallResult → Plan} (r : CallResult) {deeds : List Deed}
      {result : Option AttemptResult} (h : Course (next r) deeds result) :
      Course (.call c cleanup next) (.call c (some r) :: deeds) result
  | dropped (c : Call) (cleanup : Option Call) (next : CallResult → Plan) :
      Course (.call c cleanup next) (.call c none :: clearing cleanup) none

end Plan

/-! ### Watching -/

section Watched

variable {p : Programs M} {m : M} {log : List Deed}

theorem Programs.clear_watched (cleanup : Option Call) :
    p.watched.clear cleanup (m, log) = (p.clear cleanup m, log ++ Plan.clearing cleanup) := by
  cases cleanup with
  | none => simp [clear, Plan.clearing]
  | some c => rfl

namespace Backend

variable {planOf : UnitOfWork → Plan}

@[simp] theorem follow_returns {b : Backend B X} (looks : List Nat) (w : B) (r : AttemptResult) :
    b.follow looks (w, .returns r) = (w, some r) := by
  cases looks <;> rfl

/-- A plan that hangs goes on hanging until it is dropped. -/
theorem planned_follow_waits (looks : List Nat) (x : Hanging) :
    (planned p planOf).follow looks (m, .waits x) = (p.clear x.cleanup m, none) := by
  induction looks with
  | nil => rfl
  | cons now looks ih => exact ih

theorem planned_follow_play (plan : Plan) (looks : List Nat) (m : M) (log : List Deed) :
    ∃ deeds, (planned p.watched planOf).follow looks (plan.play p.watched (m, log))
        = ((((planned p planOf).follow looks (plan.play p m)).1, log ++ deeds),
            ((planned p planOf).follow looks (plan.play p m)).2)
      ∧ plan.Course deeds ((planned p planOf).follow looks (plan.play p m)).2 := by
  induction plan generalizing m log with
  | done cleanup result =>
    refine ⟨Plan.clearing cleanup, ?_, ?_⟩
    · simp only [Plan.play, follow_returns, Programs.clear_watched]
    · simp only [Plan.play, follow_returns]
      exact .done cleanup result
  | call c cleanup next ih =>
    rcases hc : p.call c m with ⟨m', r⟩
    have hw : p.watched.call c (m, log) = ((m', log ++ [.call c r]), r) := by simp [Programs.watched, hc]
    cases r with
    | none =>
      refine ⟨.call c none :: Plan.clearing cleanup, ?_, ?_⟩
      · simp [Plan.play, hc, hw, planned_follow_waits, Programs.clear_watched]
      · simp only [Plan.play, hc, planned_follow_waits]
        exact .dropped c cleanup next
    | some r =>
      obtain ⟨deeds, heq, hcourse⟩ := ih r m' (log ++ [.call c (some r)])
      refine ⟨.call c (some r) :: deeds, ?_, ?_⟩
      · simp only [Plan.play, hc, hw]
        rw [heq]
        simp
      · simp only [Plan.play, hc]
        exact .went r hcourse

/-- To be watched changes nothing for an attempt by a plan, and the calls that are kept follow the plan. -/
theorem attempt_watched (p : Programs M) (planOf : UnitOfWork → Plan) (unit : UnitOfWork) (now : Nat)
    (looks : List Nat) (m : M) :
    ∃ deeds, (planned p.watched planOf).attempt unit now looks (m, [])
        = ((((planned p planOf).attempt unit now looks m).1, deeds),
            ((planned p planOf).attempt unit now looks m).2)
      ∧ (planOf unit).Course deeds ((planned p planOf).attempt unit now looks m).2 :=
  planned_follow_play (planOf unit) looks m []

end Backend

end Watched

/-! ### Courses through calls that have to succeed -/

namespace CallResult

/-- Whether a call was not given up, and its program has started and succeeded. -/
def fine : Option CallResult → Bool
  | some (.ended out) => out.succeeded
  | _ => false

end CallResult

namespace Plan

/-- How an attempt ends at a call that it does not get past: dropped with the call, or with an error. -/
inductive Halted : Option CallResult → Option AttemptResult → Prop
  | dropped : Halted none none
  | failed (r : CallResult) (e : BackendError) : Halted (some r) (some (.error e))

/-- A course that ends at its first call. -/
def Stops (c : Call) (cleanup : Option Call) (r : Option CallResult) (deeds : List Deed)
    (result : Option AttemptResult) : Prop :=
  deeds = .call c r :: clearing cleanup ∧ Halted r result

namespace Course

variable {c : Call} {cleanup : Option Call} {next : Output → Plan} {deeds : List Deed}
  {result : Option AttemptResult}

theorem done_iff {r : AttemptResult} :
    (Plan.done cleanup r).Course deeds result ↔ deeds = clearing cleanup ∧ result = some r := by
  constructor
  · rintro ⟨⟩
    exact ⟨rfl, rfl⟩
  · rintro ⟨rfl, rfl⟩
    exact .done cleanup r

/-- A call that has to start its program: it is dropped, the program does not start, or it ends. -/
theorem of_run (h : (run c cleanup next).Course deeds result) :
    Stops c cleanup none deeds result
      ∨ (∃ reason, Stops c cleanup (some (.unstarted reason)) deeds result)
      ∨ ∃ out rest, deeds = .call c (some (.ended out)) :: rest ∧ (next out).Course rest result := by
  unfold run at h
  cases h with
  | dropped => exact .inl ⟨rfl, .dropped⟩
  | went r h =>
    cases r with
    | unstarted reason =>
      obtain ⟨rfl, rfl⟩ := done_iff.1 h
      exact .inr (.inl ⟨reason, rfl, .failed _ _⟩)
    | ended out => exact .inr (.inr ⟨out, _, rfl, h⟩)

/-- A call that has to succeed: the course ends with it, or goes on with what the program leaves. -/
theorem of_demand {onward : Output → Plan} {error : Output → BackendError}
    (h : (run c cleanup fun out => if out.succeeded then onward out else .done cleanup (.error (error out))).Course
      deeds result) :
    (∃ r, CallResult.fine r = false ∧ Stops c cleanup r deeds result)
      ∨ ∃ out rest, out.succeeded = true ∧ deeds = .call c (some (.ended out)) :: rest
        ∧ (onward out).Course rest result := by
  obtain hs | ⟨reason, hs⟩ | ⟨out, rest, rfl, hnext⟩ := of_run h
  · exact .inl ⟨none, rfl, hs⟩
  · exact .inl ⟨_, rfl, hs⟩
  · cases ho : out.succeeded with
    | true => exact .inr ⟨out, rest, ho, rfl, by simpa only [ho, if_true] using hnext⟩
    | false =>
      obtain ⟨rfl, rfl⟩ := done_iff.1 (by simpa [ho] using hnext)
      exact .inl ⟨some (.ended out), ho, rfl, .failed _ _⟩

end Course

end Plan

end StageTree

import StageTree.Proofs.Activity.Bounds

/-! Trees that stand still. When no stage can go on, every stage that has not ended waits for units that are
due later, no group at work is cancelled, and all branches that have ended are joined. What becomes of such
a tree does not change as time passes. -/

namespace StageTree.Activity

section

variable {U : Type} {due : U → Option Nat} {now : Nat} {scope : Option String} {a : Activity U}

/-- A tree that waits for its units, and for nothing else. -/
inductive Still : Activity U → Prop
  | working {a : Activity U} {u : U} (hp : a.phase = .working u) : Still a
  | fanned {a : Activity U} {f : Fan} (hp : a.phase = .fanned) (hf : a.fan = some f) (hs : f.scope = none)
      (hj : ∀ i b, a.branches[i]? = some b → b.hasEnded = true → f.hasJoined i = true)
      (h : ∀ b ∈ a.branches, b.hasEnded = false → Still b) : Still a

/-- Where all branches that have ended are joined, those that are not joined are open. -/
theorem hasEnded_eq_false_of_open {f : Fan} {i : Nat} {b : Activity U}
    (hj : ∀ i b, a.branches[i]? = some b → b.hasEnded = true → f.hasJoined i = true)
    (hb : a.branches[i]? = some b) (hn : f.hasJoined i = false) : b.hasEnded = false := by
  by_contra he
  rw [hj i b hb (by simpa using he)] at hn
  cases hn

inductive Started : Activity U → Prop
  | working {a : Activity U} {u : U} (hp : a.phase = .working u) : Started a
  | ended {a : Activity U} (he : a.hasEnded = true) : Started a
  | fanned {a : Activity U} (hp : a.phase = .fanned) (h : ∀ b ∈ a.branches, Started b) : Started a

theorem Still.started (h : a.Still) : a.Started := by
  induction h with
  | working hp => exact .working hp
  | fanned hp hf hs hj h ih =>
    refine .fanned hp fun b hb => ?_
    cases he : b.hasEnded with
    | true => exact .ended he
    | false => exact ih b hb he

/-- A tree in which no stage can go on stands still. -/
theorem still_of_not_able (ha : a.Sound) (hc : a.Closed) (hn : a.hasEnded = false)
    (hno : ∀ position x, ¬ Able due now scope a position x) : a.Still := by
  induction ha generalizing scope with
  | @mk a here below ih =>
    cases hp : a.phase with
    | waiting => exact absurd (.start hp) (hno [] .start)
    | working u => exact .working hp
    | ended ms lines error =>
      rw [hasEnded_of_phase hp] at hn
      cases hn
    | fanned =>
      obtain ⟨f, hf⟩ := Option.ne_none_iff_exists'.1 (here.fanned hp)
      have hs : f.scope = none := by
        by_contra hs
        have hcancelled : a.isScopeCancelled = true := by
          rw [isScopeCancelled_of_fan hf]
          exact Option.isSome_iff_ne_none.2 hs
        obtain ⟨position, x, hx⟩ : ∃ position x, Able due now scope a position x :=
          able_of_isScopeCancelled (.mk here below) hc hp hcancelled
        exact hno position x hx
      refine .fanned hp hf hs (fun i b hb he => ?_) fun b hb he => ?_
      · by_contra hj
        exact hno [] (.join i) (.join hp hf hb he (by simpa using hj))
      · obtain ⟨i, hi⟩ := List.mem_iff_getElem?.1 hb
        have hbranch : ∀ position x, ¬ Able due now f.scope b position x := fun position x hx =>
          hno (i :: position) x (.branch hp hf hi hx)
        exact ih b hb (hc.branch hb) he hbranch

theorem Started.cancel (h : a.Started) (reason : String) : (a.cancel reason).Started := by
  induction h with
  | working hp =>
    rw [cancel_of_phase reason (by simp [hp])]
    exact .working hp
  | ended he =>
    rw [cancel_of_hasEnded reason he]
    exact .ended he
  | @fanned a hp h ih =>
    refine .fanned (by simpa using hp) fun b hb => ?_
    rcases a.cancel_cases reason with e | ⟨join, _, _, e⟩ <;> rw [e] at hb
    · exact h b hb
    · obtain ⟨c, hc, rfl⟩ := List.mem_map.1 hb
      exact ih c hc

theorem Started.branch {b : Activity U} (h : a.Started) (hp : a.phase = .fanned) (hb : b ∈ a.branches) :
    b.Started := by
  cases h with
  | working hp' => simp [hp] at hp'
  | ended he => simp [hasEnded, hp] at he
  | fanned _ h => exact h b hb

theorem Started.phase_ne (h : a.Started) : a.phase ≠ .waiting := by
  cases h with
  | working hp | fanned hp => simp [hp]
  | ended he =>
    obtain ⟨_, _, _, hp⟩ := hasEnded_iff.1 he
    simp [hp]

section Steps

variable {W : Type} {s : Setting W U} {m : Moment} {w : W} {x : Act} {p : Played W U}

theorem Taken.started {since : Nat} {t : Turn W U} {phase : Phase U} {w' : W} {trace : List Entry}
    (h : Taken m since t phase w' trace) (hp : a.phase = phase) : a.Started := by
  cases h with
  | waits => exact .working hp
  | returns => exact .ended (hasEnded_of_phase hp)

theorem Acted.started (h : Acted s m w a x p) (ha : a.Started) : x ≠ .start ∧ p.activity.Started := by
  cases h with
  | refused hp | fanned hp | begun hp => exact absurd hp ha.phase_ne
  | looked hp ht => exact ⟨by simp, ht.started rfl⟩
  | joined hp hf hb he hj hl =>
    refine ⟨by simp, .fanned hp fun c hc => ?_⟩
    rcases a.joiningBranches_eq _ (Activity.report _ _ _) with e | ⟨reason, e⟩ <;> rw [e] at hc
    · exact ha.branch hp hc
    · obtain ⟨d, hd, rfl⟩ := List.mem_map.1 hc
      exact (ha.branch hp hd).cancel reason
  | failed => exact ⟨by simp, .ended rfl⟩
  | gathered _ _ _ _ _ _ _ ho =>
    refine ⟨by simp, ?_⟩
    cases ho with
    | idle => exact .ended rfl
    | unit _ ht => exact ht.started rfl

/-- In a tree in which every stage has started none starts. -/
theorem Stepped.started (h : Stepped s x a m w p) (ha : a.Started) : x ≠ .start ∧ p.activity.Started := by
  induction h with
  | here h => exact h.started ha
  | @branch a b m w p f i hp hf hb h ih =>
    obtain ⟨hx, hstarted⟩ := ih (ha.branch hp (List.mem_of_getElem? hb))
    refine ⟨hx, .fanned hp fun c hc => ?_⟩
    rcases List.mem_or_eq_of_mem_set hc with hc | rfl
    · exact ha.branch hp hc
    · exact hstarted

/-- In a tree that stands still only units are looked at. -/
theorem Stepped.look_of_still (h : Stepped s x a m w p) (ha : a.Still) : x = .look := by
  induction h with
  | here h =>
    cases ha with
    | working hp => cases h <;> simp_all
    | fanned hp hf hs hj _ =>
      cases h with
      | refused hp' | fanned hp' | begun hp' | looked hp' => simp [hp] at hp'
      | joined _ hf' hb he hn | failed _ hf' hb he hn | gathered _ hf' hb he hn =>
        obtain rfl := Option.some.inj (hf.symm.trans hf')
        rw [hj _ _ hb (hasEnded_of_phase he)] at hn
        cases hn
  | branch hp hf hb h ih =>
    cases ha with
    | working hp' => simp [hp] at hp'
    | fanned _ hf' hs hj hstill => exact ih (hstill _ (List.mem_of_getElem? hb) h.not_hasEnded)

end Steps

/-! ### Units that are due -/

@[simp] theorem dues_cancel (a : Activity U) (reason : String) : dues due (a.cancel reason) = dues due a := by
  induction a using Activity.induction with
  | h a ih =>
    rcases a.cancel_cases reason with e | ⟨join, hp, hf, e⟩
    · rw [e]
    · rw [e, dues_eq, dues_eq]
      simp only [hp]
      rw [duesAll_eq, duesAll_eq, List.flatMap_map]
      exact List.flatMap_congr ih

theorem dues_joiningBranches (a : Activity U) (f : Fan) (r : Report Results) :
    duesAll due (a.joiningBranches f r) = duesAll due a.branches := by
  rcases a.joiningBranches_eq f r with e | ⟨reason, e⟩ <;> rw [e]
  rw [duesAll_eq, duesAll_eq, List.flatMap_map]
  exact List.flatMap_congr fun b _ => dues_cancel b reason

/-- How many units are due in a tree in which one branch went on. -/
theorem countP_duesAll_set {bs : List (Activity U)} {i : Nat} {b : Activity U} (hb : bs[i]? = some b)
    (b' : Activity U) (q : Nat → Bool) : (duesAll due (bs.set i b')).countP q + (dues due b).countP q =
      (duesAll due bs).countP q + (dues due b').countP q := by
  induction bs generalizing i with
  | nil => simp at hb
  | cons c bs ih =>
    cases i with
    | zero =>
      obtain rfl := Option.some.inj hb
      simp only [List.set_cons_zero, duesAll, List.countP_append]
      omega
    | succ i =>
      have hbs := ih hb
      simp only [List.set_cons_succ, duesAll, List.countP_append]
      omega

/-- Units that are due in two branches are two. -/
theorem two_le_countP_duesAll {bs : List (Activity U)} {i j : Nat} {b c : Activity U} {q : Nat → Bool}
    (hij : i ≠ j) (hb : bs[i]? = some b) (hc : bs[j]? = some c) (hqb : 0 < (dues due b).countP q)
    (hqc : 0 < (dues due c).countP q) : 2 ≤ (duesAll due bs).countP q := by
  have hset : (duesAll due (bs.set i (ofStage b.stage))).countP q + (dues due b).countP q =
      (duesAll due bs).countP q + (dues due (ofStage b.stage : Activity U)).countP q :=
    countP_duesAll_set hb (ofStage b.stage) q
  have hcs : (bs.set i (ofStage b.stage))[j]? = some c := by rw [List.getElem?_set_ne hij, hc]
  have hpos : 0 < (duesAll due (bs.set i (ofStage b.stage))).countP q := by
    obtain ⟨d, hd, hqd⟩ := List.countP_pos_iff.1 hqc
    exact List.countP_pos_iff.2 ⟨d, mem_duesAll.2 ⟨c, List.mem_of_getElem? hcs, hd⟩, hqd⟩
  have hnone : (dues due (ofStage b.stage : Activity U)).countP q = 0 := by
    rw [dues_eq]
    rfl
  omega

end

end StageTree.Activity

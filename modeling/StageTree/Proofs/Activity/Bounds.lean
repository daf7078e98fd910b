import StageTree.Proofs.Activity.Dated
import StageTree.Proofs.Activity.Scopes

/-! Bounds on what becomes of a tree. If every unit at work and every branch that is not joined lasts up to
an instant, so does the tree. What becomes of a tree whose deadline is now is the same once it is
cancelled. -/

namespace StageTree.Activity

variable {scriptOf : String → Script} {vars : Bindings} {now n : Nat} {a : Activity Asleep}
  {deadline : Option Nat}

/-- A tree in which nothing that is open ends before an instant. -/
inductive Lasts (now n : Nat) : Activity Asleep → Prop
  | waiting {a : Activity Asleep} (hp : a.phase = .waiting) (hn : n ≤ now + 1) : Lasts now n a
  | working {a : Activity Asleep} {u : Asleep} (hp : a.phase = .working u) (hn : n ≤ u.wakes) : Lasts now n a
  | ended {a : Activity Asleep} {ms : Nat} {lines : Option (List String)} {error : Option RunError}
      (hp : a.phase = .ended ms lines error) (hn : n ≤ ms) : Lasts now n a
  | fanned {a : Activity Asleep} {f : Fan} (hp : a.phase = .fanned) (hf : a.fan = some f)
      (hs : f.scope.isSome = true → n ≤ now)
      (h : ∀ i b, a.branches[i]? = some b → f.hasJoined i = false → Lasts now n b) : Lasts now n a

/-- A group that fails fast and is not cancelled has no failures but those of branches that are not joined. -/
theorem le_of_fail (ha : a.Coherent) (hal : a.Alert) {f : Fan} (hf : a.fan = some f) (hs : f.scope = none)
    (h : ∀ i b, a.branches[i]? = some b → f.hasJoined i = false →
      n ≤ (b.predict scriptOf vars now deadline).ends) (hff : a.stage.failsFast = true) :
    ∀ g ∈ predictAll scriptOf vars now a.branches deadline, g.status = .fail → n ≤ g.ends := by
  intro g hg hfail
  rw [predictAll_eq] at hg
  obtain ⟨b, hb, rfl⟩ := List.mem_map.1 hg
  obtain ⟨i, hi⟩ := List.mem_iff_getElem?.1 hb
  refine h i b hi ?_
  by_contra hj
  obtain ⟨hbe, hr⟩ := ha.report_of_hasJoined hf hi (by simpa using hj)
  obtain ⟨ms, lines, error, hp⟩ := hasEnded_iff.1 hbe
  rw [predict_ended hp] at hfail
  have hok := hal.here hff f hf hs _ hr
  rw [report, error?_of_phase hp, Status.ofError_eq_fail.1 hfail] at hok
  cases hok

theorem Lasts.le_ends (h : a.Lasts now n) (ha : a.Sound) (hal : a.Alert) (hl : a.stage.Lasting scriptOf)
    (hd : ∀ d ∈ deadline, n ≤ d) : n ≤ (a.predict scriptOf vars now deadline).ends := by
  induction h generalizing deadline with
  | @waiting a hp hn =>
    rw [predict_waiting hp]
    by_cases hlt : n ≤ now
    · exact Nat.le_trans hlt (Stage.le_ends_fate ha.here.proper hl)
    · have hlater : ∀ d ∈ deadline, now < d := fun d hd' => Nat.lt_of_lt_of_le (Nat.lt_of_not_le hlt) (hd d hd')
      exact Nat.le_trans hn (Stage.lt_ends_fate ha.here.proper hl hlater)
  | working hp hn =>
    rw [predict_working hp]
    exact Fate.le_ends_working hn hd
  | ended hp hn =>
    rw [predict_ended hp]
    exact hn
  | @fanned a f hp hf hs hb ih =>
    have hbranch {e : Option Nat} (he : ∀ d ∈ e, n ≤ d) (i : Nat) (b : Activity Asleep)
        (hi : a.branches[i]? = some b) (hj : f.hasJoined i = false) :
        n ≤ (b.predict scriptOf vars now e).ends :=
      have hm := List.mem_of_getElem? hi
      ih i b hi hj (ha.branch hm) (hal.branch hm) (ha.here.branch_stage hl hm) he
    obtain ⟨i, b, hi, hj⟩ : ∃ (i : Nat) (b : Activity Asleep), a.branches[i]? = some b ∧ f.hasJoined i = false := by
      rcases ha.here.exists_open hp hf with ⟨i, b, hi, _, hj⟩ | ⟨i, b, hi, hn⟩
      · exact ⟨i, b, hi, hj⟩
      · exact ⟨i, b, hi, ha.here.not_hasJoined hf hi hn⟩
    have hmem (e : Option Nat) :
        b.predict scriptOf vars now e ∈ predictAll scriptOf vars now a.branches e := by
      rw [predictAll_eq]
      exact List.mem_map_of_mem (List.mem_of_getElem? hi)
    cases hscope : f.scope with
    | some reason =>
      have hnow : ∀ d ∈ some now, n ≤ d := fun d hd' => Option.some.inj hd' ▸ hs (by rw [hscope]; rfl)
      rw [predict_cancelled hp hf hscope]
      exact Stage.le_ends_settled ⟨_, hmem _, hbranch hnow i b hi hj⟩ hd
    | none =>
      have hcut := Fate.le_cutoff hd (le_of_fail ha.here hal hf hscope (hbranch hd))
      rw [predict_live hp hf hscope, Stage.grouped]
      exact Stage.le_ends_settled ⟨_, hmem _, hbranch hcut i b hi hj⟩ hd

/-- Nothing that is open at an instant ends before it. -/
theorem Dated.lasts (hd : a.Dated scriptOf vars now) (ha : a.Sound) (hn : a.hasEnded = false) :
    a.Lasts now now := by
  induction ha with
  | @mk a here below ih =>
    cases hp : a.phase with
    | waiting => exact .waiting hp (Nat.le_succ now)
    | working u => exact .working hp (hd.here.wakes u hp)
    | ended ms lines error =>
      rw [hasEnded_of_phase hp] at hn
      cases hn
    | fanned =>
      obtain ⟨f, hf⟩ := Option.ne_none_iff_exists'.1 (here.fanned hp)
      refine .fanned hp hf (fun _ => Nat.le_refl now) fun i b hb hj => ?_
      cases he : b.hasEnded with
      | false => exact ih b (List.mem_of_getElem? hb) (hd.branch (List.mem_of_getElem? hb)) he
      | true =>
        obtain ⟨ms, lines, error, hbp⟩ := hasEnded_iff.1 he
        exact .ended hbp (Nat.le_of_eq (hd.here.unjoined hp f i b ms lines error hf hb hbp hj).symm)

/-- A branch that is not joined does not end before the instant. -/
theorem Dated.le_ends_branch (hd : a.Dated scriptOf vars now) (ha : a.Sound) (hal : a.Alert)
    (hl : a.stage.Lasting scriptOf) (hp : a.phase = .fanned) {f : Fan} (hf : a.fan = some f)
    (hdead : ∀ d ∈ deadline, now ≤ d) (i : Nat) (b : Activity Asleep) (hb : a.branches[i]? = some b)
    (hj : f.hasJoined i = false) : now ≤ (b.predict scriptOf vars now deadline).ends := by
  have hn : a.hasEnded = false := by simp [hasEnded, hp]
  cases hd.lasts ha hn with
  | waiting hp' | working hp' | ended hp' => simp [hp] at hp'
  | fanned _ hf' _ h =>
    obtain rfl := Option.some.inj (hf.symm.trans hf')
    have hm := List.mem_of_getElem? hb
    exact (h i b hb hj).le_ends (ha.branch hm) (hal.branch hm)
      (ha.here.branch_stage hl hm) hdead

/-- Whoever is cancelled now has had the deadline now. -/
theorem predict_cancel (ha : a.Sound) (hal : a.Alert) (hl : a.stage.Lasting scriptOf)
    (hd : a.Dated scriptOf vars now) (reason : String) :
    (a.cancel reason).predict scriptOf vars now (some now) = a.predict scriptOf vars now (some now) := by
  induction ha with
  | @mk a here below ih =>
    rcases a.cancel_cases reason with e | ⟨join, hp, hf, e⟩
    · rw [e]
    · have hnow : ∀ d ∈ some now, now ≤ d := fun d hd' => Nat.le_of_eq (Option.some.inj hd')
      have hcut : Fate.cutoff a.stage.failsFast (some now) (predictAll scriptOf vars now a.branches (some now)) =
          some now :=
        Fate.cutoff_of_le (le_of_fail here hal hf rfl (hd.le_ends_branch (.mk here below) hal hl hp hf hnow))
      rw [e, predict_cancelled (by exact hp) rfl rfl, predict_live hp hf rfl, Stage.grouped, hcut]
      congr 1
      rw [predictAll_eq, predictAll_eq, List.map_map]
      refine List.map_congr_left fun b hb => ih b hb (hal.branch hb) ?_ (hd.branch hb)
      exact here.branch_stage hl hb

end StageTree.Activity

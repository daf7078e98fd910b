import Mathlib.Data.UInt
import StageTree.Retry

/-! Delays between attempts, in exact numbers. Each operation on words of 64 bits stops at the largest one,
and the cap on a delay is such a word itself: so what is cut off on the way could only have exceeded the cap,
and the delay is the one that the exact product would give. -/

namespace StageTree

theorem toNat_maxWord : maxWord.toNat = 2 ^ 64 - 1 := rfl

theorem toNat_le_maxWord (a : UInt64) : a.toNat ≤ maxWord.toNat := by
  have := a.toNat_lt
  rw [toNat_maxWord]
  omega

/-! ### Operations that stop at the largest word -/

theorem toNat_saturatingMul (a b : UInt64) :
    (saturatingMul a b).toNat = min (a.toNat * b.toNat) maxWord.toNat := by
  have hsize : UInt64.size = 2 ^ 64 := rfl
  unfold saturatingMul
  rw [toNat_maxWord, hsize]
  split
  · rename_i h
    rw [UInt64.toNat_mul, Nat.mod_eq_of_lt h]
    omega
  · rw [toNat_maxWord]
    omega

theorem toNat_saturatingSucc (a : UInt64) : (saturatingSucc a).toNat = min (a.toNat + 1) maxWord.toNat := by
  have hle := toNat_le_maxWord a
  unfold saturatingSucc
  split
  · rename_i h
    rw [h]
    omega
  · rename_i h
    have hne : a.toNat ≠ maxWord.toNat := fun e => h (UInt64.toNat_inj.1 e)
    rw [toNat_maxWord] at hle hne ⊢
    rw [UInt64.toNat_add, UInt64.toNat_one, Nat.mod_eq_of_lt (by omega)]
    omega

theorem toNat_narrow (a : UInt64) : (narrow a).toNat = min a.toNat (2 ^ 32 - 1) := by
  have hsize : UInt32.size = 2 ^ 32 := rfl
  unfold narrow
  rw [hsize]
  split
  · rename_i h
    rw [UInt64.toNat_toUInt32, Nat.mod_eq_of_lt h]
    omega
  · rw [Nat.min_eq_right (by omega)]
    rfl

theorem min_two_pow {e : Nat} (h : 64 ≤ e) : min (2 ^ e) maxWord.toNat = maxWord.toNat := by
  have hpow : 2 ^ 64 ≤ 2 ^ e := Nat.pow_le_pow_right (by omega) h
  rw [toNat_maxWord]
  omega

theorem toNat_saturatingPow2 (e : UInt32) : (saturatingPow2 e).toNat = min (2 ^ e.toNat) maxWord.toNat := by
  unfold saturatingPow2
  split
  · rename_i h
    have he : e.toNat < 64 := h
    have hpow : 2 ^ e.toNat < 2 ^ 64 := Nat.pow_lt_pow_right (by omega) he
    rw [UInt64.toNat_shiftLeft, UInt32.toNat_toUInt64, UInt64.toNat_one, Nat.mod_eq_of_lt he,
      Nat.one_shiftLeft, Nat.mod_eq_of_lt hpow, toNat_maxWord]
    omega
  · rename_i h
    exact (min_two_pow (Nat.le_of_not_lt h)).symm

/-- An exponent cut to 32 bits gives a power that is cut off just as the exact one is. -/
theorem toNat_saturatingPow2_narrow (a : UInt64) :
    (saturatingPow2 (narrow a)).toNat = min (2 ^ a.toNat) maxWord.toNat := by
  rw [toNat_saturatingPow2, toNat_narrow]
  by_cases h : a.toNat < 64
  · rw [Nat.min_eq_left (show a.toNat ≤ 2 ^ 32 - 1 by omega)]
  · rw [min_two_pow (show 64 ≤ a.toNat by omega), min_two_pow (by omega)]

/-- Under a cap within the words, neither a factor nor a product that stops at the largest word is missed. -/
theorem min_mul_min_word {base factor word cap : Nat} (hcap : cap ≤ word) :
    min (min (base * min factor word) word) cap = min cap (base * factor) := by
  rcases Nat.eq_zero_or_pos base with rfl | hbase
  · simp
  · rcases Nat.le_total factor word with h | h
    · rw [Nat.min_eq_left h]
      omega
    · -- a product with the largest word, or more, is beyond the cap
      have hword : word ≤ base * word := Nat.le_mul_of_pos_left word hbase
      have hfactor : base * word ≤ base * factor := Nat.mul_le_mul_left base h
      rw [Nat.min_eq_right h]
      omega

/-! ### Delays without their jitter -/

namespace RetryPolicy

variable (p : RetryPolicy)

/-- The delay before a retry without its jitter, in exact numbers. -/
def exactDelay (retry : Nat) : Nat :=
  match p.backoff with
  | .exponential => min p.maxDelayMs.toNat (p.baseDelayMs.toNat * 2 ^ retry)
  | .linear => min p.maxDelayMs.toNat (p.baseDelayMs.toNat * (retry + 1))
  | .constant => min p.maxDelayMs.toNat p.baseDelayMs.toNat

theorem toNat_plainDelay (retry : UInt64) : (p.plainDelay retry).toNat = p.exactDelay retry.toNat := by
  have hcap := toNat_le_maxWord p.maxDelayMs
  unfold plainDelay exactDelay
  cases p.backoff with
  | exponential =>
    simp only
    rw [UInt64.toNat_min, toNat_saturatingMul, toNat_saturatingPow2_narrow, min_mul_min_word hcap]
  | linear =>
    simp only
    rw [UInt64.toNat_min, toNat_saturatingMul, toNat_saturatingSucc, min_mul_min_word hcap]
  | constant =>
    simp only
    rw [UInt64.toNat_min, Nat.min_comm]

theorem exactDelay_le (retry : Nat) : p.exactDelay retry ≤ p.maxDelayMs.toNat := by
  unfold exactDelay
  split <;> exact Nat.min_le_left _ _

theorem exactDelay_mono {retry later : Nat} (h : retry ≤ later) : p.exactDelay retry ≤ p.exactDelay later := by
  have hpow : 2 ^ retry ≤ 2 ^ later := Nat.pow_le_pow_right (by omega) h
  have hexponential := Nat.mul_le_mul_left p.baseDelayMs.toNat hpow
  have hlinear := Nat.mul_le_mul_left p.baseDelayMs.toNat (show retry + 1 ≤ later + 1 by omega)
  unfold exactDelay
  split <;> omega

end RetryPolicy

/-! ### Jitter -/

namespace Jitter

/-- A draw from the numbers up to a word is the one that chance gives, taken into their range. -/
theorem toNat_draw (limit : UInt64) (draw : Nat) :
    (draw % (limit.toNat + 1)).toUInt64.toNat = draw % (limit.toNat + 1) := by
  have hdraw : draw % (limit.toNat + 1) < limit.toNat + 1 := Nat.mod_lt draw (by omega)
  have hlimit := limit.toNat_lt
  rw [Nat.toUInt64_eq, UInt64.toNat_ofNat_of_lt' (by simp only [UInt64.size]; omega)]

def exact (j : Jitter) (delay draw : Nat) : Nat :=
  match j with
  | none => delay
  | full => draw % (delay + 1)
  | equal => if delay / 2 = 0 then delay else delay / 2 + draw % (delay / 2 + 1)

theorem exact_full_le (delay draw : Nat) : full.exact delay draw ≤ delay :=
  Nat.le_of_lt_succ (Nat.mod_lt draw (Nat.succ_pos delay))

theorem exact_equal_bounds (delay draw : Nat) :
    delay / 2 ≤ equal.exact delay draw ∧ equal.exact delay draw ≤ delay := by
  have hdraw : draw % (delay / 2 + 1) < delay / 2 + 1 := Nat.mod_lt draw (by omega)
  unfold exact
  simp only
  split <;> omega

theorem toNat_apply (j : Jitter) (delay : UInt64) (draw : Nat) :
    (j.apply delay draw).toNat = j.exact delay.toNat draw := by
  have hhalf : (delay / 2).toNat = delay.toNat / 2 := UInt64.toNat_div delay 2
  cases j with
  | none => rfl
  | full =>
    unfold apply exact
    simp only
    split
    · rename_i h
      simp [h, Nat.mod_one]
    · exact toNat_draw delay draw
  | equal =>
    have hzero : delay / 2 = 0 ↔ delay.toNat / 2 = 0 := by
      rw [← UInt64.toNat_inj, hhalf]
      rfl
    unfold apply exact
    simp only [hzero]
    split
    · rfl
    · -- half a word and what is drawn from the numbers up to it are a word together
      have hdraw : draw % (delay.toNat / 2 + 1) < delay.toNat / 2 + 1 := Nat.mod_lt draw (by omega)
      have hdelay := delay.toNat_lt
      rw [UInt64.toNat_add, toNat_draw, hhalf, Nat.mod_eq_of_lt (by omega)]

end Jitter

/-- The delay before a retry without its jitter is the least of its cap and of what the exact product gives,
for any numbers of 64 bits and any retry: so it grows with the retries, and is never above the cap. Whatever
chance gives, the delay with its jitter is computed without an overflow, and it is that delay itself, at most
that delay, or between half of it and all of it. -/
theorem RetryPolicy.delay_exact (p : RetryPolicy) (retry : UInt64) :
    (p.plainDelay retry).toNat = p.exactDelay retry.toNat ∧
      (∀ later, retry ≤ later → p.plainDelay retry ≤ p.plainDelay later) ∧
      p.plainDelay retry ≤ p.maxDelayMs ∧
      ∀ draw, (p.delay retry draw).toNat = p.jitter.exact (p.exactDelay retry.toNat) draw ∧
        match p.jitter with
        | .none => p.delay retry draw = p.plainDelay retry
        | .full => p.delay retry draw ≤ p.plainDelay retry
        | .equal => p.plainDelay retry / 2 ≤ p.delay retry draw ∧ p.delay retry draw ≤ p.plainDelay retry := by
  have hplain := p.toNat_plainDelay retry
  refine ⟨hplain, fun later h => ?_, ?_, fun draw => ?_⟩
  · rw [UInt64.le_iff_toNat_le, hplain, p.toNat_plainDelay later]
    exact p.exactDelay_mono h
  · rw [UInt64.le_iff_toNat_le, hplain]
    exact p.exactDelay_le retry.toNat
  · have hdelay : (p.delay retry draw).toNat = p.jitter.exact (p.exactDelay retry.toNat) draw := by
      rw [← hplain]
      exact p.jitter.toNat_apply _ draw
    have hhalf : (p.plainDelay retry / 2).toNat = p.exactDelay retry.toNat / 2 := by
      rw [← hplain]
      exact UInt64.toNat_div _ 2
    refine ⟨hdelay, ?_⟩
    cases hj : p.jitter with
    | none =>
      unfold delay
      rw [hj]
      rfl
    | full =>
      rw [hj] at hdelay
      simp only [UInt64.le_iff_toNat_le, hdelay, hplain]
      exact Jitter.exact_full_le _ draw
    | equal =>
      rw [hj] at hdelay
      simp only [UInt64.le_iff_toNat_le, hdelay, hplain, hhalf]
      exact Jitter.exact_equal_bounds _ draw

end StageTree

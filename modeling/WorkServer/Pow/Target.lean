import WorkServer.Arithmetic.Power
import WorkServer.Pow.Codec
import WorkServer.Pow.Puzzle

/-!
# The target of a difficulty

`getTarget` computes the compact target. Its exponent is a multiple of 8, also where it
wraps for `alpha < 3`: then it is so large that the power vanishes.
-/

namespace WorkServer
open Tracing BigEndian

def targetExponent (alpha : BYTE) : UInt32 := (alpha.toUInt32 - 3) * 8

theorem targetExponent_of_le {alpha : BYTE} (h : 3 ≤ alpha.toNat) :
    (targetExponent alpha).toNat = 8 * (alpha.toNat - 3) := by
  have range := alpha.toNat_lt
  unfold targetExponent
  simp only [UInt32.toNat_mul, UInt32.toNat_sub, UInt8.toNat_toUInt32, UInt32.reduceToNat]
  omega

theorem targetExponent_of_lt {alpha : BYTE} (h : alpha.toNat < 3) :
    (targetExponent alpha).toNat = 2 ^ 32 - 8 * (3 - alpha.toNat) := by
  unfold targetExponent
  simp only [UInt32.toNat_mul, UInt32.toNat_sub, UInt8.toNat_toUInt32, UInt32.reduceToNat]
  omega

def mantissa (difficultyBYTE : Arr 32) : Traced (Arr 32) :=
  forUp 3 (Vector.replicate 32 0) fun i b => do write b (i + 29) (← read difficultyBYTE (i + 29))

theorem entry_mantissa (difficultyBYTE : Arr 32) {j : Nat} (hj : j < 32) :
    entry (mantissa difficultyBYTE).val j = if 29 ≤ j then entry difficultyBYTE j else 0 := by
  unfold mantissa
  rw [entry_forUp_write 29 (by omega) (fun i => entry difficultyBYTE (29 + i))
    (fun i _ w => by simp only [val_bind, read_val, Nat.add_comm i 29]), entry_replicate 0 hj]
  by_cases high : 29 ≤ j
  · rw [if_pos (by omega), if_pos high, show 29 + (j - 29) = j by omega]
  · rw [if_neg (by omega), if_neg high]

theorem value_mantissa (difficultyBYTE : Arr 32) :
    value (mantissa difficultyBYTE).val = beVal (slice difficultyBYTE 29 3) := by
  have zero : ∀ j < 29, entry (mantissa difficultyBYTE).val j = 0 := by
    intro j hj
    rw [entry_mantissa _ (by omega), if_neg (by omega)]
  rw [value_eq_suffix _ (by omega) zero, suffix_congr (w := difficultyBYTE) 29
    (fun j low hj => by rw [entry_mantissa _ hj, if_pos low]), suffix,
    slice_eq_take_drop _ (by omega), List.take_of_length_le (by simp)]

theorem getTarget_shape (target difficultyBYTE : Arr 32) : (getTarget target difficultyBYTE).val =
    (uint256Mul (Vector.replicate 32 0) (mantissa difficultyBYTE).val
      (uint256Exp (Vector.replicate 32 0) (write (Vector.replicate 32 0) 31 2).val
        (targetExponent (entry difficultyBYTE 28)) false).val).val := by
  unfold getTarget
  simp only [val_bind, read_val, uint256Init_val, mantissa, targetExponent]

/-- `getTarget` is the compact target of bytes 28 to 31, whatever `target` held before. -/
theorem getTarget_value (target difficultyBYTE : Arr 32) : value (getTarget target difficultyBYTE).val =
    compactTarget (entry difficultyBYTE 28).toNat (beVal (slice difficultyBYTE 29 3)) := by
  have power := uint256Exp_two (Vector.replicate 32 0) (targetExponent (entry difficultyBYTE 28))
    (value_lowest 2)
  rw [getTarget_shape, uint256Mul_two_pow _ power, value_mantissa, compactTarget]
  · rcases Nat.lt_or_ge (entry difficultyBYTE 28).toNat 3 with low | high
    · rw [if_neg (by omega), targetExponent_of_lt low]
      have vanishes : 2 ^ 256 ∣ 2 ^ (2 ^ 32 - 8 * (3 - (entry difficultyBYTE 28).toNat)) :=
        Nat.pow_dvd_pow 2 (by omega)
      exact Nat.mod_eq_zero_of_dvd (Dvd.dvd.mul_left vanishes _)
    · rw [if_pos high, targetExponent_of_le high, pow_mul]
      rfl
  · intro j hj
    left
    rcases Nat.lt_or_ge (entry difficultyBYTE 28).toNat 3 with low | high
    · rw [targetExponent_of_lt low,
        show (2 ^ 32 - 8 * (3 - (entry difficultyBYTE 28).toNat)) % 8 = 0 by omega]
      exact UInt8.toNat_lt _
    · rw [targetExponent_of_le high, Nat.mul_mod_right]
      exact UInt8.toNat_lt _

theorem getTarget_difficulty (target difficultyBYTE : Arr 32) :
    value (getTarget target difficultyBYTE).val = difficultyTarget (slice difficultyBYTE 28 4) := by
  rw [getTarget_value, slice_head difficultyBYTE 28 3, difficultyTarget]

/-- The 32 bytes of the target, for every difficulty: only its bytes 28 to 31 matter. -/
theorem getTarget_compact (target difficultyBYTE : Arr 32) :
    (getTarget target difficultyBYTE).val =
      encode 32 (if 3 ≤ (entry difficultyBYTE 28).toNat then
        beVal (slice difficultyBYTE 29 3) * 256 ^ ((entry difficultyBYTE 28).toNat - 3) % 2 ^ 256 else 0) ∧
    ((entry difficultyBYTE 28).toNat < 3 → (targetExponent (entry difficultyBYTE 28)).toNat =
      2 ^ 32 - 8 * (3 - (entry difficultyBYTE 28).toNat)) ∧
    ∀ target' difficultyBYTE' : Arr 32, slice difficultyBYTE' 28 4 = slice difficultyBYTE 28 4 →
      (getTarget target' difficultyBYTE').val = (getTarget target difficultyBYTE).val := by
  refine ⟨?_, targetExponent_of_lt, ?_⟩
  · rw [← compactTarget, ← getTarget_value target, encode_value]
  · intro target' difficultyBYTE' same
    rw [eq_encode (getTarget_difficulty target' difficultyBYTE'),
      eq_encode (getTarget_difficulty target difficultyBYTE), same]

theorem safe_getTarget (target difficultyBYTE : Arr 32) : Safe (getTarget target difficultyBYTE) := by
  unfold getTarget
  simp only [safe_bind, safe_read, safe_write]
  exact ⟨safe_uint256Init (by omega), safe_uint256Init (by omega), safe_uint256Init (by omega),
    safe_uint256Init (by omega), safe_uint256Init (by omega), by omega, by omega,
    safe_forUp fun i hi b => by simp; omega, safe_uint256Exp _ _ _ _, safe_uint256Mul _ _ _⟩

end WorkServer

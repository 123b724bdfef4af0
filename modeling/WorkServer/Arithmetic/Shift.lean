import WorkServer.Arithmetic.Sum

/-!
# The byte-wise left shift

`uint256_sl` moves the top bits of each byte down by `move_n` instead of `8 - move_n`,
so the carry into the next byte is right for some bytes only (`CarryKept`), and it
leaves the low bytes of `res` as they were. Where every carry is kept and the low bytes
are clear, it is the shift modulo 2^256.
-/

namespace WorkServer
open Tracing BigEndian

/-- The carry taken from byte `x` is the one that a shift by `move_n` bits needs. -/
def CarryKept (x move_n : Nat) : Prop :=
  (x &&& (0xff <<< (8 - move_n)) % 256) >>> move_n = x >>> (8 - move_n)

instance (x move_n : Nat) : Decidable (CarryKept x move_n) := inferInstanceAs (Decidable (_ = _))

theorem carryKept_of_fits {x move_n : Nat} (byte : x < 256) (bits : move_n < 8)
    (fits : x < 2 ^ (8 - move_n) ∨ move_n = 4) : CarryKept x move_n := by
  have all : ∀ m < 8, ∀ x < 256, x < 2 ^ (8 - m) ∨ m = 4 → CarryKept x m := by decide +kernel
  exact all move_n bits x byte fits

/-- Before byte `i`, the bytes of `res` from `i` on and the carry hold the shifted tail of `a`. -/
def ShiftInv (a : Arr 32) (b move_n : BYTE) (i : Nat) (t : Arr 32 × BYTE) : Prop :=
  t.2.toNat < 2 ^ move_n.toNat ∧
    suffix t.1 i + t.2.toNat * 256 ^ (32 - i) =
      suffix a (i + b.toNat) * 2 ^ move_n.toNat * 256 ^ b.toNat

section Step
variable {a : Arr 32} {b move_n : BYTE} {i : Nat} {res : Arr 32} {carry : BYTE}

theorem slByte_carry (kept : CarryKept (entry a (i + b.toNat)).toNat move_n.toNat) :
    (slByte a b move_n (UInt8.ofNat (0xff <<< (8 - move_n.toNat))) i (res, carry)).val.2.toNat =
      (entry a (i + b.toNat)).toNat / 2 ^ (8 - move_n.toNat) := by
  have byte := (entry a (i + b.toNat)).toNat_lt
  unfold slByte
  simp only [val_bind, val_pure, read_val, UInt8.toNat_ofNat']
  rw [show (2 : Nat) ^ 8 = 256 from rfl, kept, Nat.shiftRight_eq_div_pow]
  exact Nat.mod_eq_of_lt (Nat.lt_of_le_of_lt (Nat.div_le_self _ _) byte)

theorem slByte_res (small : carry.toNat < 2 ^ move_n.toNat) (mask : BYTE) :
    (slByte a b move_n mask i (res, carry)).val.1 =
      (write res i (UInt8.ofNat ((entry a (i + b.toNat)).toNat * 2 ^ move_n.toNat + carry.toNat))).val := by
  unfold slByte
  simp only [val_bind, val_pure, read_val]
  rw [← Nat.shiftLeft_add_eq_or_of_lt small, Nat.shiftLeft_eq]

end Step

theorem shifted_div (x : Nat) {m c : Nat} (bits : m < 8) (small : c < 2 ^ m) :
    (x * 2 ^ m + c) / 256 = x / 2 ^ (8 - m) := by
  have split : (256 : Nat) = 2 ^ m * 2 ^ (8 - m) := by
    rw [← pow_add, show m + (8 - m) = 8 by omega]
    norm_num
  rw [split, ← Nat.div_div_eq_div_mul, Nat.mul_comm, Nat.mul_add_div (by positivity),
    Nat.div_eq_of_lt small, Nat.add_zero]

theorem slByte_inv {a : Arr 32} {b move_n : BYTE} {i : Nat} (h : i + b.toNat < 32) (bits : move_n.toNat < 8)
    (kept : CarryKept (entry a (i + b.toNat)).toNat move_n.toNat) {t : Arr 32 × BYTE}
    (inv : ShiftInv a b move_n (i + 1) t) :
    ShiftInv a b move_n i
      (slByte a b move_n (UInt8.ofNat (0xff <<< (8 - move_n.toNat))) i t).val := by
  obtain ⟨res, carry⟩ := t
  obtain ⟨small, moved⟩ := inv
  dsimp only at small moved
  have byte := (entry a (i + b.toNat)).toNat_lt
  have crossing := shifted_div (entry a (i + b.toNat)).toNat bits small
  constructor
  · rw [slByte_carry kept, Nat.div_lt_iff_lt_mul (by positivity), ← pow_add,
      show move_n.toNat + (8 - move_n.toNat) = 8 by omega]
    exact byte
  · rw [slByte_res small, slByte_carry kept, suffix_write _ (by omega), suffix_step a h,
      UInt8.toNat_ofNat', ← crossing]
    have low : 256 ^ (32 - 1 - i) = 256 ^ (32 - 1 - (i + b.toNat)) * 256 ^ b.toNat := by
      rw [← pow_add, show 32 - 1 - (i + b.toNat) + b.toNat = 32 - 1 - i by omega]
    have high : 256 ^ (32 - i) = 256 * 256 ^ (32 - 1 - i) := by
      rw [← pow_succ', show 32 - 1 - i + 1 = 32 - i by omega]
    rw [show 32 - (i + 1) = 32 - 1 - i by omega, show i + 1 + b.toNat = i + b.toNat + 1 by omega, low]
      at moved
    rw [high, low]
    have digits : ∀ total scale : Nat, (total % 2 ^ 8 + 256 * (total / 256)) * scale = total * scale := by
      intro total scale
      rw [show (2 : Nat) ^ 8 = 256 from rfl, Nat.mod_add_div]
    have whole := digits ((entry a (i + b.toNat)).toNat * 2 ^ move_n.toNat + carry.toNat)
      (256 ^ (32 - 1 - (i + b.toNat)) * 256 ^ b.toNat)
    linarith

theorem shift_parts (shift : BYTE) :
    (shift / 8).toNat = shift.toNat / 8 ∧ (shift % 8).toNat = shift.toNat % 8 :=
  ⟨UInt8.toNat_div .., UInt8.toNat_mod ..⟩

theorem suffix_mul_mod (a : Arr 32) {b : Nat} (h : b < 32) (scale : Nat) :
    suffix a b * scale * 256 ^ b % 256 ^ 32 = value a * scale * 256 ^ b % 256 ^ 32 := by
  have range : (256 : Nat) ^ 32 = 256 ^ (32 - b) * 256 ^ b := by
    rw [← pow_add, show 32 - b + b = 32 by omega]
  rw [suffix_eq_mod, range, Nat.mul_mod_mul_right, Nat.mul_mod_mul_right, Nat.mod_mul_mod]

section Shift
variable {res a : Arr 32} {shift : BYTE}

theorem shiftInv_start (clear : ∀ i, 32 - shift.toNat / 8 ≤ i → i < 32 → entry res i = 0) :
    ShiftInv a (shift / 8) (shift % 8) (32 - (shift / 8).toNat) (res, 0) := by
  obtain ⟨bytes, bits⟩ := shift_parts shift
  have range := shift.toNat_lt
  refine ⟨by simp, ?_⟩
  have empty : suffix res (32 - (shift / 8).toNat) = 0 :=
    (suffix_eq_zero res _).mpr fun j low => clear j (by omega)
  rw [empty, show 32 - (shift / 8).toNat + (shift / 8).toNat = 32 by omega, suffix_end]
  simp

theorem uint256Sl_inv (moves : shift ≠ 0)
    (kept : ∀ j < 32, CarryKept (entry a j).toNat (shift.toNat % 8))
    (clear : ∀ i, 32 - shift.toNat / 8 ≤ i → i < 32 → entry res i = 0) :
    ∃ carry, ShiftInv a (shift / 8) (shift % 8) 0 ((uint256Sl res a shift).val, carry) := by
  obtain ⟨bytes, bits⟩ := shift_parts shift
  have final := forDown_inv (ShiftInv a (shift / 8) (shift % 8)) (shiftInv_start clear)
    fun i hi t => slByte_inv (by omega) (by omega) (by rw [bits]; exact kept _ (by omega))
  unfold uint256Sl
  dsimp only
  rw [if_neg moves]
  exact ⟨_, final⟩

/-- `uint256_sl` is the shift modulo 2^256 where the carries are kept and `res` is clear below. -/
theorem uint256Sl_value (kept : ∀ j < 32, CarryKept (entry a j).toNat (shift.toNat % 8))
    (clear : ∀ i, 32 - shift.toNat / 8 ≤ i → i < 32 → entry res i = 0) :
    value (uint256Sl res a shift).val = value a * 2 ^ shift.toNat % 2 ^ 256 := by
  by_cases moves : shift = 0
  · unfold uint256Sl
    rw [if_pos moves, memcpy_all, moves]
    simpa using (Nat.mod_eq_of_lt (value_lt a)).symm
  · obtain ⟨bytes, bits⟩ := shift_parts shift
    have range := shift.toNat_lt
    obtain ⟨carry, -, moved⟩ := uint256Sl_inv moves kept clear
    rw [Nat.zero_add, bytes, bits] at moved
    have result := suffix_mul_mod a (b := shift.toNat / 8) (by omega) (2 ^ (shift.toNat % 8))
    rw [← moved, Nat.sub_zero, Nat.add_mul_mod_self_right, Nat.mod_eq_of_lt (suffix_lt _ 0)] at result
    rw [value, show (2 : Nat) ^ 256 = 256 ^ 32 by norm_num, result, Nat.mul_assoc,
      show (256 : Nat) = 2 ^ 8 by norm_num, ← pow_mul, ← pow_add, Nat.mod_add_div]

end Shift

end WorkServer

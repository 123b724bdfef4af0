import WorkServer.Lib.BigEndian
import WorkServer.Uint256

/-!
# The ripple-carry sum

`uint256_add` computes the sum modulo 2^256. The carry of each byte waits in the high
byte of the 16-bit `temp`, which never exceeds 511.
-/

namespace WorkServer
open Tracing BigEndian

theorem uint256Init_val (u : Arr 32) : (uint256Init u).val = Vector.replicate 32 0 := by
  apply entry_ext
  intro j hj
  unfold uint256Init
  rw [entry_forUp_write 0 (by omega) (fun _ => 0) (fun i _ w => by rw [Nat.zero_add]),
    if_pos (by omega), entry_replicate 0 hj]

theorem value_zero : value (Vector.replicate 32 0 : Arr 32) = 0 := value_replicate_zero 32

/-- Before byte `i`, `res` holds the low bytes of the sum and `temp` the carry. -/
def SumInv (aa bb : Arr 32) (i : Nat) (t : UInt16 × Arr 32) : Prop :=
  t.1.toNat ≤ 511 ∧
    suffix t.2 i + t.1.toNat / 256 * 256 ^ (32 - i) = suffix aa i + suffix bb i

theorem addByte_temp (aa bb : Arr 32) (i : Nat) {temp : UInt16} (small : temp.toNat ≤ 511) (res : Arr 32) :
    (addByte aa bb i (temp, res)).val.1.toNat =
      temp.toNat / 256 + (entry aa i).toNat + (entry bb i).toNat := by
  have ha := (entry aa i).toNat_lt
  have hb := (entry bb i).toNat_lt
  have carry : (temp >>> 8).toNat = temp.toNat / 256 := by
    simp [UInt16.toNat_shiftRight, Nat.shiftRight_eq_div_pow]
  unfold addByte
  simp only [val_bind, val_pure, read_val, UInt16.toNat_add, UInt8.toNat_toUInt16, carry]
  omega

theorem addByte_res (aa bb : Arr 32) (i : Nat) (temp : UInt16) (res : Arr 32) :
    (addByte aa bb i (temp, res)).val.2 =
      (write res i (UInt8.ofNat (addByte aa bb i (temp, res)).val.1.toNat)).val := by
  unfold addByte
  simp only [val_bind, val_pure, read_val]
  congr 2
  apply UInt8.toNat_inj.mp
  simp [Nat.and_two_pow_sub_one_eq_mod _ 8]

theorem addByte_inv (aa bb : Arr 32) {i : Nat} (h : i < 32) {t : UInt16 × Arr 32}
    (inv : SumInv aa bb (i + 1) t) : SumInv aa bb i (addByte aa bb i t).val := by
  obtain ⟨temp, res⟩ := t
  obtain ⟨small, sum⟩ := inv
  dsimp only at small sum
  have next := addByte_temp aa bb i small res
  have ha := (entry aa i).toNat_lt
  have hb := (entry bb i).toNat_lt
  refine ⟨by rw [next]; omega, ?_⟩
  rw [addByte_res, suffix_write _ h, suffix_step aa h, suffix_step bb h, UInt8.toNat_ofNat']
  generalize (addByte aa bb i (temp, res)).val.1.toNat = total at next ⊢
  have scale : 256 ^ (32 - i) = 256 * 256 ^ (31 - i) := by
    rw [← pow_succ', show 31 - i + 1 = 32 - i by omega]
  simp only [show 32 - (i + 1) = 31 - i by omega, show 32 - 1 - i = 31 - i by omega] at sum ⊢
  have digits : (total % 2 ^ 8 + 256 * (total / 256)) * 256 ^ (31 - i) = total * 256 ^ (31 - i) := by
    rw [show (2 : Nat) ^ 8 = 256 from rfl, Nat.mod_add_div]
  rw [scale]
  rw [next] at digits ⊢
  linarith

theorem uint256Add_loop (res a b : Arr 32) :
    (uint256Add res a b).val = (forDown 32 (0, res) (addByte a b)).val.2 := by
  unfold uint256Add
  simp only [val_bind, val_map, memcpy_all]

/-- `uint256_add` is addition modulo 2^256, whatever `res` held before. -/
theorem uint256Add_value (res a b : Arr 32) :
    value (uint256Add res a b).val = (value a + value b) % 2 ^ 256 := by
  have final : SumInv a b 0 (forDown 32 (0, res) (addByte a b)).val := by
    refine forDown_inv (SumInv a b) ⟨Nat.zero_le _, ?_⟩ fun i hi t => addByte_inv a b hi
    simp [suffix_end]
  obtain ⟨-, sum⟩ := final
  have range := value_lt (forDown 32 (0, res) (addByte a b)).val.2
  rw [uint256Add_loop, show (2 : Nat) ^ 256 = 256 ^ 32 by norm_num, value, value, value, ← sum, Nat.sub_zero,
    Nat.add_mul_mod_self_right]
  exact (Nat.mod_eq_of_lt range).symm

/-! ### The temporary -/

/-- The loop variables of `uint256_add` when bytes 31 down to `i` are done. -/
def sumState (res a b : Arr 32) (i : Nat) : UInt16 × Arr 32 := (forDownTo 32 i (0, res) (addByte a b)).val

theorem uint256Add_rest (res a b : Arr 32) {i : Nat} (h : i ≤ 32) :
    (uint256Add res a b).val = (forDown i (sumState res a b i) (addByte a b)).val.2 := by
  rw [uint256Add_loop, sumState, forDownTo_rest h]

theorem sumState_inv (res a b : Arr 32) {i : Nat} (h : i ≤ 32) : SumInv a b i (sumState res a b i) := by
  refine forDownTo_inv (SumInv a b) h ⟨Nat.zero_le _, ?_⟩ fun i hi t => addByte_inv a b hi
  simp [suffix_end]

theorem sumState_temp (res a b : Arr 32) {i : Nat} (h : i < 32) :
    (sumState res a b i).1.toNat =
      (sumState res a b (i + 1)).1.toNat / 256 + (entry a i).toNat + (entry b i).toNat := by
  have small := (sumState_inv res a b (i := i + 1) h).1
  rw [sumState, forDownTo_step h]
  exact addByte_temp a b i small _

/-- The sum is encoded whole. In every iteration `temp` stays within 511, after each of its
three assignments, and the carry that it keeps in its high byte is that of the sum. -/
theorem uint256Add_encode (res a b : Arr 32) :
    (uint256Add res a b).val = encode 32 ((value a + value b) % 2 ^ 256) ∧
      ∀ i < 32, (uint256Add res a b).val = (forDown (i + 1) (sumState res a b (i + 1)) (addByte a b)).val.2 ∧
        sumState res a b i = (addByte a b i (sumState res a b (i + 1))).val ∧
        (sumState res a b (i + 1)).1.toNat ≤ 511 ∧
        ((sumState res a b (i + 1)).1 >>> 8).toNat ≤ 511 ∧
        ((sumState res a b (i + 1)).1 >>> 8 + (entry a i).toUInt16).toNat ≤ 511 ∧
        (sumState res a b i).1.toNat ≤ 511 ∧
        (sumState res a b i).1.toNat =
          (sumState res a b (i + 1)).1.toNat / 256 + (entry a i).toNat + (entry b i).toNat := by
  refine ⟨eq_encode (uint256Add_value res a b), fun i hi => ?_⟩
  have before := (sumState_inv res a b (i := i + 1) hi).1
  have after := (sumState_inv res a b (i := i) (Nat.le_of_lt hi)).1
  have byte := (entry a i).toNat_lt
  have carry : ((sumState res a b (i + 1)).1 >>> 8).toNat = (sumState res a b (i + 1)).1.toNat / 256 := by
    simp [UInt16.toNat_shiftRight, Nat.shiftRight_eq_div_pow]
  refine ⟨uint256Add_rest res a b hi, forDownTo_step hi _ _, before, ?_, ?_, after, sumState_temp res a b hi⟩
  · rw [carry]
    exact (Nat.div_le_self _ _).trans before
  · rw [UInt16.toNat_add, UInt8.toNat_toUInt16, carry]
    omega

end WorkServer

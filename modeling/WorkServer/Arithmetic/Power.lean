import Mathlib.Data.Nat.Bitwise
import WorkServer.Arithmetic.Shift

/-!
# Products by powers of two

On general operands `uint256_mul` inherits the lost carries of `uint256_sl`. A product
by a power of two makes a single shift into a clear array, and the halving loop of
`uint256_exp`, started from 2, only ever shifts one set bit by amounts that keep every
carry: powers of two are exact for every exponent.
-/

namespace WorkServer
open Tracing BigEndian

theorem bit_test (b : Arr 32) {i : Nat} (h : i < 256) :
    (entry b (i / 8)).toNat &&& 1 <<< (7 - i % 8) > 0 ↔ (value b).testBit (255 - i) = true := by
  rw [testBit_value b (by omega), show 32 - 1 - (255 - i) / 8 = i / 8 by omega,
    show (255 - i) % 8 = 7 - i % 8 by omega, Nat.one_shiftLeft, Nat.and_two_pow]
  cases (entry b (i / 8)).toNat.testBit (7 - i % 8) <;> simp

section Mul
variable {aa bb : Arr 32}

theorem mulBit_clear {i : Nat} (h : i < 256) (clear : (value bb).testBit (255 - i) = false)
    (t : Arr 32 × Arr 32) : (mulBit aa bb i t).val = t := by
  obtain ⟨temp, acc⟩ := t
  have skip : ¬ (entry bb (i / 8)).toNat &&& 1 <<< (7 - i % 8) > 0 := by
    rw [bit_test bb h, clear]
    simp
  unfold mulBit
  simp only [val_bind, read_val]
  rw [if_neg skip, val_pure]

theorem mulBit_set {i : Nat} (h : i < 256) (set : (value bb).testBit (255 - i) = true)
    (temp acc : Arr 32) : (mulBit aa bb i (temp, acc)).val =
      let temp := (uint256Sl temp aa (UInt8.ofNat (255 - i))).val
      (temp, (uint256Add acc acc temp).val) := by
  have take : (entry bb (i / 8)).toNat &&& 1 <<< (7 - i % 8) > 0 := (bit_test bb h).mpr set
  unfold mulBit
  simp only [val_bind, read_val]
  rw [if_pos take]
  rfl

theorem uint256Mul_loop (res a b : Arr 32) : (uint256Mul res a b).val =
    (forDown 256 (Vector.replicate 32 0, Vector.replicate 32 0) (mulBit a b)).val.2 := by
  unfold uint256Mul
  simp only [val_bind, memcpy_all, uint256Init_val]

theorem uint256Mul_of_zero (res a : Arr 32) {b : Arr 32} (zero : value b = 0) :
    value (uint256Mul res a b).val = 0 := by
  have idle : (forDown 256 (Vector.replicate 32 0, Vector.replicate 32 0) (mulBit a b)).val =
      (Vector.replicate 32 0, Vector.replicate 32 0) := by
    refine forDown_inv (n := 256) (fun _ t => t = (Vector.replicate 32 0, Vector.replicate 32 0)) rfl ?_
    rintro i hi t rfl
    exact mulBit_clear hi (by rw [zero]; exact Nat.zero_testBit _) _
  rw [uint256Mul_loop, idle, value_zero]

/-- Before bit `i`, with `2 ^ q` the multiplier: nothing done, or the one shift done. -/
def BitInv (a : Arr 32) (q i : Nat) (t : Arr 32 × Arr 32) : Prop :=
  (255 - q < i → t = (Vector.replicate 32 0, Vector.replicate 32 0)) ∧
    (i ≤ 255 - q → value t.2 = value (uint256Sl (Vector.replicate 32 0) a (UInt8.ofNat q)).val)

theorem mulBit_inv {a b : Arr 32} {q : Nat} (hq : q < 256) (bit : value b = 2 ^ q) {i : Nat} (hi : i < 256)
    {t : Arr 32 × Arr 32} (inv : BitInv a q (i + 1) t) : BitInv a q i (mulBit a b i t).val := by
  rcases Nat.lt_trichotomy i (255 - q) with below | here | above
  · rw [mulBit_clear hi (by rw [bit, Nat.testBit_two_pow_of_ne (by omega)])]
    exact ⟨fun h => by omega, fun _ => inv.2 (by omega)⟩
  · have place : 255 - i = q := by omega
    obtain rfl := inv.1 (by omega)
    refine ⟨fun h => by omega, fun _ => ?_⟩
    rw [mulBit_set hi (by rw [bit, place, Nat.testBit_two_pow_self])]
    dsimp only
    rw [uint256Add_value, value_zero, Nat.zero_add, place]
    exact Nat.mod_eq_of_lt (by simpa using value_lt (uint256Sl (Vector.replicate 32 0) a (UInt8.ofNat q)).val)
  · rw [mulBit_clear hi (by rw [bit, Nat.testBit_two_pow_of_ne (by omega)])]
    exact ⟨fun _ => inv.1 (by omega), fun h => by omega⟩

theorem uint256Mul_of_bit (res a : Arr 32) {b : Arr 32} {q : Nat} (hq : q < 256) (bit : value b = 2 ^ q) :
    value (uint256Mul res a b).val = value (uint256Sl (Vector.replicate 32 0) a (UInt8.ofNat q)).val := by
  have start : BitInv a q 256 (Vector.replicate 32 0, Vector.replicate 32 0) :=
    ⟨fun _ => rfl, fun h => by omega⟩
  have final : BitInv a q 0 (forDown 256 (Vector.replicate 32 0, Vector.replicate 32 0) (mulBit a b)).val :=
    forDown_inv (n := 256) (BitInv a q) start fun i hi t => mulBit_inv hq bit hi
  rw [uint256Mul_loop]
  exact final.2 (by omega)

theorem uint256Mul_two_pow (res : Arr 32) {a b : Arr 32} {q : Nat} (power : value b = 2 ^ q % 2 ^ 256)
    (fits : ∀ j < 32, (entry a j).toNat < 2 ^ (8 - q % 8) ∨ q % 8 = 4) :
    value (uint256Mul res a b).val = value a * 2 ^ q % 2 ^ 256 := by
  by_cases hq : q < 256
  · have amount : (UInt8.ofNat q).toNat = q := UInt8.toNat_ofNat_of_lt' hq
    rw [Nat.mod_eq_of_lt (Nat.pow_lt_pow_right (by norm_num) hq)] at power
    rw [uint256Mul_of_bit res a hq power, uint256Sl_value, amount]
    · intro j hj
      rw [amount]
      exact carryKept_of_fits (entry a j).toNat_lt (Nat.mod_lt _ (by norm_num)) (fits j hj)
    · intro i _ hi
      exact entry_replicate 0 hi
  · have high : (2 : Nat) ^ 256 ∣ 2 ^ q := Nat.pow_dvd_pow 2 (by omega)
    rw [Nat.mod_eq_zero_of_dvd high] at power
    rw [uint256Mul_of_zero res a power, Nat.mod_eq_zero_of_dvd (Dvd.dvd.mul_left high _)]

end Mul

theorem two_pow_byte (p k : Nat) : 2 ^ p / 256 ^ k % 256 ≤ 2 ^ (p % 8) := by
  rw [byte_pow]
  rcases Nat.lt_or_ge p (8 * k) with below | reached
  · rw [Nat.div_eq_of_lt (Nat.pow_lt_pow_right (by norm_num) below)]
    simp
  · rw [Nat.pow_div reached (by norm_num)]
    rcases Nat.lt_or_ge (p - 8 * k) 8 with inside | above
    · rw [show p % 8 = p - 8 * k by omega]
      exact Nat.mod_le _ _
    · have multiple : 256 ∣ 2 ^ (p - 8 * k) := Nat.pow_dvd_pow 2 (m := 8) above
      rw [Nat.mod_eq_zero_of_dvd multiple]
      exact Nat.zero_le _

theorem entry_of_two_pow {a : Arr 32} {p : Nat} (power : value a = 2 ^ p % 2 ^ 256) {j : Nat} (hj : j < 32) :
    (entry a j).toNat ≤ 2 ^ (p % 8) := by
  rw [toNat_entry a hj, power]
  by_cases hp : p < 256
  · rw [Nat.mod_eq_of_lt (Nat.pow_lt_pow_right (by norm_num) hp)]
    exact two_pow_byte p _
  · rw [Nat.mod_eq_zero_of_dvd (Nat.pow_dvd_pow 2 (by omega))]
    simp

theorem uint256Mul_powers (res : Arr 32) {a b : Arr 32} {p q : Nat} (left : value a = 2 ^ p % 2 ^ 256)
    (right : value b = 2 ^ q % 2 ^ 256) (places : p % 8 + q % 8 < 8 ∨ q % 8 = 4) :
    value (uint256Mul res a b).val = 2 ^ (p + q) % 2 ^ 256 := by
  rw [uint256Mul_two_pow res right, left, Nat.mod_mul_mod, pow_add]
  intro j hj
  refine places.imp_left fun room => ?_
  calc (entry a j).toNat ≤ 2 ^ (p % 8) := entry_of_two_pow left hj
    _ < 2 ^ (8 - q % 8) := Nat.pow_lt_pow_right (by norm_num) (by omega)

/-! ### The halving loop -/

/-- The loop has squared `acc` `k` times and collected the low `k` bits `t` of the exponent. -/
structure PowInv (acc temp : Arr 32) (k t : Nat) : Prop where
  acc_eq : value acc = 2 ^ 2 ^ k % 2 ^ 256
  temp_eq : value temp = 2 ^ t % 2 ^ 256
  low : t < 2 ^ k

theorem place_of_square {k : Nat} (h : 3 ≤ k) : 2 ^ k % 8 = 0 := by
  obtain ⟨d, rfl⟩ := Nat.exists_eq_add_of_le h
  rw [pow_add]
  exact Nat.mul_mod_right 8 _

namespace PowInv
variable {acc temp : Arr 32} {k t : Nat}

theorem square_places (k : Nat) : 2 ^ k % 8 + 2 ^ k % 8 < 8 ∨ 2 ^ k % 8 = 4 := by
  rcases Nat.lt_or_ge k 3 with small | large
  · interval_cases k <;> decide
  · rw [place_of_square large]
    decide

theorem product_places (inv : PowInv acc temp k t) : 2 ^ k % 8 + t % 8 < 8 := by
  have low := inv.low
  rcases Nat.lt_or_ge k 3 with small | large
  · interval_cases k <;> omega
  · rw [place_of_square large]
    omega

theorem even (inv : PowInv acc temp k t) : PowInv (uint256Mul acc acc acc).val temp (k + 1) t where
  acc_eq := by
    rw [uint256Mul_powers acc inv.acc_eq inv.acc_eq (square_places k), ← Nat.two_mul, ← pow_succ']
  temp_eq := inv.temp_eq
  low := Nat.lt_of_lt_of_le inv.low (Nat.pow_le_pow_right (by norm_num) (Nat.le_succ k))

theorem odd (inv : PowInv acc temp k t) :
    PowInv (uint256Mul acc acc acc).val (uint256Mul temp acc temp).val (k + 1) (2 ^ k + t) := by
  refine ⟨inv.even.acc_eq, ?_, ?_⟩
  · exact uint256Mul_powers temp inv.acc_eq inv.temp_eq (.inl inv.product_places)
  · have low := inv.low
    rw [pow_succ]
    omega

end PowInv

theorem expLoop_inv (exp : UInt32) (acc temp : Arr 32) {k t : Nat} (inv : PowInv acc temp k t)
    (positive : 0 < exp.toNat) : ∃ k' t',
      PowInv (expLoop exp acc temp).val.1 (expLoop exp acc temp).val.2 k' t' ∧
        2 ^ k' + t' = exp.toNat * 2 ^ k + t := by
  induction exp, acc, temp using expLoop.induct generalizing k t with
  | case1 exp acc temp more even ih =>
    have bound : 1 < exp.toNat := more
    have parity : exp.toNat % 2 = 0 := by
      simpa using congrArg UInt32.toNat even
    obtain ⟨k', t', final, total⟩ := ih _ inv.even (by rw [toNat_half]; omega)
    unfold expLoop
    rw [if_pos more, if_pos even, val_bind]
    refine ⟨k', t', final, ?_⟩
    rw [total, toNat_half, pow_succ', ← Nat.mul_assoc, Nat.div_mul_cancel (Nat.dvd_of_mod_eq_zero parity)]
  | case2 exp acc temp more odd ih =>
    have bound : 1 < exp.toNat := more
    have parity : exp.toNat % 2 = 1 := by
      have low : exp.toNat % 2 ≠ 0 := fun zero => odd (UInt32.toNat_inj.mp (by simpa using zero))
      omega
    obtain ⟨k', t', final, total⟩ := ih _ _ inv.odd (by rw [toNat_half_pred more]; omega)
    unfold expLoop
    rw [if_pos more, if_neg odd, val_bind, val_bind]
    refine ⟨k', t', final, ?_⟩
    have half : (exp.toNat - 1) / 2 * 2 + 1 = exp.toNat := by omega
    rw [total, toNat_half_pred more, pow_succ', ← Nat.mul_assoc, ← Nat.add_assoc, ← Nat.succ_mul,
      Nat.succ_eq_add_one, half]
  | case3 exp acc temp done =>
    have bound : ¬ 1 < exp.toNat := done
    unfold expLoop
    rw [if_neg done]
    exact ⟨k, t, inv, by rw [show exp.toNat = 1 by omega, Nat.one_mul]⟩

theorem value_lowest (x : BYTE) : value (write (Vector.replicate 32 0 : Arr 32) 31 x).val = x.toNat := by
  have high : ∀ j < 31, entry (write (Vector.replicate 32 0 : Arr 32) 31 x).val j = 0 := by
    intro j hj
    rw [entry_write _ (by omega), if_neg (by omega), entry_replicate 0 (by omega)]
  rw [value_eq_suffix _ (by omega) high, suffix_write _ (by omega), suffix_end]
  simp

theorem uint256Exp_zero (res base : Arr 32) (resIsBase : Bool) :
    value (uint256Exp res base 0 resIsBase).val = 1 := by
  have cleared : (write (forUp 31 res fun i res => write res i 0).val 31 1).val =
      (write (Vector.replicate 32 0) 31 1).val := by
    apply entry_ext
    intro j hj
    rw [entry_write _ (by omega), entry_write _ (by omega)]
    split
    · rfl
    · rw [entry_forUp_write 0 (by omega) (fun _ => 0) (fun i _ w => by rw [Nat.zero_add]),
        if_pos (by omega), entry_replicate 0 hj]
  unfold uint256Exp
  rw [if_pos rfl, val_bind, cleared, value_lowest]
  rfl

theorem uint256Exp_loop (res base : Arr 32) {exp : UInt32} (positive : exp ≠ 0) (resIsBase : Bool) :
    (uint256Exp res base exp resIsBase).val =
      let start := if resIsBase then Vector.replicate 32 0 else base
      let last := (expLoop exp start (write (Vector.replicate 32 0) 31 1).val).val
      (uint256Mul res last.1 last.2).val := by
  unfold uint256Exp
  rw [if_neg positive]
  cases resIsBase <;> simp [uint256Init_val, loadBase, memcpy_all]

/-- `uint256_exp` of 2, for every exponent and whatever `res` held before. -/
theorem uint256Exp_two (res : Arr 32) {two : Arr 32} (exp : UInt32) (base : value two = 2) :
    value (uint256Exp res two exp false).val = 2 ^ exp.toNat % 2 ^ 256 := by
  by_cases zero : exp = 0
  · rw [zero, uint256Exp_zero]
    rfl
  · have positive : 0 < exp.toNat := by
      rw [Nat.pos_iff_ne_zero]
      exact fun h => zero (UInt32.toNat_inj.mp h)
    have start : PowInv two (write (Vector.replicate 32 0) 31 1).val 0 0 :=
      ⟨by rw [base]; norm_num, by rw [value_lowest]; rfl, by norm_num⟩
    obtain ⟨k, t, final, total⟩ := expLoop_inv exp _ _ start positive
    rw [uint256Exp_loop res two zero]
    dsimp only
    rw [if_neg Bool.false_ne_true,
      uint256Mul_powers res final.acc_eq final.temp_eq (.inl final.product_places), total]
    simp

/-- Powers of two, as bytes: exact for every exponent, and zero from 256 on. -/
theorem uint256Exp_two_encode (res : Arr 32) (n : UInt32) :
    (uint256Exp res (encode 32 2) n false).val = encode 32 (2 ^ n.toNat % 2 ^ 256) ∧
      (256 ≤ n.toNat → (uint256Exp res (encode 32 2) n false).val = Vector.replicate 32 0) := by
  have power := eq_encode (uint256Exp_two res n (value_encode 32 2))
  refine ⟨power, fun large => ?_⟩
  have vanishes : (2 : Nat) ^ 256 ∣ 2 ^ n.toNat := Nat.pow_dvd_pow 2 large
  rw [power, Nat.mod_eq_zero_of_dvd vanishes, encode_zero]

end WorkServer

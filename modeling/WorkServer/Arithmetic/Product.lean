import Mathlib.Algebra.Order.Ring.GeomSum
import WorkServer.Arithmetic.Carries

/-!
# Products of general operands

`uint256_mul` adds up shifts of its first operand, all made in one scratch array. The
product is right where no shift goes wrong. Where some do, their errors may cancel; they
do not where all of them are stale bytes, or where the last shift alone goes wrong.
-/

namespace WorkServer
open Tracing BigEndian

/-! ### The sum of the shifts -/

/-- The low `q / 8` bytes of the shift before bit `q` of `b` are clear, or it is the first. -/
def ScratchClear (a b : Arr 32) (q : Nat) : Prop :=
  value b % 2 ^ q = 0 ∨ 256 ^ (q / 8) ∣ value a * 2 ^ Nat.log 2 (value b % 2 ^ q)

/-- No shift that `uint256_mul` makes goes wrong. -/
def ProductKept (a b : Arr 32) : Prop :=
  ∀ q < 256, (value b).testBit q = true → ShiftKept a q ∧ ScratchClear a b q

instance (a b : Arr 32) (q : Nat) : Decidable (ScratchClear a b q) := inferInstanceAs (Decidable (_ ∨ _))

instance (a b : Arr 32) : Decidable (ProductKept a b) := Nat.decidableBallLT _ _

def ProductRight (res a b : Arr 32) : Prop :=
  value (uint256Mul res a b).val = value a * value b % 2 ^ 256

/-- The scratch array once the set bits of `b` below `q` are done. -/
def scratch (a b : Arr 32) : Nat → Arr 32
  | 0 => Vector.replicate 32 0
  | q + 1 =>
    if (value b).testBit q then (uint256Sl (scratch a b q) a (UInt8.ofNat q)).val else scratch a b q

/-- How far the shift for bit `q` is from what it has to be, for a set bit of `b`. -/
def shiftError (a b : Arr 32) (q : Nat) : Int :=
  if (value b).testBit q then (value (scratch a b (q + 1)) : Int) - (value a * 2 ^ q % 2 ^ 256 : Nat) else 0

def shiftSum (a b : Arr 32) (n : Nat) : Nat :=
  ∑ q ∈ Finset.range n, if (value b).testBit q then value (scratch a b (q + 1)) else 0

/-- Before bit `i`, with the low bits of `b` done. -/
def ProductInv (a b : Arr 32) (i : Nat) (t : Arr 32 × Arr 32) : Prop :=
  t.1 = scratch a b (256 - i) ∧ value t.2 = shiftSum a b (256 - i) % 2 ^ 256

theorem mulBit_product {a b : Arr 32} {i : Nat} (hi : i < 256) {t : Arr 32 × Arr 32}
    (inv : ProductInv a b (i + 1) t) : ProductInv a b i (mulBit a b i t).val := by
  obtain ⟨temp, acc⟩ := t
  unfold ProductInv at inv ⊢
  rw [show 256 - (i + 1) = 255 - i by omega] at inv
  rw [show 256 - i = 255 - i + 1 by omega, shiftSum, Finset.sum_range_succ, ← shiftSum, scratch]
  obtain ⟨last, sum⟩ := inv
  dsimp only at last sum
  cases bit : (value b).testBit (255 - i) with
  | false =>
    rw [mulBit_clear hi bit, if_neg Bool.false_ne_true, if_neg Bool.false_ne_true, Nat.add_zero]
    exact ⟨last, sum⟩
  | true =>
    rw [mulBit_set hi bit, if_pos rfl, if_pos rfl, last]
    refine ⟨rfl, ?_⟩
    dsimp only
    rw [uint256Add_value, sum, Nat.mod_add_mod]

theorem uint256Mul_shiftSum (res a b : Arr 32) :
    value (uint256Mul res a b).val = shiftSum a b 256 % 2 ^ 256 := by
  have start : ProductInv a b 256 (Vector.replicate 32 0, Vector.replicate 32 0) :=
    ⟨rfl, value_replicate_zero 32⟩
  have final : ProductInv a b 0 _ := forDown_inv (ProductInv a b) start fun i hi t => mulBit_product hi
  rw [uint256Mul_loop, final.2]

/-! ### The errors of the shifts -/

theorem shiftError_clear {a b : Arr 32} {q : Nat} (clear : (value b).testBit q = false) : shiftError a b q = 0 := by
  unfold shiftError
  rw [clear, if_neg Bool.false_ne_true]

/-- With an exact scratch array behind it, a shift is exact if and only if nothing is lost. -/
theorem mulBit_exact_iff {a b temp : Arr 32} {q : Nat} (hq : q < 256)
    (scratch : value temp = if value b % 2 ^ q = 0 then 0
      else value a * 2 ^ Nat.log 2 (value b % 2 ^ q) % 2 ^ 256) :
    value (uint256Sl temp a (UInt8.ofNat q)).val = value a * 2 ^ q % 2 ^ 256 ↔
      ShiftKept a q ∧ ScratchClear a b q := by
  have amount : (UInt8.ofNat q).toNat = q := UInt8.toNat_ofNat_of_lt' hq
  have exact_iff := uint256Sl_exact_iff temp a (UInt8.ofNat q)
  rw [amount] at exact_iff
  have unwritten : (∀ j < 32, 32 ≤ j + q / 8 → entry temp j = 0) ↔ 256 ^ (q / 8) ∣ value temp := by
    have low := suffix_eq_zero temp (32 - q / 8)
    rw [suffix_eq_mod, show 32 - (32 - q / 8) = q / 8 by omega, ← Nat.dvd_iff_mod_eq_zero] at low
    rw [low]
    exact ⟨fun clear j above hj => clear j hj (by omega), fun clear j hj above => clear j (by omega) hj⟩
  rw [exact_iff, unwritten, scratch, ScratchClear]
  refine and_congr_right fun _ => ?_
  split
  · rename_i first
    simp [first]
  · rename_i later
    have range : 256 ^ (q / 8) ∣ 2 ^ 256 := by
      rw [show (256 : Nat) = 2 ^ 8 from rfl, ← pow_mul]
      exact pow_dvd_pow 2 (by omega)
    rw [or_iff_right later, Nat.dvd_mod_iff range]

theorem mod_two_pow_of_clear {b q : Nat} (clear : b.testBit q = false) : b % 2 ^ (q + 1) = b % 2 ^ q := by
  rw [Nat.testBit_eq_decide_div_mod_eq, decide_eq_false_iff_not] at clear
  rw [Nat.mod_pow_succ, show b / 2 ^ q % 2 = 0 by omega, Nat.mul_zero, Nat.add_zero]

theorem mod_two_pow_of_set {b q : Nat} (set : b.testBit q = true) :
    b % 2 ^ (q + 1) = b % 2 ^ q + 2 ^ q := by
  rw [Nat.testBit_eq_decide_div_mod_eq, decide_eq_true_eq] at set
  rw [Nat.mod_pow_succ, set, Nat.mul_one]

/-- Below the first shift that goes wrong, the scratch array holds the last shift. -/
theorem scratch_value {a b : Arr 32} {q : Nat} (exact : ∀ p < q, shiftError a b p = 0) :
    value (scratch a b q) = if value b % 2 ^ q = 0 then 0
      else value a * 2 ^ Nat.log 2 (value b % 2 ^ q) % 2 ^ 256 := by
  induction q with
  | zero => simp [scratch, value_replicate_zero, Nat.mod_one]
  | succ q ih =>
    have error := exact q (Nat.lt_succ_self q)
    unfold shiftError at error
    cases bit : (value b).testBit q with
    | false =>
      rw [scratch, bit, if_neg Bool.false_ne_true, mod_two_pow_of_clear bit]
      exact ih fun p hp => exact p (Nat.lt_succ_of_lt hp)
    | true =>
      rw [bit, if_pos rfl, sub_eq_zero, Nat.cast_inj] at error
      have below : value b % 2 ^ q < 2 ^ q := Nat.mod_lt _ (by positivity)
      have top : Nat.log 2 (value b % 2 ^ q + 2 ^ q) = q :=
        Nat.log_eq_of_pow_le_of_lt_pow (Nat.le_add_left _ _) (by rw [pow_succ]; omega)
      have positive : 0 < 2 ^ q := by positivity
      rw [error, mod_two_pow_of_set bit, top, if_neg (by omega)]

theorem shiftError_eq_zero_iff {a b : Arr 32} {q : Nat} (hq : q < 256) (set : (value b).testBit q = true)
    (exact : ∀ p < q, shiftError a b p = 0) : shiftError a b q = 0 ↔ ShiftKept a q ∧ ScratchClear a b q := by
  unfold shiftError
  rw [if_pos set, scratch, if_pos set, sub_eq_zero, Nat.cast_inj]
  exact mulBit_exact_iff hq (scratch_value exact)

/-- No shift has an error if and only if none goes wrong. -/
theorem productKept_iff (a b : Arr 32) : ProductKept a b ↔ ∀ q < 256, shiftError a b q = 0 := by
  constructor
  · intro kept q
    induction q using Nat.strong_induction_on with
    | h q ih =>
      intro hq
      cases bit : (value b).testBit q with
      | false => exact shiftError_clear bit
      | true => exact (shiftError_eq_zero_iff hq bit fun p hp => ih p hp (by omega)).mpr (kept q hq bit)
  · intro exact q hq set
    exact (shiftError_eq_zero_iff hq set fun p hp => exact p (by omega)).mp (exact q hq)

/-- The sum of the shifts is the product and the errors. -/
theorem shiftSum_modEq (a b : Arr 32) (n : Nat) :
    (shiftSum a b n : Int) ≡ (value a * (value b % 2 ^ n) : Nat) + ∑ q ∈ Finset.range n, shiftError a b q
      [ZMOD 2 ^ 256] := by
  induction n with
  | zero => simp [shiftSum, Nat.mod_one]
  | succ n ih =>
    rw [shiftSum, Finset.sum_range_succ, ← shiftSum, Finset.sum_range_succ]
    unfold shiftError at ih ⊢
    cases bit : (value b).testBit n with
    | false =>
      rw [if_neg Bool.false_ne_true, if_neg Bool.false_ne_true, mod_two_pow_of_clear bit, Nat.add_zero, add_zero]
      exact ih
    | true =>
      have reduced : ((value a * 2 ^ n % 2 ^ 256 : Nat) : Int) ≡ (value a * 2 ^ n : Nat) [ZMOD 2 ^ 256] := by
        rw [Int.natCast_mod]
        exact Int.mod_modEq _ _
      have shift : (value (scratch a b (n + 1)) : Int) ≡ (value a * 2 ^ n : Nat) +
          (value (scratch a b (n + 1)) - (value a * 2 ^ n % 2 ^ 256 : Nat)) [ZMOD 2 ^ 256] := by
        rw [Int.modEq_iff_dvd] at reduced ⊢
        rwa [add_sub_assoc, sub_sub_cancel_left, ← sub_eq_add_neg]
      rw [if_pos rfl, if_pos rfl, mod_two_pow_of_set bit, Nat.mul_add, Nat.cast_add, Nat.cast_add]
      have step := ih.add shift
      rwa [add_add_add_comm] at step

theorem uint256Mul_right_iff (res a b : Arr 32) :
    value (uint256Mul res a b).val = value a * value b % 2 ^ 256 ↔
      (2 ^ 256 : Int) ∣ ∑ q ∈ Finset.range 256, shiftError a b q := by
  have sum := shiftSum_modEq a b 256
  rw [Nat.mod_eq_of_lt (by simpa using value_lt b)] at sum
  have right : value (uint256Mul res a b).val = value a * value b % 2 ^ 256 ↔
      (shiftSum a b 256 : Int) ≡ (value a * value b : Nat) [ZMOD 2 ^ 256] := by
    rw [uint256Mul_shiftSum]
    exact (Int.natCast_modEq_iff (n := 2 ^ 256)).symm
  rw [right]
  constructor
  · intro same
    have dvd := Int.modEq_iff_dvd.mp (same.symm.trans sum)
    rwa [add_sub_cancel_left] at dvd
  · intro dvd
    refine sum.trans (Int.modEq_iff_dvd.mpr ?_).symm
    rwa [add_sub_cancel_left]

theorem uint256Mul_of_kept (res : Arr 32) {a b : Arr 32} (kept : ProductKept a b) :
    value (uint256Mul res a b).val = value a * value b % 2 ^ 256 := by
  have exact := (productKept_iff a b).mp kept
  rw [uint256Mul_right_iff, Finset.sum_eq_zero fun q hq => exact q (Finset.mem_range.mp hq)]
  exact dvd_zero _

theorem shiftError_of_kept {a b : Arr 32} {q : Nat} (hq : q < 256) (set : (value b).testBit q = true)
    (kept : ShiftKept a q) : shiftError a b q = (value (scratch a b q) % 256 ^ (q / 8) : Nat) := by
  have amount : (UInt8.ofNat q).toNat = q := UInt8.toNat_ofNat_of_lt' hq
  have stale := uint256Sl_stale (scratch a b q) (show ShiftKept a (UInt8.ofNat q).toNat by rwa [amount])
  unfold shiftError
  rw [amount] at stale
  rw [if_pos set, scratch, if_pos set, stale, Nat.cast_add, add_sub_cancel_left]

theorem shiftError_stale {a b : Arr 32} {q : Nat} (hq : q < 256) (kept : (value b).testBit q = true → ShiftKept a q) :
    0 ≤ shiftError a b q ∧ shiftError a b q < (2 ^ q : Nat) := by
  cases bit : (value b).testBit q with
  | false =>
    rw [shiftError_clear bit]
    exact ⟨le_refl 0, Int.natCast_pos.mpr (by positivity)⟩
  | true =>
    rw [shiftError_of_kept hq bit (kept bit)]
    refine ⟨Int.natCast_nonneg _, Int.ofNat_lt.mpr ?_⟩
    calc value (scratch a b q) % 256 ^ (q / 8) < 256 ^ (q / 8) := Nat.mod_lt _ (by positivity)
      _ = 2 ^ (8 * (q / 8)) := byte_pow (q / 8)
      _ ≤ 2 ^ q := Nat.pow_le_pow_right (by norm_num) (Nat.mul_div_le q 8)

/-- Where no carry is lost, the errors are all stale bytes, which never cancel. -/
theorem product_right_iff_clear (res : Arr 32) {a b : Arr 32}
    (kept : ∀ q < 256, (value b).testBit q = true → ShiftKept a q) : ProductRight res a b ↔ ProductKept a b := by
  have bounds : ∀ q ∈ Finset.range 256, 0 ≤ shiftError a b q ∧ shiftError a b q < (2 ^ q : Nat) := by
    intro q hq
    have inside := Finset.mem_range.mp hq
    exact shiftError_stale inside (kept q inside)
  have nonneg : 0 ≤ ∑ q ∈ Finset.range 256, shiftError a b q := Finset.sum_nonneg fun q hq => (bounds q hq).1
  have small : ∑ q ∈ Finset.range 256, shiftError a b q < 2 ^ 256 := by
    calc ∑ q ∈ Finset.range 256, shiftError a b q ≤ ∑ q ∈ Finset.range 256, ((2 ^ q : Nat) : Int) :=
          Finset.sum_le_sum fun q hq => (bounds q hq).2.le
      _ < 2 ^ 256 := by
          rw [← Nat.cast_sum]
          exact_mod_cast Nat.geomSum_lt (le_refl 2) fun k hk => Finset.mem_range.mp hk
  constructor
  · intro right
    rw [productKept_iff]
    have zero := Int.eq_zero_of_dvd_of_nonneg_of_lt nonneg small ((uint256Mul_right_iff res a b).mp right)
    intro q hq
    exact (Finset.sum_eq_zero_iff_of_nonneg fun q hq => (bounds q hq).1).mp zero q (Finset.mem_range.mpr hq)
  · exact fun kept => uint256Mul_of_kept res kept

theorem natAbs_shiftError_lt (a b : Arr 32) (q : Nat) : (shiftError a b q).natAbs < 2 ^ 256 := by
  unfold shiftError
  split
  · have shift := value_lt (scratch a b (q + 1))
    have wanted : value a * 2 ^ q % 2 ^ 256 < 2 ^ 256 := Nat.mod_lt _ (by positivity)
    rw [show 256 ^ 32 = 2 ^ 256 by norm_num] at shift
    omega
  · exact Nat.two_pow_pos 256

/-- An error that is alone has nothing to cancel it. -/
theorem product_right_iff_alone (res : Arr 32) {a b : Arr 32} {q : Nat} (hq : q < 256)
    (alone : ∀ p < 256, p ≠ q → shiftError a b p = 0) : ProductRight res a b ↔ shiftError a b q = 0 := by
  have sum : ∑ p ∈ Finset.range 256, shiftError a b p = shiftError a b q :=
    Finset.sum_eq_single q (fun p hp other => alone p (Finset.mem_range.mp hp) other)
      fun outside => absurd (Finset.mem_range.mpr hq) outside
  unfold ProductRight
  rw [uint256Mul_right_iff, sum]
  constructor
  · intro multiple
    exact Int.eq_zero_of_dvd_of_natAbs_lt_natAbs multiple (natAbs_shiftError_lt a b q)
  · intro none
    rw [none]
    exact dvd_zero _

theorem testBit_above {b q p : Nat} (top : b < 2 ^ (q + 1)) (above : q < p) : b.testBit p = false :=
  Nat.testBit_lt_two_pow (Nat.lt_of_lt_of_le top (Nat.pow_le_pow_right (by norm_num) above))

/-- Where at most the shift for the top bit of `b` goes wrong, the product is right only if it does not. -/
theorem product_right_iff_top (res : Arr 32) {a b : Arr 32} {q : Nat} (hq : q < 256) (top : value b < 2 ^ (q + 1))
    (below : ∀ p < q, (value b).testBit p = true → ShiftKept a p ∧ ScratchClear a b p) :
    ProductRight res a b ↔ ProductKept a b := by
  have exact : ∀ p < q, shiftError a b p = 0 := by
    intro p
    induction p using Nat.strong_induction_on with
    | h p ih =>
      intro hp
      cases bit : (value b).testBit p with
      | false => exact shiftError_clear bit
      | true => exact (shiftError_eq_zero_iff (by omega) bit fun r hr => ih r hr (by omega)).mpr (below p hp bit)
  have alone : ∀ p < 256, p ≠ q → shiftError a b p = 0 := by
    intro p _ other
    rcases Nat.lt_or_ge p q with lower | upper
    · exact exact p lower
    · exact shiftError_clear (testBit_above top (by omega))
  rw [product_right_iff_alone res hq alone, productKept_iff]
  constructor
  · intro none p hp
    by_cases here : p = q
    · rw [here, none]
    · exact alone p hp here
  · exact fun all => all q hq

/-! ### One operand fixed -/

/-- The set bits of `b` lie in one byte, and outside the top byte they are its bits 0 and 4. -/
def OneByte (b : Arr 32) : Prop :=
  ∃ c < 32, ∀ q < 256, (value b).testBit q = true → q / 8 = c ∧ (c = 31 ∨ q % 8 = 0 ∨ q % 8 = 4)

/-- The last set bit below `q`. -/
theorem log_below {b q : Nat} (some : b % 2 ^ q ≠ 0) :
    Nat.log 2 (b % 2 ^ q) < q ∧ b.testBit (Nat.log 2 (b % 2 ^ q)) = true ∧
      ∀ p < q, b.testBit p = true → p ≤ Nat.log 2 (b % 2 ^ q) := by
  have inside : Nat.log 2 (b % 2 ^ q) < q :=
    Nat.log_lt_of_lt_pow some (Nat.mod_lt _ (by positivity))
  have top := Nat.testBit_log2 some
  rw [Nat.log2_eq_log_two, Nat.testBit_mod_two_pow, Bool.and_eq_true] at top
  refine ⟨inside, top.2, fun p hp set => ?_⟩
  have present : (b % 2 ^ q).testBit p = true := by
    rw [Nat.testBit_mod_two_pow, set, decide_eq_true hp, Bool.and_self]
  exact Nat.le_log_of_pow_le (by norm_num) (Nat.ge_two_pow_of_testBit present)

theorem productKept_of_oneByte (a : Arr 32) {b : Arr 32} (oneByte : OneByte b) : ProductKept a b := by
  obtain ⟨c, hc, bits⟩ := oneByte
  intro q hq set
  obtain ⟨here, places⟩ := bits q hq set
  constructor
  · rw [shiftKept_iff]
    rcases places with top | low | half
    · exact .inr (.inr fun j hj past => by omega)
    · exact .inl low
    · exact .inr (.inl half)
  · by_cases first : value b % 2 ^ q = 0
    · exact .inl first
    · obtain ⟨below, last, -⟩ := log_below first
      obtain ⟨same, -⟩ := bits _ (by omega) last
      refine .inr ((Dvd.dvd.mul_left ?_ _))
      rw [byte_pow]
      exact pow_dvd_pow 2 (by omega)

/-- No shift of a power of two loses a carry that stays in its byte. -/
theorem shiftKept_of_two_pow {a : Arr 32} {p q : Nat} (power : value a = 2 ^ p % 2 ^ 256)
    (room : p % 8 + q % 8 < 8) : ShiftKept a q := by
  rw [shiftKept_iff]
  refine .inr (.inr fun j hj _ => ?_)
  calc (entry a j).toNat ≤ 2 ^ (p % 8) := entry_of_two_pow power hj
    _ < 2 ^ (8 - q % 8) := Nat.pow_lt_pow_right (by norm_num) (by omega)

theorem same_byte {a b : Arr 32} (unit : value a = 1) (kept : ProductKept a b) {q : Nat} (hq : q < 256)
    (set : (value b).testBit q = true) {p : Nat} (hp : p < q) (other : (value b).testBit p = true) :
    p / 8 = q / 8 := by
  induction q using Nat.strong_induction_on with
  | h q ih =>
    have some : value b % 2 ^ q ≠ 0 := by
      intro none
      have present := Nat.testBit_mod_two_pow (value b) q p
      rw [none, Nat.zero_testBit, decide_eq_true hp, other] at present
      cases present
    obtain ⟨below, last, latest⟩ := log_below some
    have reach := (kept q hq set).2.resolve_left some
    rw [unit, Nat.one_mul, byte_pow, Nat.pow_dvd_pow_iff_le_right (by norm_num)] at reach
    rcases Nat.lt_or_eq_of_le (latest p hp other) with earlier | rfl
    · rw [ih _ below (by omega) last earlier]
      omega
    · omega

/-- While all set bits of `b` lie in byte `c`, no shift writes the low `c` bytes. -/
theorem scratch_low (a : Arr 32) {b : Arr 32} {c : Nat} (same : ∀ q < 256, (value b).testBit q = true → q / 8 = c)
    {q : Nat} (hq : q ≤ 256) {j : Nat} (hj : j < 32) (low : 32 ≤ j + c) : entry (scratch a b q) j = 0 := by
  induction q with
  | zero => exact entry_replicate 0 hj
  | succ q ih =>
    have before := ih (by omega)
    unfold scratch
    split
    · rename_i set
      rw [entry_uint256Sl _ _ _ hj, UInt8.toNat_ofNat_of_lt' hq, same q hq set, if_neg (by omega), before]
    · exact before

theorem shiftError_oneByte {a b : Arr 32} {c : Nat} (same : ∀ q < 256, (value b).testBit q = true → q / 8 = c)
    {q : Nat} (hq : q < 256) (set : (value b).testBit q = true) : shiftError a b q = 0 ↔ ShiftKept a q := by
  have exact_iff := uint256Sl_exact_iff (scratch a b q) a (UInt8.ofNat q)
  rw [UInt8.toNat_ofNat_of_lt' hq, same q hq set] at exact_iff
  unfold shiftError
  rw [if_pos set, scratch, if_pos set, sub_eq_zero, Nat.cast_inj, exact_iff]
  exact and_iff_left fun j hj low => scratch_low a same (by omega) hj low

theorem bit_of_right {b : Arr 32} {c : Nat} (same : ∀ q < 256, (value b).testBit q = true → q / 8 = c)
    (inside : c < 31) (right : ∀ res a, ProductRight res a b) {q : Nat} (hq : q < 256)
    (set : (value b).testBit q = true) : q % 8 = 0 ∨ q % 8 = 4 := by
  -- From the top bit down: a carry from the last byte is lost at bit `q` and nowhere else.
  induction rest : 256 - q using Nat.strong_induction_on generalizing q with
  | h _ ih =>
    by_cases zero : q % 8 = 0
    · exact .inl zero
    have byte : 2 ^ (8 - q % 8) < 256 :=
      calc 2 ^ (8 - q % 8) ≤ 2 ^ 7 := Nat.pow_le_pow_right (by norm_num) (by omega)
        _ < 256 := by norm_num
    have power : value (encode 32 (2 ^ (8 - q % 8))) = 2 ^ (8 - q % 8) % 2 ^ 256 := by
      rw [value_encode, show (256 : Nat) ^ 32 = 2 ^ 256 by norm_num]
    have alone : ∀ p < 256, p ≠ q → shiftError (encode 32 (2 ^ (8 - q % 8))) b p = 0 := by
      intro p hp other
      cases bit : (value b).testBit p with
      | false => exact shiftError_clear bit
      | true =>
        have here := same q hq set
        have there := same p hp bit
        rw [shiftError_oneByte same hp bit]
        rcases Nat.lt_or_ge p q with lower | upper
        · exact shiftKept_of_two_pow power (by omega)
        · rw [shiftKept_iff]
          have good := ih _ (by omega) hp bit rfl
          exact good.imp_right .inl
    have kept := (product_right_iff_alone (Vector.replicate 32 0) hq alone).mp (right _ _)
    rw [shiftError_oneByte same hq set, shiftKept_iff] at kept
    have here := same q hq set
    rcases kept with low | half | fits
    · exact .inl low
    · exact .inr half
    · have lost := fits 31 (by norm_num) (by omega)
      have last : value (encode 32 (2 ^ (8 - q % 8))) = 2 ^ (8 - q % 8) := by
        rw [power, Nat.mod_eq_of_lt (Nat.pow_lt_pow_right (by norm_num) (by omega))]
      rw [toNat_entry _ (by norm_num), last, Nat.sub_self, pow_zero, Nat.div_one, Nat.mod_eq_of_lt byte] at lost
      exact absurd lost (Nat.lt_irrefl _)

theorem right_iff_oneByte (b : Arr 32) : (∀ res a, ProductRight res a b) ↔ OneByte b := by
  constructor
  · intro right
    have unit : value (encode 32 1) = 1 := by
      rw [value_encode]
      norm_num
    have kept : ProductKept (encode 32 1) b :=
      (product_right_iff_clear (Vector.replicate 32 0) fun q _ _ =>
        shiftKept_of_two_pow (p := 0) (by rw [unit]; norm_num) (by omega)).mp (right _ _)
    by_cases none : value b = 0
    · refine ⟨0, by norm_num, fun q _ set => ?_⟩
      rw [none, Nat.zero_testBit] at set
      cases set
    · have bound := value_lt b
      rw [show (256 : Nat) ^ 32 = 2 ^ 256 by norm_num] at bound
      have top : Nat.log 2 (value b) < 256 := Nat.log_lt_of_lt_pow none bound
      have set : (value b).testBit (Nat.log 2 (value b)) = true := by
        rw [← Nat.log2_eq_log_two]
        exact Nat.testBit_log2 none
      have same : ∀ q < 256, (value b).testBit q = true → q / 8 = Nat.log 2 (value b) / 8 := by
        intro q hq bit
        rcases Nat.lt_trichotomy q (Nat.log 2 (value b)) with lower | rfl | upper
        · exact same_byte unit kept top set lower bit
        · rfl
        · exact (same_byte unit kept hq bit upper set).symm
      refine ⟨Nat.log 2 (value b) / 8, by omega, fun q hq bit => ⟨same q hq bit, ?_⟩⟩
      rcases Nat.lt_or_ge (Nat.log 2 (value b) / 8) 31 with inside | last
      · exact .inr (bit_of_right same inside right hq bit)
      · exact .inl (by omega)
  · intro oneByte res a
    exact uint256Mul_of_kept res (productKept_of_oneByte a oneByte)

theorem right_iff_topByte (a : Arr 32) : (∀ res b, ProductRight res a b) ↔ 256 ^ 31 ∣ value a := by
  constructor
  · intro right
    have two : value (encode 32 (2 ^ 248 + 1)) = 2 ^ 248 ||| 1 := by
      rw [value_encode]
      decide +kernel
    have bits : ∀ q < 256, (value (encode 32 (2 ^ 248 + 1))).testBit q = true → q = 0 ∨ q = 248 := by
      intro q _ set
      rw [two, Nat.testBit_or, Nat.testBit_two_pow, Bool.or_eq_true, decide_eq_true_eq,
        Nat.testBit_one_eq_true_iff_self_eq_zero] at set
      omega
    have kept : ProductKept a (encode 32 (2 ^ 248 + 1)) := by
      refine (product_right_iff_clear (Vector.replicate 32 0) fun q hq set => ?_).mp (right _ _)
      rw [shiftKept_iff]
      rcases bits q hq set with rfl | rfl
      · exact .inl rfl
      · exact .inl rfl
    obtain ⟨-, clear⟩ := kept 248 (by norm_num) (by rw [two]; decide +kernel)
    have before : value (encode 32 (2 ^ 248 + 1)) % 2 ^ 248 = 1 := by
      rw [two]
      decide +kernel
    unfold ScratchClear at clear
    rw [before] at clear
    simpa using clear
  · intro multiple res b
    refine uint256Mul_of_kept res fun q hq _ => ⟨?_, .inr ?_⟩
    · have low := (suffix_eq_zero a 1).mp (by rw [suffix_eq_mod]; exact Nat.mod_eq_zero_of_dvd multiple)
      rw [shiftKept_iff]
      refine .inr (.inr fun j hj past => ?_)
      rw [low j (by omega) hj]
      exact Nat.two_pow_pos _
    · exact Dvd.dvd.mul_right ((pow_dvd_pow 256 (by omega)).trans multiple) _

theorem uint256Mul_bit_iff (res : Arr 32) {a b : Arr 32} {q : Nat} (hq : q < 256) (bit : value b = 2 ^ q) :
    value (uint256Mul res a b).val = value a * value b % 2 ^ 256 ↔ ShiftKept a q := by
  have amount : (UInt8.ofNat q).toNat = q := UInt8.toNat_ofNat_of_lt' hq
  have shift := uint256Sl_exact_iff (Vector.replicate 32 0) a (UInt8.ofNat q)
  rw [amount] at shift
  rw [uint256Mul_of_bit res a hq bit, bit, shift]
  exact and_iff_left fun j hj _ => entry_replicate 0 hj

/-- `uint256_mul` multiplies modulo 2^256 where no shift goes wrong, and only there if no carry is
lost, or if no shift but the one for the top bit of `b` (for a single set bit, the only one) goes
wrong. The two last parts say which `b` are safe for every `a`, and which `a` for every `b`. -/
theorem uint256Mul_product (a b : Arr 32) :
    (ProductKept a b → ∀ res, ProductRight res a b) ∧
    ((∀ q < 256, (value b).testBit q = true → ShiftKept a q) →
      ∀ res, ProductRight res a b ↔ ProductKept a b) ∧
    (∀ q < 256, value b < 2 ^ (q + 1) →
      (∀ p < q, (value b).testBit p = true → ShiftKept a p ∧ ScratchClear a b p) →
      ∀ res, ProductRight res a b ↔ ProductKept a b) ∧
    ((∀ res a, ProductRight res a b) ↔ OneByte b) ∧
    ((∀ res b, ProductRight res a b) ↔ 256 ^ 31 ∣ value a) := by
  refine ⟨fun kept res => uint256Mul_of_kept res kept, fun kept res => product_right_iff_clear res kept, ?_,
    right_iff_oneByte b, right_iff_topByte a⟩
  intro q hq top below res
  exact product_right_iff_top res hq top below

/-- 16 * 16 is right, 1 * 257 keeps a stale byte, 128 * 2 loses a carry. -/
theorem uint256Mul_product_sample :
    (∀ res, ProductRight res (encode 32 0x10) (encode 32 0x10)) ∧
    (∀ res, ¬ ProductRight res (encode 32 1) (encode 32 257)) ∧
    ∀ res, ¬ ProductRight res (encode 32 128) (encode 32 2) := by
  refine ⟨(uint256Mul_product _ _).1 (by decide +kernel), fun res => ?_, fun res => ?_⟩
  · rw [(uint256Mul_product _ _).2.1 (by decide +kernel) res]
    decide +kernel
  · rw [(uint256Mul_product _ _).2.2.1 1 (by norm_num) (by decide +kernel) (by decide +kernel) res]
    decide +kernel

-- Both shifts of 128 go wrong here, and their errors cancel.
example : ¬ ShiftKept (encode 32 128) 3 ∧ ¬ ShiftKept (encode 32 128) 5 ∧
    value (uint256Mul (Vector.replicate 32 0) (encode 32 128) (encode 32 40)).val = 128 * 40 := by
  decide +kernel

/-- The product 128 * 2: the carry lands six places too high. -/
theorem product_loses_carry : ¬ ∀ res a b : Arr 32,
    value (uint256Mul res a b).val = value a * value b % 2 ^ 256 := by
  intro claimed
  have bit : value (encode 32 2) = 2 ^ 1 := by
    rw [value_encode]
    norm_num
  have kept := (uint256Mul_bit_iff _ (by norm_num) bit).mp
    (claimed (Vector.replicate 32 0) (encode 32 128) (encode 32 2))
  exact absurd kept (by decide)

end WorkServer

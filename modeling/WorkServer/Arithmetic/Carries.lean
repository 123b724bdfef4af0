import WorkServer.Arithmetic.Power

/-!
# Carries of a shift

A shift is right where each byte gets the carry it needs, and where the bytes that it
leaves unwritten were clear. Where each byte is kept, it goes wrong by those bytes alone.
-/

namespace WorkServer
open Tracing BigEndian

/-- The carry that `uint256_sl` takes from byte `x`. -/
def carryTaken (x move_n : Nat) : Nat := (x &&& (0xff <<< (8 - move_n)) % 256) >>> move_n

/-- Byte `x`, shifted with the byte `y` below it, is what it has to be. -/
def ByteKept (x y move_n : Nat) : Prop :=
  (x <<< move_n ||| carryTaken y move_n) % 256 = (x <<< move_n ||| y >>> (8 - move_n)) % 256

instance (x y move_n : Nat) : Decidable (ByteKept x y move_n) := inferInstanceAs (Decidable (_ = _))

/-- Every byte of `a` shifted by `q` bits is what it has to be. -/
def ShiftKept (a : Arr 32) (q : Nat) : Prop :=
  ∀ j < 32 - q / 8, ByteKept (entry a (j + q / 8)).toNat (entry a (j + q / 8 + 1)).toNat (q % 8)

instance (a : Arr 32) (q : Nat) : Decidable (ShiftKept a q) := Nat.decidableBallLT _ _

theorem carryTaken_lt {x : Nat} (byte : x < 256) (move_n : Nat) : carryTaken x move_n < 256 := by
  unfold carryTaken
  rw [Nat.shiftRight_eq_div_pow]
  exact Nat.lt_of_le_of_lt (Nat.div_le_self _ _) (Nat.lt_of_le_of_lt Nat.and_le_left byte)

theorem carryTaken_zero (move_n : Nat) : carryTaken 0 move_n = 0 := by
  unfold carryTaken
  rw [Nat.zero_and, Nat.zero_shiftRight]

/-- Before byte `i`, the bytes from `i` on are done and the carry comes from byte `i + b`. -/
def ByteInv (res a : Arr 32) (b m i : Nat) (t : Arr 32 × BYTE) : Prop :=
  t.2.toNat = carryTaken (entry a (i + b)).toNat m ∧
    ∀ j < 32, entry t.1 j =
      if i ≤ j ∧ j + b < 32 then
        UInt8.ofNat ((entry a (j + b)).toNat <<< m ||| carryTaken (entry a (j + b + 1)).toNat m)
      else entry res j

theorem slByte_bytes {res a : Arr 32} {b move_n : BYTE} {i : Nat} (h : i < 32 - b.toNat) {t : Arr 32 × BYTE}
    (inv : ByteInv res a b.toNat move_n.toNat (i + 1) t) : ByteInv res a b.toNat move_n.toNat i
      (slByte a b move_n (UInt8.ofNat (0xff <<< (8 - move_n.toNat))) i t).val := by
  obtain ⟨temp, carry⟩ := t
  obtain ⟨taken, done⟩ := inv
  dsimp only at taken done
  have byte := (entry a (i + b.toNat)).toNat_lt
  unfold slByte
  simp only [val_bind, val_pure, read_val]
  constructor
  · rw [UInt8.toNat_ofNat', UInt8.toNat_ofNat', show (2 : Nat) ^ 8 = 256 from rfl]
    exact Nat.mod_eq_of_lt (carryTaken_lt byte _)
  · intro j hj
    dsimp only
    rw [entry_write _ (by omega), done j hj]
    by_cases here : j = i
    · rw [if_pos here, here, if_pos (by omega), taken, show i + 1 + b.toNat = i + b.toNat + 1 by omega]
    · rw [if_neg here]
      congr 1
      exact propext ⟨fun h => by omega, fun h => by omega⟩

theorem entry_uint256Sl (res a : Arr 32) (shift : BYTE) {j : Nat} (hj : j < 32) :
    entry (uint256Sl res a shift).val j =
      if j + shift.toNat / 8 < 32 then
        UInt8.ofNat ((entry a (j + shift.toNat / 8)).toNat <<< (shift.toNat % 8) |||
          carryTaken (entry a (j + shift.toNat / 8 + 1)).toNat (shift.toNat % 8))
      else entry res j := by
  obtain ⟨bytes, bits⟩ := shift_parts shift
  have range := shift.toNat_lt
  by_cases moves : shift = 0
  · unfold uint256Sl
    rw [if_pos moves, memcpy_all, moves]
    have nothing : carryTaken (entry a (j + 1)).toNat 0 = 0 := by
      unfold carryTaken
      rw [Nat.shiftRight_zero]
      exact Nat.and_zero _
    simp [hj, nothing]
  · have start : ByteInv res a (shift / 8).toNat (shift % 8).toNat (32 - (shift / 8).toNat) (res, 0) := by
      refine ⟨?_, fun j hj => (if_neg (by omega)).symm⟩
      rw [entry_of_le a (by omega)]
      exact (carryTaken_zero _).symm
    have final := forDown_inv (ByteInv res a (shift / 8).toNat (shift % 8).toNat) start
      fun i hi t => slByte_bytes hi
    have done := final.2 j hj
    rw [bytes, bits] at done
    unfold uint256Sl
    dsimp only
    rw [if_neg moves, val_map, bytes, bits, done]
    congr 1
    exact propext ⟨fun h => h.2, fun h => ⟨Nat.zero_le _, h⟩⟩

/-! ### The exact shift -/

theorem testBit_entry (v : Arr 32) {j r : Nat} (hj : j < 32) (hr : r < 8) :
    (entry v j).toNat.testBit r = (value v).testBit (8 * (31 - j) + r) := by
  rw [testBit_value v (by omega), show 32 - 1 - (8 * (31 - j) + r) / 8 = j by omega,
    show (8 * (31 - j) + r) % 8 = r by omega]

theorem testBit_byte (x : BYTE) {r : Nat} (h : 8 ≤ r) : x.toNat.testBit r = false :=
  Nat.testBit_lt_two_pow (Nat.lt_of_lt_of_le x.toNat_lt (Nat.pow_le_pow_right (by norm_num) h))

/-- Bit `r` of byte `j` of a shifted number comes from byte `j + q / 8` or the one below it. -/
theorem testBit_shift (a : Arr 32) {q j r : Nat} (reach : j + q / 8 < 32) (hr : r < 8) :
    (value a * 2 ^ q).testBit (8 * (31 - j) + r) =
      ((entry a (j + q / 8)).toNat <<< (q % 8) |||
        (entry a (j + q / 8 + 1)).toNat >>> (8 - q % 8)).testBit r := by
  rw [Nat.testBit_mul_two_pow, Nat.testBit_or, Nat.testBit_shiftLeft, Nat.testBit_shiftRight]
  by_cases high : q % 8 ≤ r
  · have same : (entry a (j + q / 8)).toNat.testBit (r - q % 8) = (value a).testBit (8 * (31 - j) + r - q) := by
      rw [testBit_entry a reach (by omega)]
      congr 1
      omega
    rw [same, testBit_byte _ (show 8 ≤ 8 - q % 8 + r by omega), Bool.or_false]
    simp only [high, show q ≤ 8 * (31 - j) + r by omega, decide_true]
  · rw [decide_eq_false (show ¬ r ≥ q % 8 by omega), Bool.false_and, Bool.false_or]
    rcases Nat.lt_or_ge (j + q / 8 + 1) 32 with below | last
    · have same : (entry a (j + q / 8 + 1)).toNat.testBit (8 - q % 8 + r) =
          (value a).testBit (8 * (31 - j) + r - q) := by
        rw [testBit_entry a below (by omega)]
        congr 1
        omega
      rw [same, decide_eq_true (show q ≤ 8 * (31 - j) + r by omega), Bool.true_and]
    · rw [entry_of_le a last, decide_eq_false (show ¬ q ≤ 8 * (31 - j) + r by omega), Bool.false_and]
      exact (Nat.zero_testBit _).symm

theorem entry_encode_shift (a : Arr 32) (q : Nat) {j : Nat} (hj : j < 32) :
    (entry (encode 32 (value a * 2 ^ q)) j).toNat =
      if j + q / 8 < 32 then
        ((entry a (j + q / 8)).toNat <<< (q % 8) ||| (entry a (j + q / 8 + 1)).toNat >>> (8 - q % 8)) % 256
      else 0 := by
  apply Nat.eq_of_testBit_eq
  intro r
  rcases Nat.lt_or_ge r 8 with inside | outside
  · have byte : (entry (encode 32 (value a * 2 ^ q)) j).toNat.testBit r =
        (value a * 2 ^ q).testBit (8 * (31 - j) + r) := by
      rw [testBit_entry _ hj inside, value_encode, show (256 : Nat) ^ 32 = 2 ^ 256 by norm_num,
        Nat.testBit_mod_two_pow, decide_eq_true (show 8 * (31 - j) + r < 256 by omega), Bool.true_and]
    rw [byte]
    split
    · rename_i reach
      rw [testBit_shift a reach inside, show (256 : Nat) = 2 ^ 8 from rfl, Nat.testBit_mod_two_pow,
        decide_eq_true inside, Bool.true_and]
    · rw [Nat.testBit_mul_two_pow, decide_eq_false (by omega), Bool.false_and]
      exact (Nat.zero_testBit _).symm
  · rw [testBit_byte _ outside]
    split
    · rw [show (256 : Nat) = 2 ^ 8 from rfl, Nat.testBit_mod_two_pow, decide_eq_false (by omega),
        Bool.false_and]
    · exact (Nat.zero_testBit _).symm

/-- A shift is exact where every byte is kept and the bytes it leaves unwritten were clear. -/
theorem uint256Sl_exact_iff (res a : Arr 32) (shift : BYTE) :
    value (uint256Sl res a shift).val = value a * 2 ^ shift.toNat % 2 ^ 256 ↔
      ShiftKept a shift.toNat ∧ ∀ j < 32, 32 ≤ j + shift.toNat / 8 → entry res j = 0 := by
  have bytes : value (uint256Sl res a shift).val = value a * 2 ^ shift.toNat % 2 ^ 256 ↔
      ∀ j < 32, (entry (uint256Sl res a shift).val j).toNat =
        (entry (encode 32 (value a * 2 ^ shift.toNat)) j).toNat := by
    have whole := value_encode 32 (value a * 2 ^ shift.toNat)
    rw [show (256 : Nat) ^ 32 = 2 ^ 256 by norm_num] at whole
    rw [← whole]
    constructor
    · intro same j _
      rw [← encode_value (uint256Sl res a shift).val, same, encode_value]
    · intro same
      rw [entry_ext fun j hj => UInt8.toNat_inj.mp (same j hj)]
  rw [bytes]
  constructor
  · intro same
    refine ⟨fun j hj => ?_, fun j hj past => ?_⟩
    · have byte := same j (by omega)
      rwa [entry_uint256Sl _ _ _ (by omega), entry_encode_shift _ _ (by omega), if_pos (by omega),
        if_pos (by omega), UInt8.toNat_ofNat'] at byte
    · have byte := same j hj
      rw [entry_uint256Sl _ _ _ hj, entry_encode_shift _ _ hj, if_neg (by omega), if_neg (by omega)] at byte
      exact UInt8.toNat_inj.mp byte
  · intro kept
    obtain ⟨kept, clear⟩ := kept
    intro j hj
    rw [entry_uint256Sl _ _ _ hj, entry_encode_shift _ _ hj]
    split
    · rename_i reach
      rw [UInt8.toNat_ofNat']
      exact kept j (by omega)
    · rename_i past
      rw [clear j hj (by omega)]
      rfl

/-- Where every byte is kept, the bytes that a shift leaves unwritten are added to it. -/
theorem uint256Sl_stale (res : Arr 32) {a : Arr 32} {shift : BYTE} (kept : ShiftKept a shift.toNat) :
    value (uint256Sl res a shift).val =
      value a * 2 ^ shift.toNat % 2 ^ 256 + value res % 256 ^ (shift.toNat / 8) := by
  have range := shift.toNat_lt
  have clear := (uint256Sl_exact_iff (Vector.replicate 32 0) a shift).mpr
    ⟨kept, fun j hj _ => entry_replicate 0 hj⟩
  have written := value_add_suffix (v := (uint256Sl res a shift).val)
    (w := (uint256Sl (Vector.replicate 32 0) a shift).val) (Nat.sub_le 32 (shift.toNat / 8)) fun j hj => by
      rw [entry_uint256Sl _ _ _ (by omega), entry_uint256Sl _ _ _ (by omega), if_pos (by omega), if_pos (by omega)]
  have below : suffix (uint256Sl (Vector.replicate 32 0) a shift).val (32 - shift.toNat / 8) = 0 := by
    rw [suffix_eq_zero]
    intro j low hj
    rw [entry_uint256Sl _ _ _ hj, if_neg (by omega), entry_replicate 0 hj]
  have unwritten : suffix (uint256Sl res a shift).val (32 - shift.toNat / 8) = suffix res (32 - shift.toNat / 8) := by
    apply suffix_congr
    intro j low hj
    rw [entry_uint256Sl _ _ _ hj, if_neg (by omega)]
  rw [below, unwritten, suffix_eq_mod, clear, Nat.add_zero,
    show 32 - (32 - shift.toNat / 8) = shift.toNat / 8 by omega] at written
  exact written

/-- Shifted down by `move_n`, the bits that leave `y` come to lie where they have to be only if
they are none, or half a byte. -/
theorem byteKept_iff {x y move_n : Nat} (byte : y < 256) (bits : move_n < 8) :
    ByteKept x y move_n ↔ move_n = 0 ∨ move_n = 4 ∨ y < 2 ^ (8 - move_n) := by
  constructor
  · intro kept
    have low : ∀ carry, ((x <<< move_n ||| carry) % 256) % 2 ^ move_n = carry % 2 ^ move_n := by
      intro carry
      have divides : 2 ^ move_n ∣ 256 := pow_dvd_pow 2 (n := 8) (by omega)
      rw [Nat.mod_mod_of_dvd _ divides, Nat.or_mod_two_pow, Nat.shiftLeft_eq, Nat.mul_mod_left, Nat.zero_or]
    have carries := congrArg (· % 2 ^ move_n) kept
    simp only [low] at carries
    have all : ∀ m < 8, ∀ y < 256, carryTaken y m % 2 ^ m = y >>> (8 - m) % 2 ^ m →
        m = 0 ∨ m = 4 ∨ y < 2 ^ (8 - m) := by decide +kernel
    exact all move_n bits y byte carries
  · intro fits
    have carried : carryTaken y move_n = y >>> (8 - move_n) := by
      apply carryKept_of_fits byte bits
      rcases fits with rfl | rfl | fits
      · exact Or.inl byte
      · exact Or.inr rfl
      · exact Or.inl fits
    unfold ByteKept
    rw [carried]

theorem shiftKept_iff (a : Arr 32) (q : Nat) :
    ShiftKept a q ↔ q % 8 = 0 ∨ q % 8 = 4 ∨ ∀ j < 32, q / 8 < j → (entry a j).toNat < 2 ^ (8 - q % 8) := by
  have byte (j : Nat) : ByteKept (entry a (j + q / 8)).toNat (entry a (j + q / 8 + 1)).toNat (q % 8) ↔
      q % 8 = 0 ∨ q % 8 = 4 ∨ (entry a (j + q / 8 + 1)).toNat < 2 ^ (8 - q % 8) :=
    byteKept_iff (UInt8.toNat_lt _) (Nat.mod_lt _ (by norm_num))
  unfold ShiftKept
  simp only [byte]
  constructor
  · intro kept
    by_cases zero : q % 8 = 0
    · exact Or.inl zero
    · by_cases half : q % 8 = 4
      · exact Or.inr (Or.inl half)
      · refine Or.inr (Or.inr fun j hj past => ?_)
        obtain ⟨k, rfl⟩ : ∃ k, j = k + q / 8 + 1 := ⟨j - q / 8 - 1, by omega⟩
        have fits := kept k (by omega)
        rwa [or_iff_right zero, or_iff_right half] at fits
  · intro fits j hj
    rcases fits with zero | half | fits
    · exact Or.inl zero
    · exact Or.inr (Or.inl half)
    · right
      right
      rcases Nat.lt_or_ge (j + q / 8 + 1) 32 with below | last
      · exact fits _ below (by omega)
      · rw [entry_of_le a last]
        exact Nat.two_pow_pos _

/-- `uint256_sl` is the shift modulo 2^256 if and only if no bit, or half a byte each time,
crosses from one byte into the next, and the low bytes of `res` were clear. -/
theorem uint256Sl_encode_iff (res a : Arr 32) (shift : BYTE) :
    (uint256Sl res a shift).val = encode 32 (value a * 2 ^ shift.toNat % 2 ^ 256) ↔
      (shift.toNat % 8 = 0 ∨ shift.toNat % 8 = 4 ∨
        ∀ j < 32, shift.toNat / 8 < j → (entry a j).toNat < 2 ^ (8 - shift.toNat % 8)) ∧
      ∀ j < 32, 32 ≤ j + shift.toNat / 8 → entry res j = 0 := by
  rw [← shiftKept_iff a shift.toNat, ← uint256Sl_exact_iff res a shift]
  constructor
  · intro same
    rw [same, value_encode, show (256 : Nat) ^ 32 = 2 ^ 256 by norm_num, Nat.mod_mod]
  · exact eq_encode

/-- The shift of 128 by one: its carry comes to lie on bit 6 of the byte above, not on bit 0. -/
theorem shift_misplaces_carry : ¬ ∀ (res a : Arr 32) (shift : BYTE),
    (uint256Sl res a shift).val = encode 32 (value a * 2 ^ shift.toNat % 2 ^ 256) := by
  intro claimed
  have result := claimed (Vector.replicate 32 0) (encode 32 128) 1
  exact absurd result (by decide +kernel)

end WorkServer

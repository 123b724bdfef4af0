import WorkServer.Arithmetic.Sum
import WorkServer.Mining
import WorkServer.Pow.Puzzle

/-!
# The verdict on a nonce

`sha256_compare` orders two digests as numbers, so `isvalid` answers 1 exactly when the
nonce solves the puzzle of its target and seed. It reads the first 32 bytes of the seed
array and the last 8 of the nonce, and overwrites the rest of the seed array.
-/

namespace WorkServer
open Tracing BigEndian

def order (x y : Nat) : Int := if x < y then -1 else if y < x then 1 else 0

theorem order_cases (x y : Nat) :
    x < y ∧ order x y = -1 ∨ x = y ∧ order x y = 0 ∨ y < x ∧ order x y = 1 := by
  unfold order
  split
  · rename_i less
    exact .inl ⟨less, rfl⟩
  · split
    · rename_i more
      exact .inr (.inr ⟨more, rfl⟩)
    · exact .inr (.inl ⟨by omega, rfl⟩)

theorem order_eq_one (x y : Nat) : order x y = 1 ↔ y < x := by
  have cases := order_cases x y
  omega

theorem order_eq_zero (x y : Nat) : order x y = 0 ↔ x = y := by
  have cases := order_cases x y
  omega

theorem order_eq_neg_one (x y : Nat) : order x y = -1 ↔ x < y := by
  have cases := order_cases x y
  omega

theorem compareFrom_val (digest1 digest2 : Arr 32) (k i : Nat) (reach : i + k = 32) :
    (compareFrom digest1 digest2 i k).val = order (suffix digest1 i) (suffix digest2 i) := by
  induction k generalizing i with
  | zero =>
    obtain rfl : i = 32 := by omega
    rw [suffix_end, suffix_end]
    rfl
  | succ k ih =>
    have tail1 := suffix_lt digest1 (i + 1)
    have tail2 := suffix_lt digest2 (i + 1)
    rw [show 32 - (i + 1) = 32 - 1 - i by omega] at tail1 tail2
    -- A difference in byte `i` outweighs everything after it.
    have outweighs : ∀ {x y s t : Nat}, x < y → s < 256 ^ (32 - 1 - i) →
        x * 256 ^ (32 - 1 - i) + s < y * 256 ^ (32 - 1 - i) + t := by
      intro x y s t less small
      have scaled := Nat.mul_le_mul_right (256 ^ (32 - 1 - i)) (Nat.succ_le_of_lt less)
      rw [Nat.succ_mul] at scaled
      omega
    unfold compareFrom
    simp only [val_bind, read_val]
    rw [suffix_step digest1 (by omega), suffix_step digest2 (by omega)]
    split
    · rename_i less
      have below := outweighs (t := suffix digest2 (i + 1)) (UInt8.lt_iff_toNat_lt.mp less) tail1
      unfold order
      rw [if_pos below]
      rfl
    · rename_i notLess
      simp only [val_bind, read_val]
      split
      · rename_i more
        have above := outweighs (t := suffix digest1 (i + 1)) (UInt8.lt_iff_toNat_lt.mp more) tail2
        unfold order
        rw [if_neg (by omega), if_pos above]
        rfl
      · rename_i notMore
        have same : (entry digest1 i).toNat = (entry digest2 i).toNat := by
          rw [UInt8.lt_iff_toNat_lt] at notLess notMore
          omega
        rw [ih (i + 1) (by omega), same, order, order]
        simp only [Nat.add_lt_add_iff_left]

theorem sha256Compare_val (digest1 digest2 : Arr 32) :
    (sha256Compare digest1 digest2).val = order (value digest1) (value digest2) :=
  compareFrom_val digest1 digest2 32 0 rfl

/-! ### The seed array -/

theorem isvalid_seed (env : Env) (target : Arr 32) (seedBYTE : Arr 40) (solutionBYTE : Arr 32) (j : Nat) :
    entry (isvalid env target seedBYTE solutionBYTE).val.2 j =
      if 32 ≤ j ∧ j < 40 then entry solutionBYTE (j - 8) else entry seedBYTE j := by
  unfold isvalid
  simp only [val_bind, val_pure]
  rw [entry_forUp_write 32 (by omega) (fun i => entry solutionBYTE (24 + i))
    (fun i _ w => by simp only [val_bind, read_val, Nat.add_comm i])]
  by_cases nonce : 32 ≤ j ∧ j < 40
  · rw [if_pos (by omega), if_pos nonce, show 24 + (j - 32) = j - 8 by omega]
  · rw [if_neg (by omega), if_neg nonce]

theorem isvalid_keeps_seed (env : Env) (target : Arr 32) (seedBYTE : Arr 40) (solutionBYTE : Arr 32) :
    slice (isvalid env target seedBYTE solutionBYTE).val.2 0 32 = slice seedBYTE 0 32 := by
  apply slice_congr
  intro i hi
  rw [isvalid_seed, if_neg (by omega)]

theorem isvalid_hashed (env : Env) (target : Arr 32) (seedBYTE : Arr 40) (solutionBYTE : Arr 32) :
    slice (isvalid env target seedBYTE solutionBYTE).val.2 0 40 =
      slice seedBYTE 0 32 ++ slice solutionBYTE 24 8 := by
  refine (slice_add _ 0 32 8).trans (congrArg₂ _ (isvalid_keeps_seed _ _ _ _) (slice_congr ?_))
  intro i hi
  rw [isvalid_seed, if_pos (by omega), show 0 + 32 + i - 8 = 24 + i by omega]

/-- The nonce number of a 32-byte solution or start field. -/
def nonceOf (solutionBYTE : Arr 32) : Nat := beVal (slice solutionBYTE 24 8)

theorem beBytes_nonceOf (solutionBYTE : Arr 32) :
    beBytes 8 (nonceOf solutionBYTE) = slice solutionBYTE 24 8 := by
  have bytes := beBytes_beVal (slice solutionBYTE 24 8)
  rwa [length_slice] at bytes

theorem isvalid_val (env : Env) (target : Arr 32) (seedBYTE : Arr 40) (solutionBYTE : Arr 32) :
    (isvalid env target seedBYTE solutionBYTE).val.1 =
      order (value target) (score env.sha256 (slice seedBYTE 0 32) (nonceOf solutionBYTE)) := by
  have hashed := isvalid_hashed env target seedBYTE solutionBYTE
  simp only [isvalid, val_bind, val_pure] at hashed ⊢
  rw [sha256Compare_val, readRange_val, readRange_val, hashed, slice_toList, score, beBytes_nonceOf]
  rfl

theorem isvalid_eq_one (env : Env) (target : Arr 32) (seedBYTE : Arr 40) (solutionBYTE : Arr 32) :
    (isvalid env target seedBYTE solutionBYTE).val.1 = 1 ↔
      Solves env.sha256 (value target) (slice seedBYTE 0 32) (nonceOf solutionBYTE) := by
  rw [isvalid_val, order_eq_one]
  rfl

/-! ### Bounds -/

theorem safe_compareFrom (digest1 digest2 : Arr 32) (k i : Nat) (reach : i + k ≤ 32) :
    Safe (compareFrom digest1 digest2 i k) := by
  induction k generalizing i with
  | zero => exact safe_pure _
  | succ k ih =>
    unfold compareFrom
    simp only [safe_bind, safe_read]
    refine ⟨by omega, by omega, ?_⟩
    split
    · exact safe_pure _
    · simp only [safe_bind, safe_read]
      refine ⟨by omega, by omega, ?_⟩
      split
      · exact safe_pure _
      · exact ih (i + 1) (by omega)

theorem safe_isvalid (env : Env) (target : Arr 32) (seedBYTE : Arr 40) (solutionBYTE : Arr 32) :
    Safe (isvalid env target seedBYTE solutionBYTE) := by
  unfold isvalid
  simp only [safe_bind]
  exact ⟨safe_forUp fun i hi s => by simp; omega, safe_readRange (by omega), safe_readRange (by omega),
    safe_compareFrom _ _ 32 0 (by omega), safe_pure _⟩

end WorkServer

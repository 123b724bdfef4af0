import WorkServer.Arithmetic.Product
import WorkServer.Pointers.Refinement

/-!
# Calls whose result is an operand

`uint256_add` and `uint256_mul` leave the same bytes wherever `res` is, operands included.
`uint256_exp` skips the copy of its base when `res` is the base, so in place it squares a
cleared array and leaves zero for every positive exponent.
-/

namespace WorkServer
open Tracing BigEndian FlatMemory

/-- The buffers of a call lie below its own arrays. They may meet. -/
structure Fits (sp res a b : Nat) : Prop where
  res : res + 32 ≤ sp
  left : a + 32 ≤ sp
  right : b + 32 ≤ sp

/-- Two runs on equal operands, with any buffers, leave equal results, and an operand apart
from the result is as it was. -/
structure InPlace (call : Nat → Nat → Nat → Nat → Mem → Mem) : Prop where
  same : ∀ {sp res a b sp' res' a' b' : Nat} {m m' : Mem}, Fits sp res a b → Fits sp' res' a' b' →
    load m a 32 = load m' a' 32 → load m b 32 = load m' b' 32 →
    load (call sp res a b m) res 32 = load (call sp' res' a' b' m') res' 32
  kept : ∀ {sp res a b : Nat} {m : Mem}, Fits sp res a b → ∀ p ∈ [a, b], p + 32 ≤ res ∨ res + 32 ≤ p →
    load (call sp res a b m) p 32 = load m p 32

theorem inPlace_of_stores {call : Nat → Nat → Nat → Nat → Mem → Mem} (f : Arr 32 → Arr 32 → Arr 32)
    (stores : ∀ {sp res a b : Nat} {m : Mem}, Fits sp res a b →
      Stores sp res (f (load m a 32) (load m b 32)) m (call sp res a b m)) : InPlace call := by
  constructor
  · intro sp res a b sp' res' a' b' m m' fits fits' left right
    rw [(stores fits).stored, (stores fits').stored, left, right]
  · intro sp res a b m fits p operand apart
    have below : p + 32 ≤ sp := by
      rcases List.mem_pair.mp operand with rfl | rfl
      · exact fits.left
      · exact fits.right
    exact (stores fits).frame below apart

theorem inPlace_uint256Add : InPlace uint256AddAt := by
  apply inPlace_of_stores fun a b => encode 32 ((value a + value b) % 2 ^ 256)
  intro sp res a b m fits
  have stores := stores_uint256Add fits.res fits.left fits.right m
  rwa [eq_encode (uint256Add_value _ _ _)] at stores

theorem inPlace_uint256Mul : InPlace uint256MulAt := by
  apply inPlace_of_stores fun a b =>
    (forDown 256 (Vector.replicate 32 0, Vector.replicate 32 0) (mulBit a b)).val.2
  intro sp res a b m fits
  have stores := stores_uint256Mul fits.res fits.left fits.right m
  rwa [uint256Mul_loop] at stores

/-! ### The power -/

theorem uint256Mul_zero_left (res b : Arr 32) {a : Arr 32} (zero : value a = 0) :
    value (uint256Mul res a b).val = 0 := by
  have clear : ∀ j, entry a j = 0 := by
    intro j
    rcases Nat.lt_or_ge j 32 with inside | outside
    · exact (value_eq_zero a).mp zero j inside
    · exact entry_of_le a outside
  have kept : ProductKept a b := by
    intro q _ _
    refine ⟨fun j _ => ?_, Or.inr ?_⟩
    · rw [clear, clear]
      unfold ByteKept
      rw [UInt8.toNat_zero, carryTaken_zero, Nat.zero_shiftRight]
    · rw [zero, Nat.zero_mul]
      exact dvd_zero _
  rw [uint256Mul_of_kept res kept, zero, Nat.zero_mul, Nat.zero_mod]

/-- What squaring and collecting preserve, the halving loop preserves. -/
theorem expLoop_keeps (P : Arr 32 → Arr 32 → Prop)
    (square : ∀ acc temp, P acc temp → P (uint256Mul acc acc acc).val temp)
    (collect : ∀ acc temp, P acc temp → P acc (uint256Mul temp acc temp).val) (exp : UInt32)
    (acc temp : Arr 32) (start : P acc temp) :
    P (expLoop exp acc temp).val.1 (expLoop exp acc temp).val.2 := by
  induction exp, acc, temp using expLoop.induct with
  | case1 exp acc temp more even ih =>
    unfold expLoop
    rw [if_pos more, if_pos even, val_bind]
    exact ih _ (square _ _ start)
  | case2 exp acc temp more odd ih =>
    unfold expLoop
    rw [if_pos more, if_neg odd, val_bind, val_bind]
    exact ih _ _ (square _ _ (collect _ _ start))
  | case3 exp acc temp done =>
    unfold expLoop
    rw [if_neg done]
    exact start

theorem uint256Exp_of_base_zero (res : Arr 32) {base : Arr 32} {exp : UInt32} (positive : exp ≠ 0)
    (zero : value base = 0) : (uint256Exp res base exp false).val = Vector.replicate 32 0 := by
  have idle := expLoop_keeps (fun acc _ => value acc = 0) (fun acc _ h => uint256Mul_of_zero acc acc h)
    (fun _ _ h => h) exp base (write (Vector.replicate 32 0) 31 1).val zero
  rw [uint256Exp_loop res base positive, ← encode_zero]
  exact eq_encode (uint256Mul_zero_left res _ idle)

/-- In place and with a positive exponent the base is never read. -/
theorem uint256Exp_in_place (res base : Arr 32) {exp : UInt32} (positive : exp ≠ 0) :
    (uint256Exp res base exp true).val = Vector.replicate 32 0 := by
  rw [← uint256Exp_of_base_zero res positive (value_replicate_zero 32), uint256Exp_loop res base positive,
    uint256Exp_loop res _ positive]
  rfl

theorem uint256Exp_one (res : Arr 32) {base : Arr 32} (exp : UInt32) (one : value base = 1) :
    value (uint256Exp res base exp false).val = 1 := by
  by_cases positive : exp = 0
  · rw [positive]
    exact uint256Exp_zero res base false
  have product : ∀ {res a b : Arr 32}, value a = 1 → value b = 1 → value (uint256Mul res a b).val = 1 := by
    intro res a b left right
    exact uint256Mul_powers (p := 0) (q := 0) res left right (.inl (by decide))
  have unit := expLoop_keeps (fun acc temp => value acc = 1 ∧ value temp = 1)
    (fun _ _ h => ⟨product h.1 h.1, h.2⟩) (fun _ _ h => ⟨h.1, product h.1 h.2⟩) exp base
    (write (Vector.replicate 32 0) 31 1).val ⟨one, value_lowest 1⟩
  rw [uint256Exp_loop res base positive]
  exact product unit.1 unit.2

/-- For this exponent and every base, a run in place ends like one into a separate buffer. -/
def ExpInPlace (exp : UInt32) : Prop :=
  ∀ {sp base sp' res' base' : Nat} {m m' : Mem}, base + 32 ≤ sp → Fits sp' res' base' base' →
    res' + 32 ≤ base' ∨ base' + 32 ≤ res' → load m base 32 = load m' base' 32 →
    load (uint256ExpAt sp base base exp m) base 32 = load (uint256ExpAt sp' res' base' exp m') res' 32

theorem load_uint256Exp_in_place {sp base : Nat} (fits : base + 32 ≤ sp) {exp : UInt32} (positive : exp ≠ 0)
    (m : Mem) : load (uint256ExpAt sp base base exp m) base 32 = Vector.replicate 32 0 := by
  rw [(stores_uint256Exp fits fits exp m).stored, decide_eq_true rfl]
  exact uint256Exp_in_place _ _ positive

theorem load_uint256Exp_separate {sp res base : Nat} (fits : Fits sp res base base)
    (apart : res + 32 ≤ base ∨ base + 32 ≤ res) (exp : UInt32) (m : Mem) :
    load (uint256ExpAt sp res base exp m) res 32 =
      (uint256Exp (load m res 32) (load m base 32) exp false).val := by
  rw [(stores_uint256Exp fits.res fits.left exp m).stored, decide_eq_false (by omega)]

/-- A memory with the number `x` at address 0. -/
def holding (x : BYTE) : Mem := poke (fun _ => 0) 31 x

theorem value_holding (x : BYTE) : value (load (holding x) 0 32) = x.toNat := by
  have cleared : load (fun _ => 0) 0 32 = (Vector.replicate 32 0 : Arr 32) := by
    apply entry_ext
    intro j hj
    rw [entry_load _ _ hj, entry_replicate 0 hj]
  have bytes := load_poke (fun _ => 0) 0 (show 31 < 32 by omega) x
  rw [Nat.zero_add, cleared] at bytes
  rw [holding, bytes, value_lowest]

theorem expInPlace_zero : ExpInPlace 0 := by
  intro sp base sp' res' base' m m' fits fits' apart _
  rw [(stores_uint256Exp fits fits 0 m).stored, load_uint256Exp_separate fits' apart,
    eq_encode (uint256Exp_zero _ _ _), eq_encode (uint256Exp_zero _ _ _)]

theorem not_expInPlace {exp : UInt32} (positive : exp ≠ 0) : ¬ ExpInPlace exp := by
  intro same
  have fits : Fits 64 32 0 0 := ⟨by omega, by omega, by omega⟩
  have equal := same (show 0 + 32 ≤ 64 by omega) fits (.inr (by decide)) (Eq.refl (load (holding 1) 0 32))
  rw [load_uint256Exp_in_place (by omega) positive, load_uint256Exp_separate fits (.inr (by decide))] at equal
  have one := uint256Exp_one (load (holding 1) 32 32) exp (value_holding 1)
  rw [← equal, value_replicate_zero] at one
  cases one

/-- Sums and products may be computed in place; a power only for the exponent 0. For another exponent
the run in place is right for the bases whose power is 0 alone. -/
theorem in_place_iff (exp : UInt32) :
    InPlace uint256AddAt ∧ InPlace uint256MulAt ∧ (ExpInPlace exp ↔ exp = 0) ∧
    (∀ sp res base m, Fits sp res base base → res + 32 ≤ base ∨ base + 32 ≤ res →
      load (uint256ExpAt sp res base exp m) base 32 = load m base 32) ∧
    (∀ sp base m, base + 32 ≤ sp → exp ≠ 0 →
      load (uint256ExpAt sp base base exp m) base 32 = Vector.replicate 32 0) ∧
    ∀ sp res base m, base + 32 ≤ sp → exp ≠ 0 →
      (load (uint256ExpAt sp base base exp m) base 32 = load (uint256ExpAt sp res base exp m) res 32 ↔
        load (uint256ExpAt sp res base exp m) res 32 = Vector.replicate 32 0) := by
  refine ⟨inPlace_uint256Add, inPlace_uint256Mul, ⟨?_, ?_⟩, ?_, ?_, ?_⟩
  · intro same
    by_contra positive
    exact not_expInPlace positive same
  · rintro rfl
    exact expInPlace_zero
  · intro sp res base m fits apart
    exact (stores_uint256Exp fits.res fits.left exp m).frame fits.left (by omega)
  · intro sp base m fits positive
    exact load_uint256Exp_in_place fits positive m
  · intro sp res base m fits positive
    rw [load_uint256Exp_in_place fits positive]
    exact eq_comm

/-- `uint256_exp (x, x, 1)` with 2 in `x` leaves 0; into another buffer it leaves 2. -/
theorem exp_drops_base :
    load (uint256ExpAt 64 0 0 1 (holding 2)) 0 32 = encode 32 0 ∧
      load (uint256ExpAt 64 32 0 1 (holding 2)) 32 32 = encode 32 2 ∧ encode 32 0 ≠ encode 32 2 := by
  refine ⟨?_, ?_, by decide⟩
  · rw [load_uint256Exp_in_place (by decide) (by decide), encode_zero]
  · rw [load_uint256Exp_separate ⟨by omega, by omega, by omega⟩ (.inr (by decide))]
    exact eq_encode (uint256Exp_two _ 1 (value_holding 2))

end WorkServer

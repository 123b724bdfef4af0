import WorkServer.Arithmetic.Power
import WorkServer.Pointers

/-!
# Pointer calls compute what array calls do

Wherever the buffers of a call lie below its own arrays, it leaves in `res` what the
function of the array model computes from the operands as they were before the call, and
changes nothing else: the operands are copied before `res` is written.
-/

namespace WorkServer
open Tracing FlatMemory

variable {m : Mem} {sp res a b : Nat}

theorem stores_uint256Init (sp u : Nat) (m : Mem) :
    Stores sp u (Vector.replicate 32 0 : Arr 32) m (uint256InitAt u m) :=
  stores_up sp fun i hi m' _ => by rw [entry_replicate 0 hi]

theorem stores_memcpy (sp : Nat) {dst src : Nat} (apart : dst + 32 ≤ src ∨ src + 32 ≤ dst) (m : Mem) :
    Stores sp dst (load m src 32) m (memcpyAt dst src 32 m) :=
  stores_up sp fun i hi m' same => by rw [entry_load _ _ hi, same (src + i) (by omega)]

/-- A loop over memory and one over arrays agree on their counter and on the bytes at `res`. -/
structure Tracks {γ : Type} (m : Mem) (res : Nat) (counter counter' : γ) (m' : Mem) (v : Arr 32) : Prop where
  same : counter = counter'
  stores : ∀ sp, Stores sp res v m m'

theorem Tracks.read {γ : Type} {counter counter' : γ} {m m' : Mem} {v : Arr 32}
    (inv : Tracks m res counter counter' m' v) (apart : res + 32 ≤ a ∨ a + 32 ≤ res) {j : Nat} (hj : j < 32) :
    m' (a + j) = entry (load m a 32) j := by
  rw [entry_load _ _ hj, (inv.stores _).kept _ (Nat.lt_succ_self _) (by omega)]

/-! ### The shift -/

theorem stores_uint256Sl (sp : Nat) {res a : Nat} (apart : res + 32 ≤ a ∨ a + 32 ≤ res) (shift : BYTE)
    (m : Mem) : Stores sp res (uint256Sl (load m res 32) (load m a 32) shift).val m
      (uint256SlAt res a shift m) := by
  unfold uint256SlAt uint256Sl
  dsimp only
  split
  · rw [memcpy_all]
    exact stores_memcpy sp apart m
  · rw [val_map]
    generalize UInt8.ofNat (0xff <<< (8 - (shift % 8).toNat)) = mask
    have start : Tracks m res (0 : BYTE) 0 m (load m res 32) := ⟨rfl, fun sp => Stores.refl sp res m⟩
    refine (down_sim (fun (s : Mem × BYTE) (t : Arr 32 × BYTE) => Tracks m res s.2 t.2 s.1 t.1)
      start ?_).stores sp
    rintro i hi ⟨m', carry⟩ ⟨temp, carry'⟩ inv
    obtain rfl : carry = carry' := inv.same
    have operand := inv.read apart (show i + (shift / 8).toNat < 32 by omega)
    dsimp only at operand
    unfold slByteAt slByte
    simp only [val_bind, val_pure, read_val]
    rw [poke_other _ _ (by omega), operand]
    exact ⟨rfl, fun sp => (inv.stores sp).poke (by omega) _⟩

/-! ### The sum -/

theorem stores_uint256Add (hres : res + 32 ≤ sp) (ha : a + 32 ≤ sp) (hb : b + 32 ≤ sp) (m : Mem) :
    Stores sp res (uint256Add (load m res 32) (load m a 32) (load m b 32)).val m
      (uint256AddAt sp res a b m) := by
  rw [uint256Add_loop]
  unfold uint256AddAt
  dsimp only
  -- The operands are copied behind `sp` first.
  have first := stores_uint256Init (sp + 64) sp m
  have second := stores_uint256Init (sp + 64) (sp + 32) (uint256InitAt sp m)
  generalize uint256InitAt sp m = m₁ at first second ⊢
  generalize uint256InitAt (sp + 32) m₁ = m₂ at second ⊢
  have third := stores_memcpy (sp + 64) (show sp + 32 ≤ a ∨ a + 32 ≤ sp by omega) m₂
  generalize memcpyAt sp a 32 m₂ = m₃ at third ⊢
  have fourth := stores_memcpy (sp + 64) (show sp + 32 + 32 ≤ b ∨ b + 32 ≤ sp + 32 by omega) m₃
  generalize memcpyAt (sp + 32) b 32 m₃ = m₄ at fourth ⊢
  have below : ∀ q < sp, m₄ q = m q := by
    intro q low
    rw [fourth.kept q (by omega) (by omega), third.kept q (by omega) (by omega),
      second.kept q (by omega) (by omega), first.kept q (by omega) (by omega)]
  have left : load m₄ sp 32 = load m a 32 := by
    rw [fourth.frame (by omega) (by omega), third.stored, second.frame (by omega) (by omega),
      first.frame (by omega) (by omega)]
  have right : load m₄ (sp + 32) 32 = load m b 32 := by
    rw [fourth.stored, third.frame (by omega) (by omega), second.frame (by omega) (by omega),
      first.frame (by omega) (by omega)]
  have prior : load m₄ res 32 = load m res 32 := load_congr fun i hi => below _ (by omega)
  rw [← left, ← right, ← prior]
  have start : Tracks m₄ res (0 : UInt16) 0 m₄ (load m₄ res 32) := ⟨rfl, fun sp => Stores.refl sp res m₄⟩
  refine Stores.after ((down_sim (fun (s : UInt16 × Mem) (t : UInt16 × Arr 32) =>
    Tracks m₄ res s.1 t.1 s.2 t.2) start ?_).stores sp) below
  rintro i hi ⟨temp, m'⟩ ⟨temp', sum⟩ inv
  obtain rfl : temp = temp' := inv.same
  have readA := inv.read (a := sp) (by omega) hi
  have readB := inv.read (a := sp + 32) (by omega) hi
  dsimp only at readA readB
  unfold addByteAt addByte
  simp only [val_bind, val_pure, read_val, readA, readB]
  exact ⟨rfl, fun sp => (inv.stores sp).poke hi _⟩

/-! ### The product -/

/-- The locals of a product while its loop runs. -/
structure MulRel (sp : Nat) (m : Mem) (aa bb : Arr 32) (m' : Mem) (t : Arr 32 × Arr 32) : Prop where
  temp : load m' sp 32 = t.1
  acc : load m' (sp + 32) 32 = t.2
  left : load m' (sp + 64) 32 = aa
  right : load m' (sp + 96) 32 = bb
  kept : ∀ q < sp, m' q = m q

theorem mulBitAt_rel {aa bb : Arr 32} {m' : Mem} {t : Arr 32 × Arr 32} (inv : MulRel sp m aa bb m' t) {i : Nat}
    (hi : i < 256) : MulRel sp m aa bb
      (mulBitAt (sp + 128) sp (sp + 32) (sp + 64) (sp + 96) i m') (mulBit aa bb i t).val := by
  obtain ⟨temp, acc⟩ := t
  obtain ⟨hTemp, hAcc, left, right, kept⟩ := inv
  dsimp only at hTemp hAcc
  have bit : m' (sp + 96 + i / 8) = entry bb (i / 8) := by
    rw [← right, entry_load _ _ (by omega)]
  unfold mulBitAt mulBit
  simp only [val_bind, read_val, bit]
  split
  · have shifted := stores_uint256Sl (sp + 128) (show sp + 32 ≤ sp + 64 ∨ _ by omega) (UInt8.ofNat (255 - i)) m'
    rw [hTemp, left] at shifted
    generalize uint256SlAt sp (sp + 64) (UInt8.ofNat (255 - i)) m' = m₁ at shifted ⊢
    have added := stores_uint256Add (show sp + 32 + 32 ≤ sp + 128 by omega)
      (show sp + 32 + 32 ≤ sp + 128 by omega) (show sp + 32 ≤ sp + 128 by omega) m₁
    rw [shifted.stored, shifted.frame (by omega) (by omega), hAcc] at added
    generalize uint256AddAt (sp + 128) (sp + 32) (sp + 32) sp m₁ = m₂ at added ⊢
    simp only [val_bind, val_pure]
    refine ⟨?_, added.stored, ?_, ?_, ?_⟩
    · rw [added.frame (by omega) (by omega), shifted.stored]
    · rw [added.frame (by omega) (by omega), shifted.frame (by omega) (by omega), left]
    · rw [added.frame (by omega) (by omega), shifted.frame (by omega) (by omega), right]
    · intro q low
      rw [added.kept q (by omega) (by omega), shifted.kept q (by omega) (by omega), kept q low]
  · exact ⟨hTemp, hAcc, left, right, kept⟩

theorem stores_uint256Mul (hres : res + 32 ≤ sp) (ha : a + 32 ≤ sp) (hb : b + 32 ≤ sp) (m : Mem) :
    Stores sp res (uint256Mul (load m res 32) (load m a 32) (load m b 32)).val m
      (uint256MulAt sp res a b m) := by
  rw [uint256Mul_loop]
  unfold uint256MulAt
  dsimp only
  -- The four locals are cleared, then two of them take the operands.
  have temp := stores_uint256Init (sp + 128) sp m
  generalize uint256InitAt sp m = m₁ at temp ⊢
  have aa := stores_uint256Init (sp + 128) (sp + 64) m₁
  generalize uint256InitAt (sp + 64) m₁ = m₂ at aa ⊢
  have bb := stores_uint256Init (sp + 128) (sp + 96) m₂
  generalize uint256InitAt (sp + 96) m₂ = m₃ at bb ⊢
  have acc := stores_uint256Init (sp + 128) (sp + 32) m₃
  generalize uint256InitAt (sp + 32) m₃ = m₄ at acc ⊢
  have right := stores_memcpy (sp + 128) (show sp + 96 + 32 ≤ b ∨ b + 32 ≤ sp + 96 by omega) m₄
  generalize memcpyAt (sp + 96) b 32 m₄ = m₅ at right ⊢
  have left := stores_memcpy (sp + 128) (show sp + 64 + 32 ≤ a ∨ a + 32 ≤ sp + 64 by omega) m₅
  generalize memcpyAt (sp + 64) a 32 m₅ = m₆ at left ⊢
  have start : MulRel sp m (load m a 32) (load m b 32) m₆ (Vector.replicate 32 0, Vector.replicate 32 0) := by
    refine ⟨?_, ?_, ?_, ?_, fun q low => ?_⟩
    · rw [left.frame (by omega) (by omega), right.frame (by omega) (by omega), acc.frame (by omega) (by omega),
        bb.frame (by omega) (by omega), aa.frame (by omega) (by omega), temp.stored]
    · rw [left.frame (by omega) (by omega), right.frame (by omega) (by omega), acc.stored]
    · rw [left.stored, right.frame (by omega) (by omega), acc.frame (by omega) (by omega),
        bb.frame (by omega) (by omega), aa.frame (by omega) (by omega), temp.frame (by omega) (by omega)]
    · rw [left.frame (by omega) (by omega), right.stored, acc.frame (by omega) (by omega),
        bb.frame (by omega) (by omega), aa.frame (by omega) (by omega), temp.frame (by omega) (by omega)]
    · rw [left.kept q (by omega) (by omega), right.kept q (by omega) (by omega), acc.kept q (by omega) (by omega),
        bb.kept q (by omega) (by omega), aa.kept q (by omega) (by omega), temp.kept q (by omega) (by omega)]
  have final : MulRel sp m (load m a 32) (load m b 32)
      (down 256 m₆ (mulBitAt (sp + 128) sp (sp + 32) (sp + 64) (sp + 96)))
      (forDown 256 (Vector.replicate 32 0, Vector.replicate 32 0) (mulBit (load m a 32) (load m b 32))).val :=
    down_sim (MulRel sp m (load m a 32) (load m b 32)) start fun _ hi _ _ inv => mulBitAt_rel inv hi
  rw [← final.acc]
  exact (stores_memcpy sp (by omega) _).after final.kept

/-! ### The power -/

/-- The locals of `uint256_exp` while its loop runs. -/
structure ExpRel (sp : Nat) (m : Mem) (m' : Mem) (acc temp : Arr 32) : Prop where
  temp : load m' sp 32 = temp
  acc : load m' (sp + 32) 32 = acc
  kept : ∀ q < sp, m' q = m q

theorem ExpRel.square {m' : Mem} {acc temp : Arr 32} (inv : ExpRel sp m m' acc temp) :
    ExpRel sp m (uint256MulAt (sp + 64) (sp + 32) (sp + 32) (sp + 32) m') (uint256Mul acc acc acc).val temp := by
  have squared := stores_uint256Mul (show sp + 32 + 32 ≤ sp + 64 by omega) (show sp + 32 + 32 ≤ sp + 64 by omega)
    (show sp + 32 + 32 ≤ sp + 64 by omega) m'
  rw [inv.acc] at squared
  refine ⟨?_, squared.stored, fun q low => ?_⟩
  · rw [squared.frame (by omega) (by omega), inv.temp]
  · rw [squared.kept q (by omega) (by omega), inv.kept q low]

theorem ExpRel.collect {m' : Mem} {acc temp : Arr 32} (inv : ExpRel sp m m' acc temp) :
    ExpRel sp m (uint256MulAt (sp + 64) sp (sp + 32) sp m') acc (uint256Mul temp acc temp).val := by
  have product := stores_uint256Mul (show sp + 32 ≤ sp + 64 by omega) (show sp + 32 + 32 ≤ sp + 64 by omega)
    (show sp + 32 ≤ sp + 64 by omega) m'
  rw [inv.acc, inv.temp] at product
  refine ⟨product.stored, ?_, fun q low => ?_⟩
  · rw [product.frame (by omega) (by omega), inv.acc]
  · rw [product.kept q (by omega) (by omega), inv.kept q low]

theorem expLoopAt_rel (exp : UInt32) (acc temp : Arr 32) {m' : Mem} (inv : ExpRel sp m m' acc temp) :
    ExpRel sp m (expLoopAt (sp + 64) (sp + 32) sp exp m') (expLoop exp acc temp).val.1
      (expLoop exp acc temp).val.2 := by
  induction exp, acc, temp using expLoop.induct generalizing m' with
  | case1 exp acc temp more even ih =>
    unfold expLoop expLoopAt
    rw [if_pos more, if_pos even, if_pos more, if_pos even, val_bind]
    exact ih _ inv.square
  | case2 exp acc temp more odd ih =>
    unfold expLoop expLoopAt
    rw [if_pos more, if_neg odd, if_pos more, if_neg odd, val_bind, val_bind]
    exact ih _ _ inv.collect.square
  | case3 exp acc temp done =>
    unfold expLoop expLoopAt
    rw [if_neg done, if_neg done]
    exact inv

theorem stores_uint256Exp (hres : res + 32 ≤ sp) (ha : a + 32 ≤ sp) (exp : UInt32) (m : Mem) :
    Stores sp res (uint256Exp (load m res 32) (load m a 32) exp (decide (res = a))).val m
      (uint256ExpAt sp res a exp m) := by
  unfold uint256Exp uint256ExpAt
  split
  · rw [val_bind]
    have start : Tracks m res () () m (load m res 32) := ⟨rfl, fun sp => Stores.refl sp res m⟩
    have cleared : Tracks m res () () (up 31 m fun i m => poke m (res + i) 0)
        (forUp 31 (load m res 32) fun i res => write res i 0).val :=
      up_sim (Tracks m res () ()) start fun i hi _ _ inv => ⟨rfl, fun sp => (inv.stores sp).poke (by omega) 0⟩
    exact (cleared.stores sp).poke (by omega) 1
  · dsimp only
    simp only [val_bind, uint256Init_val]
    have temp := stores_uint256Init (sp + 64) sp m
    generalize uint256InitAt sp m = m₁ at temp ⊢
    have acc := stores_uint256Init (sp + 64) (sp + 32) m₁
    generalize uint256InitAt (sp + 32) m₁ = m₂ at acc ⊢
    have based : Stores (sp + 64) (sp + 32)
        (loadBase (decide (res = a)) (Vector.replicate 32 0) (load m a 32)).val m₁
        (if res ≠ a then memcpyAt (sp + 32) a 32 m₂ else m₂) := by
      unfold loadBase
      by_cases same : res = a
      · rw [if_pos (decide_eq_true same), if_neg (not_not.mpr same)]
        exact acc
      · have copied := stores_memcpy (sp + 64) (show sp + 32 + 32 ≤ a ∨ a + 32 ≤ sp + 32 by omega) m₂
        rw [acc.frame (by omega) (by omega), temp.frame (by omega) (by omega)] at copied
        rw [if_neg (by simpa using same), if_pos same, memcpy_all]
        refine ⟨copied.stored, fun q low outside => ?_⟩
        rw [copied.kept q low outside, acc.kept q low outside]
    generalize (if res ≠ a then memcpyAt (sp + 32) a 32 m₂ else m₂) = m₃ at based ⊢
    generalize (loadBase (decide (res = a)) (Vector.replicate 32 0) (load m a 32)).val = base at based ⊢
    have start : ExpRel sp m (poke m₃ (sp + 31) 1) base (write (Vector.replicate 32 0) 31 1).val := by
      refine ⟨?_, ?_, fun q low => ?_⟩
      · rw [load_poke _ _ (by omega), based.frame (by omega) (by omega), temp.stored]
      · rw [← based.stored]
        exact load_congr fun i hi => poke_other _ _ (by omega)
      · rw [poke_other _ _ (by omega), based.kept q (by omega) (by omega), temp.kept q (by omega) (by omega)]
    have looped := expLoopAt_rel exp base (write (Vector.replicate 32 0) 31 1).val start
    have product := stores_uint256Mul (show res + 32 ≤ sp + 64 by omega) (show sp + 32 + 32 ≤ sp + 64 by omega)
      (show sp + 32 ≤ sp + 64 by omega) (expLoopAt (sp + 64) (sp + 32) sp exp (poke m₃ (sp + 31) 1))
    rw [looped.acc, looped.temp] at product
    have prior : load (expLoopAt (sp + 64) (sp + 32) sp exp (poke m₃ (sp + 31) 1)) res 32 = load m res 32 :=
      load_congr fun i hi => looped.kept _ (by omega)
    rw [prior] at product
    refine ⟨product.stored, fun q low outside => ?_⟩
    rw [product.kept q (by omega) outside, looped.kept q low]

end WorkServer

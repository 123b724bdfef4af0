import WorkServer.Memory

/-!
# 256-bit numbers in byte arrays

The functions of `uint256.h`, on arrays that hold the most significant byte first.
The NULL tests are left out: every pointer here is an array. Where the source asks
whether two pointers are equal, the answer is an argument.
-/

namespace WorkServer
open Tracing

variable {n : Nat}

/-- A local array of these functions before its first write. Each of them clears
or overwrites its locals before it reads them. -/
def uninit : Arr 32 := Vector.replicate 32 0

def uint256Init (u : Arr n) : Traced (Arr n) := forUp 32 u fun i u => write u i 0

/-- One byte of the shift: `res[i]` takes `a[i + b]` and the carry of the byte before. -/
def slByte (a : Arr 32) (b move_n mask : BYTE) (i : Nat) : Arr 32 × BYTE → Traced (Arr 32 × BYTE)
  | (res, carry) => do
    let res ← write res i
      (UInt8.ofNat ((← read a (i + b.toNat)).toNat <<< move_n.toNat ||| carry.toNat))
    let carry := UInt8.ofNat (((← read a (i + b.toNat)).toNat &&& mask.toNat) >>> move_n.toNat)
    return (res, carry)

def uint256Sl (res a : Arr 32) (shift : BYTE) : Traced (Arr 32) :=
  let b := shift / 8
  let move_n := shift % 8
  if shift = 0 then
    memcpy res 0 a 0 32
  else
    -- For `move_n = 0` the 8-bit mask is 0, not `0xff`.
    let mask := UInt8.ofNat (0xff <<< (8 - move_n.toNat))
    Prod.fst <$> forDown (32 - b.toNat) (res, 0) (slByte a b move_n mask)

def addByte (aa bb : Arr 32) (i : Nat) : UInt16 × Arr 32 → Traced (UInt16 × Arr 32)
  | (temp, res) => do
    let temp := temp >>> 8
    let temp := temp + (← read aa i).toUInt16
    let temp := temp + (← read bb i).toUInt16
    return (temp, ← write res i (temp &&& 0xff).toUInt8)

def uint256Add (res a b : Arr 32) : Traced (Arr 32) := do
  let aa ← uint256Init uninit
  let bb ← uint256Init uninit
  let aa ← memcpy aa 0 a 0 32
  let bb ← memcpy bb 0 b 0 32
  Prod.snd <$> forDown 32 (0, res) (addByte aa bb)

def mulBit (aa bb : Arr 32) (i : Nat) : Arr 32 × Arr 32 → Traced (Arr 32 × Arr 32)
  | (temp, acc) => do
    if (← read bb (i / 8)).toNat &&& 1 <<< (7 - i % 8) > 0 then
      let temp ← uint256Sl temp aa (UInt8.ofNat (255 - i))
      let acc ← uint256Add acc acc temp
      return (temp, acc)
    else
      return (temp, acc)

def uint256Mul (res a b : Arr 32) : Traced (Arr 32) := do
  let temp ← uint256Init uninit
  let aa ← uint256Init uninit
  let bb ← uint256Init uninit
  let acc ← uint256Init uninit
  let bb ← memcpy bb 0 b 0 32
  let aa ← memcpy aa 0 a 0 32
  let (_, acc) ← forDown 256 (temp, acc) (mulBit aa bb)
  memcpy res 0 acc 0 32

theorem toNat_half (exp : UInt32) : (exp / 2).toNat = exp.toNat / 2 := UInt32.toNat_div ..

theorem toNat_half_pred {exp : UInt32} (more : 1 < exp) :
    ((exp - 1) / 2).toNat = (exp.toNat - 1) / 2 := by
  have bound : 1 < exp.toNat := more
  rw [toNat_half, UInt32.toNat_sub_of_le exp 1 (UInt32.le_iff_toNat_le.mpr (Nat.le_of_lt bound))]
  rfl

def expLoop (exp : UInt32) (acc temp : Arr 32) : Traced (Arr 32 × Arr 32) :=
  if 1 < exp then
    if exp % 2 = 0 then do
      let acc ← uint256Mul acc acc acc
      expLoop (exp / 2) acc temp
    else do
      let temp ← uint256Mul temp acc temp
      let acc ← uint256Mul acc acc acc
      expLoop ((exp - 1) / 2) acc temp
  else
    return (acc, temp)
termination_by exp.toNat
decreasing_by
  all_goals
    rename_i more _
    have bound : 1 < exp.toNat := more
  · rw [toNat_half]
    omega
  · rw [toNat_half_pred more]
    omega

/-- `if (res != base) memcpy (acc, base, 32);` -/
def loadBase (resIsBase : Bool) (acc base : Arr 32) : Traced (Arr 32) :=
  if resIsBase then pure acc else memcpy acc 0 base 0 32

/-- `resIsBase` is the answer to the pointer test `res == base`. -/
def uint256Exp (res base : Arr 32) (exp : UInt32) (resIsBase : Bool) : Traced (Arr 32) := do
  if exp = 0 then
    let res ← forUp 31 res fun i res => write res i 0
    write res 31 0x1
  else
    let temp ← uint256Init uninit
    let acc ← uint256Init uninit
    let acc ← loadBase resIsBase acc base
    let temp ← write temp 31 0x1
    let (acc, temp) ← expLoop exp acc temp
    uint256Mul res acc temp

/-! ### Bounds -/

theorem safe_uint256Init {u : Arr n} (fits : 32 ≤ n) : Safe (uint256Init u) :=
  safe_forUp fun i hi u => by simp; omega

theorem safe_slByte (a : Arr 32) (b move_n mask : BYTE) {i : Nat} (h : i + b.toNat < 32)
    (t : Arr 32 × BYTE) : Safe (slByte a b move_n mask i t) := by
  simp [slByte]
  omega

theorem safe_uint256Sl (res a : Arr 32) (shift : BYTE) : Safe (uint256Sl res a shift) := by
  unfold uint256Sl
  dsimp only
  split
  · exact safe_memcpy (by omega) (by omega)
  · rw [safe_map]
    exact safe_forDown fun i hi t => safe_slByte a _ _ _ (by omega) t

theorem safe_uint256Add (res a b : Arr 32) : Safe (uint256Add res a b) := by
  unfold uint256Add
  simp only [safe_bind, safe_map]
  refine ⟨safe_uint256Init (by omega), safe_uint256Init (by omega), safe_memcpy (by omega) (by omega),
    safe_memcpy (by omega) (by omega), safe_forDown fun i hi t => ?_⟩
  simp [addByte]
  omega

theorem safe_mulBit (aa bb : Arr 32) {i : Nat} (h : i < 256) (t : Arr 32 × Arr 32) :
    Safe (mulBit aa bb i t) := by
  unfold mulBit
  simp only [safe_bind, safe_read]
  refine ⟨by omega, ?_⟩
  split
  · simp [safe_uint256Sl, safe_uint256Add]
  · exact safe_pure _

theorem safe_uint256Mul (res a b : Arr 32) : Safe (uint256Mul res a b) := by
  unfold uint256Mul
  simp only [safe_bind]
  exact ⟨safe_uint256Init (by omega), safe_uint256Init (by omega), safe_uint256Init (by omega),
    safe_uint256Init (by omega), safe_memcpy (by omega) (by omega), safe_memcpy (by omega) (by omega),
    safe_forDown fun i hi t => safe_mulBit _ _ hi t, safe_memcpy (by omega) (by omega)⟩

theorem safe_expLoop (exp : UInt32) (acc temp : Arr 32) : Safe (expLoop exp acc temp) := by
  induction exp, acc, temp using expLoop.induct with
  | case1 exp acc temp more even ih =>
    unfold expLoop
    rw [if_pos more, if_pos even, safe_bind]
    exact ⟨safe_uint256Mul _ _ _, ih _⟩
  | case2 exp acc temp more odd ih =>
    unfold expLoop
    rw [if_pos more, if_neg odd, safe_bind, safe_bind]
    exact ⟨safe_uint256Mul _ _ _, safe_uint256Mul _ _ _, ih _ _⟩
  | case3 exp acc temp done =>
    unfold expLoop
    rw [if_neg done]
    exact safe_pure _

theorem safe_uint256Exp (res base : Arr 32) (exp : UInt32) (resIsBase : Bool) :
    Safe (uint256Exp res base exp resIsBase) := by
  unfold uint256Exp
  split
  · rw [safe_bind, safe_write]
    exact ⟨safe_forUp fun i hi u => by simp; omega, by omega⟩
  · simp only [safe_bind]
    refine ⟨safe_uint256Init (by omega), safe_uint256Init (by omega), ?_, by simp,
      safe_expLoop _ _ _, safe_uint256Mul _ _ _⟩
    cases resIsBase
    · exact safe_memcpy (by omega) (by omega)
    · exact safe_pure _

end WorkServer

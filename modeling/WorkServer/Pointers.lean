import WorkServer.Lib.Flat
import WorkServer.Mining

/-!
# The functions of `uint256.h` on pointers

The same functions once more, over one flat memory, for calls whose pointers meet; none of
them is NULL. `sp` is the first address of a call's own arrays; those of the functions it
calls lie behind them.
-/

namespace WorkServer
open Tracing FlatMemory

def uint256InitAt (u : Nat) (m : Mem) : Mem := up 32 m fun i m => poke m (u + i) 0

def memcpyAt (dst src len : Nat) (m : Mem) : Mem := up len m fun i m => poke m (dst + i) (m (src + i))

def slByteAt (res a : Nat) (b move_n mask : BYTE) (i : Nat) : Mem × BYTE → Mem × BYTE
  | (m, carry) =>
    let m := poke m (res + i)
      (UInt8.ofNat ((m (a + (i + b.toNat))).toNat <<< move_n.toNat ||| carry.toNat))
    let carry := UInt8.ofNat (((m (a + (i + b.toNat))).toNat &&& mask.toNat) >>> move_n.toNat)
    (m, carry)

def uint256SlAt (res a : Nat) (shift : BYTE) (m : Mem) : Mem :=
  let b := shift / 8
  let move_n := shift % 8
  if shift = 0 then
    memcpyAt res a 32 m
  else
    let mask := UInt8.ofNat (0xff <<< (8 - move_n.toNat))
    (down (32 - b.toNat) (m, 0) (slByteAt res a b move_n mask)).1

def addByteAt (res aa bb i : Nat) : UInt16 × Mem → UInt16 × Mem
  | (temp, m) =>
    let temp := temp >>> 8
    let temp := temp + (m (aa + i)).toUInt16
    let temp := temp + (m (bb + i)).toUInt16
    (temp, poke m (res + i) (temp &&& 0xff).toUInt8)

def uint256AddAt (sp res a b : Nat) (m : Mem) : Mem :=
  let aa := sp
  let bb := sp + 32
  let m := uint256InitAt aa m
  let m := uint256InitAt bb m
  let m := memcpyAt aa a 32 m
  let m := memcpyAt bb b 32 m
  (down 32 (0, m) (addByteAt res aa bb)).2

def mulBitAt (sp temp acc aa bb i : Nat) (m : Mem) : Mem :=
  if (m (bb + i / 8)).toNat &&& 1 <<< (7 - i % 8) > 0 then
    let m := uint256SlAt temp aa (UInt8.ofNat (255 - i)) m
    uint256AddAt sp acc acc temp m
  else
    m

def uint256MulAt (sp res a b : Nat) (m : Mem) : Mem :=
  let temp := sp
  let acc := sp + 32
  let aa := sp + 64
  let bb := sp + 96
  let m := uint256InitAt temp m
  let m := uint256InitAt aa m
  let m := uint256InitAt bb m
  let m := uint256InitAt acc m
  let m := memcpyAt bb b 32 m
  let m := memcpyAt aa a 32 m
  let m := down 256 m (mulBitAt (sp + 128) temp acc aa bb)
  memcpyAt res acc 32 m

def expLoopAt (sp acc temp : Nat) (exp : UInt32) (m : Mem) : Mem :=
  if 1 < exp then
    if exp % 2 = 0 then
      let m := uint256MulAt sp acc acc acc m
      expLoopAt sp acc temp (exp / 2) m
    else
      let m := uint256MulAt sp temp acc temp m
      let m := uint256MulAt sp acc acc acc m
      expLoopAt sp acc temp ((exp - 1) / 2) m
  else
    m
termination_by exp.toNat
decreasing_by
  all_goals
    have more : 1 < exp := by assumption
    have bound : 1 < exp.toNat := more
  · rw [toNat_half]
    omega
  · rw [toNat_half_pred more]
    omega

def uint256ExpAt (sp res base : Nat) (exp : UInt32) (m : Mem) : Mem :=
  if exp = 0 then
    let m := up 31 m fun i m => poke m (res + i) 0
    poke m (res + 31) 0x1
  else
    let temp := sp
    let acc := sp + 32
    let m := uint256InitAt temp m
    let m := uint256InitAt acc m
    let m := if res ≠ base then memcpyAt acc base 32 m else m
    let m := poke m (temp + 31) 0x1
    let m := expLoopAt (sp + 64) acc temp exp m
    uint256MulAt (sp + 64) res acc temp m

/-- The verdict, with the digests of `isvalid` taken from memory and kept out of it. -/
def isvalidAt (env : Env) (target seedBYTE solutionBYTE : Nat) (m : Mem) : Int × Mem :=
  let m := up 8 m fun i m => poke m (seedBYTE + (i + 32)) (m (solutionBYTE + (i + 24)))
  let buf := env.sha256 (load m seedBYTE 40).toList
  let buf2 := env.sha256 buf.toList
  ((sha256Compare (load m target 32) buf2).val, m)

end WorkServer

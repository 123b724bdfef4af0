import Mathlib.Data.Nat.NthRoot.Defs
import WorkServer.Lib.BigEndian
import WorkServer.Lib.BlockHash
import WorkServer.Sha256

/-!
# The standard's SHA-256

The hash as the standard defines it, without contexts and buffers: constants from the
roots of the first primes, a schedule by recursion on the index of its words, rounds,
and a message padded to whole blocks of 64 bytes with its length in bits at the end.
The length counts modulo `2 ^ 64`.
-/

namespace WorkServer.Sha256.Standard
open BigEndian BlockHash Tracing

/-! ### Constants -/

/-- The first 64 primes. -/
def primes : List Nat :=
  [2, 3, 5, 7, 11, 13, 17, 19, 23, 29, 31, 37, 41, 43, 47, 53, 59, 61, 67, 71, 73, 79, 83, 89, 97, 101, 103,
    107, 109, 113, 127, 131, 137, 139, 149, 151, 157, 163, 167, 173, 179, 181, 191, 193, 197, 199, 211, 223,
    227, 229, 233, 239, 241, 251, 257, 263, 269, 271, 277, 281, 283, 293, 307, 311]

/-- The first 32 bits after the point of the `e`-th root of the prime with index `i`. -/
def rootWord (e i : Nat) : WORD := UInt32.ofNat (Nat.nthRoot e (primes.getD i 0 * 2 ^ (32 * e)))

def K (t : Nat) : WORD := rootWord 3 t

def H0 : Vector WORD 8 := Vector.ofFn fun j => rootWord 2 j

/-! ### The block function -/

def rotr (r : Nat) (x : WORD) : WORD := UInt32.ofBitVec (x.toBitVec.rotateRight r)

def Sigma0 (x : WORD) : WORD := rotr 2 x ^^^ rotr 13 x ^^^ rotr 22 x

def Sigma1 (x : WORD) : WORD := rotr 6 x ^^^ rotr 11 x ^^^ rotr 25 x

def sigma0 (x : WORD) : WORD := rotr 7 x ^^^ rotr 18 x ^^^ x >>> 3

def sigma1 (x : WORD) : WORD := rotr 17 x ^^^ rotr 19 x ^^^ x >>> 10

/-- The `t`-th word of a block. -/
def word (block : List BYTE) (t : Nat) : WORD := UInt32.ofNat (beVal ((block.drop (4 * t)).take 4))

def W (block : List BYTE) (t : Nat) : WORD :=
  if t < 16 then
    word block t
  else
    sigma1 (W block (t - 2)) + W block (t - 7) + sigma0 (W block (t - 15)) + W block (t - 16)
termination_by t

def step (block : List BYTE) (v : Vars) (t : Nat) : Vars :=
  let T1 := v.h + Sigma1 v.e + ch v.e v.f v.g + K t + W block t
  let T2 := Sigma0 v.a + maj v.a v.b v.c
  { a := T1 + T2, b := v.a, c := v.b, d := v.c, e := v.d + T1, f := v.e, g := v.f, h := v.g }

def vars (H : Vector WORD 8) : Vars :=
  { a := entry H 0, b := entry H 1, c := entry H 2, d := entry H 3,
    e := entry H 4, f := entry H 5, g := entry H 6, h := entry H 7 }

def words (v : Vars) : Vector WORD 8 := #v[v.a, v.b, v.c, v.d, v.e, v.f, v.g, v.h]

def rounds (block : List BYTE) (v : Vars) : Vars := (List.range 64).foldl (step block) v

def compress (H : Vector WORD 8) (block : List BYTE) : Vector WORD 8 :=
  Vector.zipWith (· + ·) (words (rounds block (vars H))) H

/-! ### The hash -/

def lengthField (len : Nat) : List BYTE := beBytes 8 (8 * len)

def padded (message : List BYTE) : List BYTE := pad 64 8 0x80 0x00 lengthField message

def bytes (H : Vector WORD 8) : Arr 32 :=
  Vector.ofFn fun i => (beBytes 4 (entry H (i / 4)).toNat).getD (i % 4) 0

def digest (message : List BYTE) : Arr 32 := bytes (chain compress 64 H0 (padded message))

end WorkServer.Sha256.Standard

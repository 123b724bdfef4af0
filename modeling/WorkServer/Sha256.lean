import WorkServer.Memory

/-!
# SHA-256

The functions of `sha256.c`, on a context of the block that is being filled, the number
of bytes in it, the number of bits of the blocks before, and the eight state words.
-/

namespace WorkServer.Sha256
open Tracing

variable {n : Nat}

abbrev WORD := UInt32

def rotright (a b : WORD) : WORD := a >>> b ||| a <<< (32 - b)

def ch (x y z : WORD) : WORD := (x &&& y) ^^^ (~~~x &&& z)

def maj (x y z : WORD) : WORD := (x &&& y) ^^^ (x &&& z) ^^^ (y &&& z)

def ep0 (x : WORD) : WORD := rotright x 2 ^^^ rotright x 13 ^^^ rotright x 22

def ep1 (x : WORD) : WORD := rotright x 6 ^^^ rotright x 11 ^^^ rotright x 25

def sig0 (x : WORD) : WORD := rotright x 7 ^^^ rotright x 18 ^^^ x >>> 3

def sig1 (x : WORD) : WORD := rotright x 17 ^^^ rotright x 19 ^^^ x >>> 10

def k : Vector WORD 64 := #v[
  0x428a2f98, 0x71374491, 0xb5c0fbcf, 0xe9b5dba5, 0x3956c25b, 0x59f111f1, 0x923f82a4, 0xab1c5ed5,
  0xd807aa98, 0x12835b01, 0x243185be, 0x550c7dc3, 0x72be5d74, 0x80deb1fe, 0x9bdc06a7, 0xc19bf174,
  0xe49b69c1, 0xefbe4786, 0x0fc19dc6, 0x240ca1cc, 0x2de92c6f, 0x4a7484aa, 0x5cb0a9dc, 0x76f988da,
  0x983e5152, 0xa831c66d, 0xb00327c8, 0xbf597fc7, 0xc6e00bf3, 0xd5a79147, 0x06ca6351, 0x14292967,
  0x27b70a85, 0x2e1b2138, 0x4d2c6dfc, 0x53380d13, 0x650a7354, 0x766a0abb, 0x81c2c92e, 0x92722c85,
  0xa2bfe8a1, 0xa81a664b, 0xc24b8b70, 0xc76c51a3, 0xd192e819, 0xd6990624, 0xf40e3585, 0x106aa070,
  0x19a4c116, 0x1e376c08, 0x2748774c, 0x34b0bcb5, 0x391c0cb3, 0x4ed8aa4a, 0x5b9cca4f, 0x682e6ff3,
  0x748f82ee, 0x78a5636f, 0x84c87814, 0x8cc70208, 0x90befffa, 0xa4506ceb, 0xbef9a3f7, 0xc67178f2]

/-- `SHA256_CTX`. -/
structure Ctx where
  data : Arr 64
  datalen : WORD
  bitlen : UInt64
  state : Vector WORD 8

/-- The local variables of `sha256_transform` that its rounds move. -/
structure Vars where
  a : WORD
  b : WORD
  c : WORD
  d : WORD
  e : WORD
  f : WORD
  g : WORD
  h : WORD

/-! ### The block function -/

def loadWord (data : Arr n) (i : Nat) (m : Vector WORD 64) : Traced (Vector WORD 64) := do
  let j := 4 * i
  write m i ((← read data j).toUInt32 <<< 24 ||| (← read data (j + 1)).toUInt32 <<< 16 |||
    (← read data (j + 2)).toUInt32 <<< 8 ||| (← read data (j + 3)).toUInt32)

def expandWord (i : Nat) (m : Vector WORD 64) : Traced (Vector WORD 64) := do
  write m i (sig1 (← read m (i - 2)) + (← read m (i - 7)) + sig0 (← read m (i - 15)) + (← read m (i - 16)))

def round (m : Vector WORD 64) (i : Nat) (v : Vars) : Traced Vars := do
  let t1 := v.h + ep1 v.e + ch v.e v.f v.g + (← read k i) + (← read m i)
  let t2 := ep0 v.a + maj v.a v.b v.c
  return { a := t1 + t2, b := v.a, c := v.b, d := v.c, e := v.d + t1, f := v.e, g := v.f, h := v.g }

def addWord (i : Nat) (x : WORD) (state : Vector WORD 8) : Traced (Vector WORD 8) := do
  write state i ((← read state i) + x)

/-- The schedule `m` is written through before it is read. -/
def schedule (data : Arr n) : Traced (Vector WORD 64) := do
  let m ← forUp 16 (Vector.replicate 64 0) (loadWord data)
  forUp 48 m fun i => expandWord (i + 16)

def transform (ctx : Ctx) (data : Arr n) : Traced Ctx := do
  let m ← schedule data
  let v ← forUp 64
    { a := ← read ctx.state 0, b := ← read ctx.state 1, c := ← read ctx.state 2, d := ← read ctx.state 3,
      e := ← read ctx.state 4, f := ← read ctx.state 5, g := ← read ctx.state 6, h := ← read ctx.state 7 }
    (round m)
  let state ← addWord 0 v.a ctx.state
  let state ← addWord 1 v.b state
  let state ← addWord 2 v.c state
  let state ← addWord 3 v.d state
  let state ← addWord 4 v.e state
  let state ← addWord 5 v.f state
  let state ← addWord 6 v.g state
  let state ← addWord 7 v.h state
  return { ctx with state }

/-! ### The calls on a context -/

def init (ctx : Ctx) : Ctx :=
  { ctx with
    datalen := 0
    bitlen := 0
    state := #v[0x6a09e667, 0xbb67ae85, 0x3c6ef372, 0xa54ff53a, 0x510e527f, 0x9b05688c, 0x1f83d9ab, 0x5be0cd19] }

def updateByte (ctx : Ctx) (x : BYTE) : Traced Ctx := do
  let data ← write ctx.data ctx.datalen.toNat x
  let ctx := { ctx with data, datalen := ctx.datalen + 1 }
  if ctx.datalen = 64 then
    let ctx ← transform ctx ctx.data
    return { ctx with bitlen := ctx.bitlen + 512, datalen := 0 }
  else
    return ctx

/-- The loop of `sha256_update`, given up after `fuel` iterations. The counter `i` has 32 bits, the
length it is compared with has 64. -/
def updateLoop (data : Arr n) (len : Nat) : Nat → WORD → Ctx → Traced (Option Ctx)
  | 0, i, ctx =>
    if i.toNat < len then return none else return some ctx
  | fuel + 1, i, ctx =>
    if i.toNat < len then do
      let ctx ← updateByte ctx (← read data i.toNat)
      updateLoop data len fuel (i + 1) ctx
    else
      return some ctx

def update (fuel : Nat) (ctx : Ctx) (data : Arr n) (len : Nat) : Traced (Option Ctx) :=
  updateLoop data len fuel 0 ctx

/-- `while (i < stop) data[i++] = 0x00;` -/
def fill (data : Arr 64) (i : WORD) (stop : Nat) : Traced (Arr 64) :=
  forUp (stop - i.toNat) data fun j data => write data (i.toNat + j) 0x00

/-- The eight assignments of the length, from the last byte of the block up. -/
def putLength (data : Arr 64) (bitlen : UInt64) : Traced (Arr 64) :=
  forUp 8 data fun i data => write data (63 - i) (bitlen >>> UInt64.ofNat (8 * i)).toUInt8

/-- The loop over the bytes of a word, with its eight assignments, one for each state word. -/
def putDigest (state : Vector WORD 8) (hash : Arr n) : Traced (Arr n) :=
  forUp 4 hash fun i hash => forUp 8 hash fun j hash => do
    write hash (i + 4 * j) ((← read state j) >>> (24 - UInt32.ofNat i * 8) &&& 0x000000ff).toUInt8

/-- The padding up to the length, in this block or over the end of it. -/
def padData (ctx : Ctx) : Traced Ctx := do
  let i := ctx.datalen
  if ctx.datalen < 56 then
    let data ← write ctx.data i.toNat 0x80
    return { ctx with data := ← fill data (i + 1) 56 }
  else
    let data ← write ctx.data i.toNat 0x80
    let data ← fill data (i + 1) 64
    let ctx ← transform { ctx with data } data
    return { ctx with data := ← bzero ctx.data 0 56 }

def final (ctx : Ctx) (hash : Arr n) : Traced (Ctx × Arr n) := do
  let ctx ← padData ctx
  let bitlen := ctx.bitlen + (ctx.datalen * 8).toUInt64
  let data ← putLength ctx.data bitlen
  let ctx ← transform { ctx with data, bitlen } data
  return (ctx, ← putDigest ctx.state hash)

end WorkServer.Sha256

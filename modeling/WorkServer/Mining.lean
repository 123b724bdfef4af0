import WorkServer.Uint256

/-!
# Targets, verdicts and the nonce search

The functions of the server between the message text and the 256-bit numbers:
`ctob`, `btoc`, `getTarget`, `isvalid` and `work`.
-/

namespace WorkServer
open Tracing

variable {n m : Nat}

structure Env where
  /-- The digest that `sha256_init`, `sha256_update` and `sha256_final` leave for a byte string. -/
  sha256 : List BYTE → Arr 32
  /-- The result of a call that runs off the end of its function, by its argument. -/
  fallOff : Int → Int
  /-- The bytes found in an array that nothing has written yet. -/
  stack : (n : Nat) → Arr n

def chr (c : Char) : BYTE := UInt8.ofNat c.toNat

/-! ### Hexadecimal text -/

def getval (env : Env) (character : BYTE) : Int :=
  match Char.ofNat character.toNat with
  | '0' => 0
  | '1' => 1
  | '2' => 2
  | '3' => 3
  | '4' => 4
  | '5' => 5
  | '6' => 6
  | '7' => 7
  | '8' => 8
  | '9' => 9
  | 'a' => 10
  | 'b' => 11
  | 'c' => 12
  | 'd' => 13
  | 'e' => 14
  | 'f' => 15
  | _ => env.fallOff character.toNat

def getcharacter (env : Env) (number : Int) : BYTE :=
  match number with
  | 0 => chr '0'
  | 1 => chr '1'
  | 2 => chr '2'
  | 3 => chr '3'
  | 4 => chr '4'
  | 5 => chr '5'
  | 6 => chr '6'
  | 7 => chr '7'
  | 8 => chr '8'
  | 9 => chr '9'
  | 10 => chr 'a'
  | 11 => chr 'b'
  | 12 => chr 'c'
  | 13 => chr 'd'
  | 14 => chr 'e'
  | 15 => chr 'f'
  | _ => UInt8.ofInt (env.fallOff number)

/-- The loop of `ctob` with `i + 2` characters of the string left, the pair at `i` next. -/
def ctobFrom (env : Env) (string : Arr m) : Nat → Nat → Arr n → Traced (Arr n)
  | i + 2, j, number => do
    let buffer ← write (env.stack 2) 0 (UInt8.ofInt (getval env (← read string i)))
    let buffer ← write buffer 1 (UInt8.ofInt (getval env (← read string (i + 1))))
    let number ← writeInt number (31 - (j : Int)) ((← read buffer 0) * 16 + (← read buffer 1))
    ctobFrom env string i (j + 1) number
  | _, _, number => pure number

def ctob (env : Env) (string : Arr m) (stringlen : Nat) (number : Arr n) : Traced (Arr n) := do
  let number ← uint256Init number
  ctobFrom env string stringlen 0 number

/-- `number` is the array and the offset of the pointer passed. -/
def btoc (env : Env) (number : Arr n) (off numberlen : Nat) (string : Arr m) : Traced (Arr m) :=
  forUp numberlen string fun i string => do
    let a := (← read number (off + i)).toNat / 16
    let b := (← read number (off + i)).toNat % 16
    let character ← write (env.stack 2) 0 (getcharacter env a)
    let character ← write character 1 (getcharacter env b)
    let string ← write string (2 * i) (← read character 0)
    write string (2 * i + 1) (← read character 1)

/-! ### Targets and verdicts -/

def compareFrom (digest1 digest2 : Arr 32) (i : Nat) : Nat → Traced Int
  | 0 => pure 0
  | k + 1 => do
    if (← read digest1 i) < (← read digest2 i) then
      return -1
    else if (← read digest2 i) < (← read digest1 i) then
      return 1
    else
      compareFrom digest1 digest2 (i + 1) k

def sha256Compare (digest1 digest2 : Arr 32) : Traced Int := compareFrom digest1 digest2 0 32

def getTarget (target difficultyBYTE : Arr 32) : Traced (Arr 32) := do
  let b ← uint256Init uninit
  let _exp ← uint256Init uninit
  let target ← uint256Init target
  let expResult ← uint256Init uninit
  let two ← uint256Init uninit
  let two ← write two 31 0x02
  let a : UInt32 := (← read difficultyBYTE 28).toUInt32 - 3
  let a := a * 8
  let b ← forUp 3 b fun i b => do write b (i + 29) (← read difficultyBYTE (i + 29))
  let expResult ← uint256Exp expResult two a false
  uint256Mul target b expResult

/-- The verdict, and the seed array with the nonce stored behind the seed. -/
def isvalid (env : Env) (target : Arr 32) (seedBYTE : Arr 40) (solutionBYTE : Arr 32) :
    Traced (Int × Arr 40) := do
  let seedBYTE ← forUp 8 seedBYTE fun i seedBYTE => do
    write seedBYTE (i + 32) (← read solutionBYTE (i + 24))
  let buf := env.sha256 (← readRange seedBYTE 0 40)
  let buf2 := env.sha256 (← readRange buf 0 32)
  return (← sha256Compare target buf2, seedBYTE)

/-! ### The search -/

/-- The loop of `work`, given up after `fuel` iterations. -/
def searchLoop (env : Env) (target one : Arr 32) :
    Nat → Int → Arr 32 → Arr 40 → Traced (Option (Arr 32 × Arr 40))
  | 0, valid, nonce, seedBYTE =>
    if valid = 1 then return some (nonce, seedBYTE) else return none
  | fuel + 1, valid, nonce, seedBYTE =>
    if valid = 1 then
      return some (nonce, seedBYTE)
    else do
      let nonce ← uint256Add nonce nonce one
      let (valid, seedBYTE) ← isvalid env target seedBYTE nonce
      searchLoop env target one fuel valid nonce seedBYTE

def putSolution (env : Env) (buffer : Arr 256) (nonce : Arr 32) : Traced (Arr 256) := do
  let buffer ← bzero buffer 0 4
  let buffer ← strncpyLit buffer 0 (ascii "SOLN") 4
  let solution ← btoc env nonce 24 16 (env.stack 17)
  let buffer ← bzero buffer 79 20
  strncpy buffer 79 solution 16

/-- The buffer and the seed array that `work` leaves, or `none` while it is still searching
after `fuel` iterations. -/
def work (env : Env) (fuel : Nat) (buffer : Arr 256) (difficultyBYTE : Arr 32) (seedBYTE : Arr 40)
    (startBYTE : Arr 32) : Traced (Option (Arr 256 × Arr 40)) := do
  let one ← uint256Init uninit
  let nonce ← uint256Init uninit
  let target ← getTarget (env.stack 32) difficultyBYTE
  let nonce ← forUp 32 nonce fun i nonce => do write nonce i (← read startBYTE i)
  let one ← write one 31 0x01
  let (valid, seedBYTE) ← isvalid env target seedBYTE nonce
  match ← searchLoop env target one fuel valid nonce seedBYTE with
  | none => return none
  | some (nonce, seedBYTE) => return some (← putSolution env buffer nonce, seedBYTE)

end WorkServer

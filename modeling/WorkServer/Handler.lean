import WorkServer.Mining

/-!
# One turn of a handler thread

The body of the loop of `work_function`: a read, the dispatch on the message and the
bytes that the branch taken hands to `write`. The log functions and `printf` are left
out: they read the buffer and change nothing.
-/

namespace WorkServer
open Tracing

def MAX_CLIENTS : Int := 110
def MAX_WORK : Int := 12

/-- What one successful `read (fd, buffer, 255)` delivers; no bytes at the end of the stream. -/
structure Message where
  bytes : List BYTE
  fits : bytes.length ≤ 255

def Message.buffer (m : Message) : Arr 256 := Vector.ofFn fun i => m.bytes.getD i 0

/-! ### Dispatch -/

inductive Plain where
  | ping | pong | okay | erro | soln | abrt | unknown
  deriving DecidableEq, Repr

inductive Branch where
  | plain (kind : Plain)
  | work
  deriving DecidableEq, Repr

def isSoln (firstFour : Arr 5) (buffer : Arr 256) : Traced Bool := do
  if (← strcmp firstFour (ascii "SOLN")) = 0 then
    return (← strlen buffer) == 97
  else
    return false

/-- `firstFour` is what the array held before; `strncpy` writes its first four bytes. -/
def dispatch (firstFour : Arr 5) (buffer : Arr 256) : Traced Branch := do
  let firstFour ← strncpy firstFour 0 buffer 4
  if (← strcmp buffer (ascii "PING\r\n")) = 0 then return .plain .ping
  if (← strcmp buffer (ascii "PONG\r\n")) = 0 then return .plain .pong
  if (← strcmp buffer (ascii "OKAY\r\n")) = 0 then return .plain .okay
  if (← strcmp firstFour (ascii "ERRO")) = 0 then return .plain .erro
  if (← isSoln firstFour buffer) then return .plain .soln
  if (← strcmp firstFour (ascii "WORK")) = 0 then return .work
  if (← strcmp firstFour (ascii "ABRT")) = 0 then return .plain .abrt
  return .plain .unknown

/-! ### Fixed replies -/

/-- `bzero (buffer, 256); strcpy (buffer, text); write (fd, buffer, count);` -/
def freshReply (text : String) (count : Nat) (buffer : Arr 256) : Traced (List BYTE) := do
  let buffer ← bzero buffer 0 256
  let buffer ← strcpy buffer (ascii text)
  readRange buffer 0 count

/-- `strcpy (buffer, text); write (fd, buffer, count);` over the message itself -/
def staleReply (text : String) (count : Nat) (buffer : Arr 256) : Traced (List BYTE) := do
  let buffer ← strcpy buffer (ascii text)
  readRange buffer 0 count

def pingReply : Arr 256 → Traced (List BYTE) := freshReply "PONG\r\n" 6

def pongReply : Arr 256 → Traced (List BYTE) :=
  freshReply "ERRO PONG message is strictly reserved for server.\r\n" 80

def okayReply : Arr 256 → Traced (List BYTE) :=
  freshReply "ERRO It's not okay to send 'OKAY' messages to the server.\r\n" 80

def erroReply : Arr 256 → Traced (List BYTE) :=
  freshReply "ERRO This message should not be sent to the server.\r\n" 80

def abrtReply : Arr 256 → Traced (List BYTE) := staleReply "OKAY\r\n" 6

def unknownReply : Arr 256 → Traced (List BYTE) := staleReply "ERRO\r\n" 80

def shortError (buffer : Arr 256) : Traced (List BYTE) := do
  let buffer ← bzero buffer 0 256
  let buffer ← strcpy buffer (ascii "ERRO \r\n")
  readRange buffer 0 (← strlen buffer)

/-! ### SOLN and WORK -/

/-- The text fields of both messages: the third is `solution` of a SOLN, `start` of a WORK. -/
structure Fields where
  difficulty : Arr 9
  seed : Arr 65
  third : Arr 17

def copyFields (env : Env) (buffer : Arr 256) : Traced Fields := do
  let difficulty ← memcpy (env.stack 9) 0 buffer 5 8
  let seed ← memcpy (env.stack 65) 0 buffer 14 64
  let third ← memcpy (env.stack 17) 0 buffer 79 16
  return ⟨difficulty, seed, third⟩

def scanNulFrom {n : Nat} (field : Arr n) (i : Nat) : Nat → Traced Bool
  | 0 => pure false
  | k + 1 => do
    if (← read field i) = 0 then return true else scanNulFrom field (i + 1) k

def scanNul {n : Nat} (field : Arr n) (len : Nat) : Traced Bool := scanNulFrom field 0 len

def scanUnless {n : Nat} (flag : Bool) (field : Arr n) (len : Nat) : Traced Bool :=
  if flag then pure true else scanNul field len

def solnFlag (fields : Fields) : Traced Bool := do
  let flag ← scanNul fields.difficulty 8
  let flag ← scanUnless flag fields.seed 64
  scanUnless flag fields.third 16

/-- The scan of `difficulty` runs whatever the scan of `counter` found. -/
def workFlag (counter : Arr 3) (fields : Fields) : Traced Bool := do
  let counterFlag ← scanNul counter 2
  let difficultyFlag ← scanNul fields.difficulty 8
  let flag ← scanUnless (counterFlag || difficultyFlag) fields.seed 64
  scanUnless flag fields.third 16

structure Decoded where
  difficultyBYTE : Arr 32
  seedBYTE : Arr 40
  thirdBYTE : Arr 32

def decode (env : Env) (fields : Fields) : Traced Decoded := do
  let difficultyBYTE ← ctob env fields.difficulty 8 (env.stack 32)
  let seedBYTE ← ctob env fields.seed 64 (env.stack 40)
  let thirdBYTE ← ctob env fields.third 16 (env.stack 32)
  return ⟨difficultyBYTE, seedBYTE, thirdBYTE⟩

def verdict (env : Env) (d : Decoded) : Traced Int := do
  let target ← getTarget (env.stack 32) d.difficultyBYTE
  let (valid, _) ← isvalid env target d.seedBYTE d.thirdBYTE
  return valid

def solnFields (env : Env) (buffer : Arr 256) : Traced (Option Fields) := do
  let fields ← copyFields env buffer
  if ← solnFlag fields then return none else return some fields

def verdictReply (env : Env) (fields : Fields) (buffer : Arr 256) : Traced (List BYTE) := do
  let d ← decode env fields
  let valid ← verdict env d
  if valid = 1 then
    freshReply "OKAY\r\n" 6 buffer
  else
    freshReply "ERRO not a valid solution.\r\n" 80 buffer

def solnReply (env : Env) (buffer : Arr 256) : Traced (List BYTE) := do
  match ← solnFields env buffer with
  | none => shortError buffer
  | some fields => verdictReply env fields buffer

/-- `work_num >= MAX_WORK || strlen (buffer) != 100`; `work_num` is the value read here. -/
def refuses (work_num : Int) (buffer : Arr 256) : Traced Bool := do
  if work_num ≥ MAX_WORK then
    return true
  else
    return (← strlen buffer) != 100

def workFields (env : Env) (buffer : Arr 256) : Traced (Option Fields) := do
  let fields ← copyFields env buffer
  let counter ← memcpy (env.stack 3) 0 buffer 96 2
  if ← workFlag counter fields then return none else return some fields

/-- The bytes written after `work`, or `none` while it is searching. -/
def minedReply (env : Env) (fuel : Nat) (fields : Fields) (buffer : Arr 256) :
    Traced (Option (List BYTE)) := do
  let d ← decode env fields
  match ← work env fuel buffer d.difficultyBYTE d.seedBYTE d.thirdBYTE with
  | none => return none
  | some (buffer, _) => return some (← readRange buffer 0 (← strlen buffer))

def admittedReply (env : Env) (fuel : Nat) (buffer : Arr 256) : Traced (Option (List BYTE)) := do
  match ← workFields env buffer with
  | none => some <$> shortError buffer
  | some fields => minedReply env fuel fields buffer

/-! ### A whole turn -/

def plainReply (env : Env) (kind : Plain) (buffer : Arr 256) : Traced (List BYTE) :=
  match kind with
  | .ping => pingReply buffer
  | .pong => pongReply buffer
  | .okay => okayReply buffer
  | .erro => erroReply buffer
  | .soln => solnReply env buffer
  | .abrt => abrtReply buffer
  | .unknown => unknownReply buffer

/-- The bytes that the WORK branch hands to `write`, or `none` while `work` searches.
`work_num` is the value that its test reads. -/
def workReply (env : Env) (fuel : Nat) (work_num : Int) (buffer : Arr 256) :
    Traced (Option (List BYTE)) := do
  if ← refuses work_num buffer then
    some <$> shortError buffer
  else
    admittedReply env fuel buffer

def respond (env : Env) (fuel : Nat) (work_num : Int) (firstFour : Arr 5) (buffer : Arr 256) :
    Traced (Option (List BYTE)) := do
  match ← dispatch firstFour buffer with
  | .plain kind => some <$> plainReply env kind buffer
  | .work => workReply env fuel work_num buffer

inductive Parsed where
  | nothing
  | soln (fields : Fields)
  | work (fields : Fields)

/-- The part of `respond` before the first call of `ctob`. -/
def parse (env : Env) (work_num : Int) (firstFour : Arr 5) (buffer : Arr 256) : Traced Parsed := do
  match ← dispatch firstFour buffer with
  | .plain .soln =>
    match ← solnFields env buffer with
    | none => return .nothing
    | some fields => return .soln fields
  | .plain _ => return .nothing
  | .work =>
    if ← refuses work_num buffer then
      return .nothing
    else
      match ← workFields env buffer with
      | none => return .nothing
      | some fields => return .work fields

inductive Turn where
  /-- `buffer[0]` is NUL: the thread closes its socket and exits. -/
  | leaves
  | answers (bytes : List BYTE)
  | searching
  deriving DecidableEq

/-- One turn: clear the buffer, read the message, test its first byte, log it, answer it. -/
def turn (env : Env) (fuel : Nat) (work_num : Int) (firstFour : Arr 5) (buffer : Arr 256) (m : Message) :
    Traced Turn := do
  let buffer ← bzero buffer 0 256
  let buffer ← store buffer 0 m.bytes
  if (← read buffer 0) = 0 then
    return .leaves
  else do
    let _ ← strlen buffer
    match ← respond env fuel work_num firstFour buffer with
    | none => return .searching
    | some bytes => return .answers bytes

structure Found where
  work_num : Int
  firstFour : Arr 5
  buffer : Arr 256

/-- The turns of the loop over the successive reads of one connection, the `k`-th read first.
The loop ends where the thread leaves, and stands still where it searches. -/
def serve (env : Env) (fuel : Nat) (found : Nat → Found) : Nat → List Message → Traced (List Turn)
  | _, [] => pure []
  | k, m :: rest => do
    let t ← turn env fuel (found k).work_num (found k).firstFour (found k).buffer m
    match t with
    | .answers _ => do return t :: (← serve env fuel found (k + 1) rest)
    | _ => return [t]

end WorkServer

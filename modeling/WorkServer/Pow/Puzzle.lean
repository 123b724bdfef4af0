import WorkServer.Lib.BigEndian
import WorkServer.Memory

/-!
# The proof-of-work puzzle

What the server is for, without its buffers: a puzzle is a target and a seed; a 64-bit
nonce solves it if the double digest of seed and nonce is a number below the target.
The target comes in a compact form, a byte `alpha` and a 24-bit `beta`.
-/

namespace WorkServer
open BigEndian

section Puzzle
variable (digest : List BYTE → Arr 32)

def doubleDigest (bytes : List BYTE) : Arr 32 := digest (digest bytes).toList

def score (seed : List BYTE) (nonce : Nat) : Nat := value (doubleDigest digest (seed ++ beBytes 8 nonce))

def Solves (target : Nat) (seed : List BYTE) (nonce : Nat) : Prop := score digest seed nonce < target

instance (target : Nat) (seed : List BYTE) (nonce : Nat) : Decidable (Solves digest target seed nonce) :=
  inferInstanceAs (Decidable (_ < _))

def Solvable (target : Nat) (seed : List BYTE) : Prop := ∃ nonce < 2 ^ 64, Solves digest target seed nonce

theorem solves_mod (target : Nat) (seed : List BYTE) (nonce : Nat) :
    Solves digest target seed (nonce % 2 ^ 64) ↔ Solves digest target seed nonce := by
  rw [Solves, Solves, score, score, show (2 : Nat) ^ 64 = 256 ^ 8 by norm_num, beBytes_mod]

theorem not_solvable_zero (seed : List BYTE) : ¬ Solvable digest 0 seed := by
  intro solvable
  obtain ⟨nonce, -, below⟩ := solvable
  exact Nat.not_lt_zero _ below

end Puzzle

def compactTarget (alpha beta : Nat) : Nat :=
  if 3 ≤ alpha then beta * 256 ^ (alpha - 3) % 2 ^ 256 else 0

/-- The target that the bytes of a difficulty field stand for. -/
def difficultyTarget : List BYTE → Nat
  | alpha :: beta => compactTarget alpha.toNat (beVal beta)
  | [] => 0

end WorkServer

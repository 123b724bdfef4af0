import Mathlib.Tactic.Common

/-!
# Linked cells in a heap

A heap holds a value for each allocated address. A pointer is an address or NULL, and may be
followed only to an allocated cell.
-/

namespace LinkedHeap

abbrev Addr := Nat

abbrev Heap (ν : Type) := Addr → Option ν

inductive Fault where
  | null
  | dangling
  deriving DecidableEq, Repr

theorem bind_ok {ε α β : Type} {x : Except ε α} {f : α → Except ε β} {r : β} (h : x >>= f = .ok r) :
    ∃ a, x = .ok a ∧ f a = .ok r := by
  cases x with
  | error => cases h
  | ok a => exact ⟨a, rfl, h⟩

section Cells
variable {ν : Type} {h : Heap ν} {p q : Addr} {x : ν}

def put (h : Heap ν) (p : Addr) (x : ν) : Heap ν := fun q => if q = p then some x else h q

def free (h : Heap ν) (p : Addr) : Heap ν := fun q => if q = p then none else h q

theorem put_same (h : Heap ν) (p : Addr) (x : ν) : put h p x p = some x := if_pos rfl

theorem put_other (h : Heap ν) (x : ν) (other : q ≠ p) : put h p x q = h q := if_neg other

theorem put_put (h : Heap ν) (p : Addr) (x y : ν) : put (put h p x) p y = put h p y := by
  funext q
  unfold put
  split <;> rfl

theorem free_same (h : Heap ν) (p : Addr) : free h p p = none := if_pos rfl

theorem ne_of_allocated (here : h q = some x) (absent : h p = none) : q ≠ p := by
  rintro rfl
  rw [absent] at here
  cases here

/-! What is not allocated stays so under a `free`, and under a write to a cell. -/

theorem free_unallocated (q : Addr) (absent : h p = none) : free h q p = none := by
  unfold free
  split
  · rfl
  · exact absent

theorem put_unallocated {y : ν} (here : h q = some x) (absent : h p = none) : put h q y p = none := by
  rw [put_other h y (ne_of_allocated here absent).symm, absent]

def deref (h : Heap ν) : Option Addr → Except Fault ν
  | none => .error .null
  | some p =>
    match h p with
    | none => .error .dangling
    | some x => .ok x

def modify (h : Heap ν) (f : ν → ν) : Option Addr → Except Fault (Heap ν)
  | none => .error .null
  | some p =>
    match h p with
    | none => .error .dangling
    | some x => .ok (put h p (f x))

theorem deref_of (here : h p = some x) : deref h (some p) = .ok x := by
  simp only [deref, here]

theorem modify_of (f : ν → ν) (here : h p = some x) : modify h f (some p) = .ok (put h p (f x)) := by
  simp only [modify, here]

/-- The cells `xs` hang together from `p` on, up to a NULL. -/
inductive Chain (next : ν → Option Addr) (h : Heap ν) : Option Addr → List ν → Prop where
  | nil : Chain next h none []
  | cons {p : Addr} {x : ν} {xs : List ν} : h p = some x → Chain next h (next x) xs →
    Chain next h (some p) (x :: xs)

theorem Chain.unique {next : ν → Option Addr} {p : Option Addr} {xs ys : List ν} (left : Chain next h p xs)
    (right : Chain next h p ys) : xs = ys := by
  induction left generalizing ys with
  | nil =>
    cases right
    rfl
  | cons here _ ih =>
    cases right with
    | cons here' rest =>
      obtain rfl := Option.some.inj (here.symm.trans here')
      rw [ih rest]

theorem chain_single {next : ν → Option Addr} (here : h p = some x) (last : next x = none) :
    Chain next h (some p) [x] := .cons here (last ▸ .nil)

/-- A chain has an end, so it does not come back to where it began. -/
theorem Chain.next_ne {next : ν → Option Addr} {xs : List ν} (chain : Chain next h (some p) (x :: xs)) :
    next x ≠ some p := by
  intro back
  cases chain with
  | cons here rest =>
    have same := Chain.unique (.cons here rest) (back ▸ rest)
    exact absurd (congrArg List.length same) (by simp)

end Cells

end LinkedHeap

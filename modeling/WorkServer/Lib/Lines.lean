import Mathlib.Data.List.Infix

/-!
# Lines

A line ends in a separator and has no separator before its end, so no line is a part of a
longer one that begins where it does.
-/

namespace Lines

variable {α : Type} {sep line other : List α}

structure IsLine (sep line : List α) : Prop where
  ends : sep <:+ line
  once : ¬ sep <:+: line.dropLast

instance [DecidableEq α] (sep line : List α) : Decidable (IsLine sep line) :=
  decidable_of_iff (sep <:+ line ∧ ¬ sep <:+: line.dropLast) ⟨fun h => ⟨h.1, h.2⟩, fun h => ⟨h.1, h.2⟩⟩

end Lines

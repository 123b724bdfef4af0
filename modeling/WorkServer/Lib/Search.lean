import Mathlib.Data.Nat.Find
import Mathlib.Logic.Function.Iterate

/-!
# Search along an orbit

Trying `x`, `next x`, `next (next x)`, … until `good` holds, with a bound on the tries.
-/

namespace OrbitSearch

variable {α : Type} (good : α → Prop) [DecidablePred good] (next : α → α)

def search : Nat → α → Option α
  | 0, x => if good x then some x else none
  | fuel + 1, x => if good x then some x else search fuel (next x)

variable {good next}

/-- A search yields the first good point of the orbit, if its bound reaches it. -/
theorem search_eq_some {fuel : Nat} {x y : α} : search good next fuel x = some y ↔
    ∃ k ≤ fuel, y = next^[k] x ∧ good y ∧ ∀ i < k, ¬ good (next^[i] x) := by
  induction fuel generalizing x with
  | zero =>
    unfold search
    simp only [Nat.le_zero]
    constructor
    · intro found
      split at found
      · rename_i hit
        obtain rfl := Option.some.inj found
        exact ⟨0, rfl, rfl, hit, fun i hi => absurd hi (Nat.not_lt_zero i)⟩
      · cases found
    · intro reached
      obtain ⟨k, rfl, rfl, hit, -⟩ := reached
      exact if_pos hit
  | succ fuel ih =>
    unfold search
    by_cases hit : good x
    · rw [if_pos hit]
      constructor
      · intro found
        obtain rfl := Option.some.inj found
        exact ⟨0, Nat.zero_le _, rfl, hit, fun i hi => absurd hi (Nat.not_lt_zero i)⟩
      · intro reached
        obtain ⟨k, -, rfl, -, first⟩ := reached
        cases k with
        | zero => rfl
        | succ k => exact absurd hit (first 0 (Nat.succ_pos k))
    · rw [if_neg hit, ih]
      constructor
      · intro reached
        obtain ⟨k, bound, rfl, found, first⟩ := reached
        refine ⟨k + 1, Nat.succ_le_succ bound, rfl, found, ?_⟩
        intro i hi
        cases i with
        | zero => exact hit
        | succ i => exact first i (Nat.lt_of_succ_lt_succ hi)
      · intro reached
        obtain ⟨k, bound, rfl, found, first⟩ := reached
        cases k with
        | zero => exact absurd found hit
        | succ k =>
          exact ⟨k, Nat.le_of_succ_le_succ bound, rfl, found,
            fun i hi => first (i + 1) (Nat.succ_lt_succ hi)⟩

theorem search_congr {good' : α → Prop} [DecidablePred good'] (same : ∀ x, good x ↔ good' x) (fuel : Nat) (x : α) :
    search good next fuel x = search good' next fuel x := by
  induction fuel generalizing x with
  | zero => simp only [search, same]
  | succ fuel ih => simp only [search, same, ih]

theorem search_terminates {x : α} :
    (∃ fuel y, search good next fuel x = some y) ↔ ∃ k, good (next^[k] x) := by
  constructor
  · intro ends
    obtain ⟨fuel, y, found⟩ := ends
    obtain ⟨k, -, rfl, hit, -⟩ := search_eq_some.mp found
    exact ⟨k, hit⟩
  · intro meets
    exact ⟨Nat.find meets, _, search_eq_some.mpr
      ⟨Nat.find meets, le_refl _, rfl, Nat.find_spec meets, fun i hi => Nat.find_min meets hi⟩⟩

end OrbitSearch

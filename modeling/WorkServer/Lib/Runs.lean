import Mathlib.Data.List.Perm.Subperm
import Mathlib.Tactic.Common

/-!
# Runs of a labelled transition system, and pools of threads

A run is a sequence of labelled steps. A pool is the list of the states of its threads,
in which a step replaces one entry.
-/

namespace Runs

section Runs
variable {σ ε : Type} {step : σ → ε → σ → Prop}

inductive Run (step : σ → ε → σ → Prop) (s : σ) : List ε → σ → Prop where
  | nil : Run step s [] s
  | snoc {es : List ε} {t u : σ} {e : ε} : Run step s es t → step t e u → Run step s (es ++ [e]) u

theorem Run.single {s t : σ} {e : ε} (h : step s e t) : Run step s [e] t := Run.snoc Run.nil h

theorem Run.append {s t u : σ} {es fs : List ε} (first : Run step s es t) (second : Run step t fs u) :
    Run step s (es ++ fs) u := by
  induction second with
  | nil => rwa [List.append_nil]
  | snoc _ last ih =>
    rw [← List.append_assoc]
    exact Run.snoc ih last

/-- The invariant rule, for a property of the states and of the labels so far. -/
theorem Run.history {P : List ε → σ → Prop} {s t : σ} {es : List ε} (run : Run step s es t) (start : P [] s)
    (preserved : ∀ es t e u, P es t → step t e u → P (es ++ [e]) u) : P es t := by
  induction run with
  | nil => exact start
  | snoc _ last ih => exact preserved _ _ _ _ ih last

theorem Run.invariant {P : σ → Prop} {s t : σ} {es : List ε} (run : Run step s es t) (start : P s)
    (preserved : ∀ t e u, P t → step t e u → P u) : P t :=
  Run.history (P := fun _ t => P t) run start fun _ => preserved

theorem Run.mono {step' : σ → ε → σ → Prop} {s t : σ} {es : List ε} (run : Run step s es t)
    (weaker : ∀ t e u, step t e u → step' t e u) : Run step' s es t :=
  run.history (P := fun es t => Run step' s es t) Run.nil fun _ _ _ _ before last => before.snoc (weaker _ _ _ last)

end Runs

section Pool
variable {α : Type} {pool : List α} {i : Nat} {a b : α}

theorem countP_move (p : α → Bool) (here : pool[i]? = some a) :
    (pool.set i b).countP p + (p a).toNat = pool.countP p + (p b).toNat := by
  induction pool generalizing i with
  | nil => cases here
  | cons first rest ih =>
    cases i with
    | zero =>
      obtain rfl : first = a := Option.some.inj here
      simp only [List.set_cons_zero, List.countP_cons]
      cases p first <;> cases p b <;> simp
    | succ i =>
      have moved := ih here
      simp only [List.set_cons_succ, List.countP_cons]
      omega

theorem countP_others (p : α → Bool) (here : pool[i]? = some a) :
    (pool.eraseIdx i).countP p + (p a).toNat = pool.countP p := by
  induction pool generalizing i with
  | nil => cases here
  | cons first rest ih =>
    cases i with
    | zero =>
      obtain rfl : first = a := Option.some.inj here
      simp only [List.eraseIdx_cons_zero, List.countP_cons]
      cases p first <;> simp
    | succ i =>
      have others := ih here
      simp only [List.eraseIdx_cons_succ, List.countP_cons]
      omega

theorem countP_split {p q r : α → Bool} (split : ∀ x ∈ pool, (p x).toNat = (q x).toNat + (r x).toNat) :
    pool.countP p = pool.countP q + pool.countP r := by
  induction pool with
  | nil => rfl
  | cons first rest ih =>
    have one := split first (by simp)
    have others := ih fun x hx => split x (by simp [hx])
    simp only [List.countP_cons, others]
    cases hp : p first <;> cases hq : q first <;> cases hr : r first <;> simp [hp, hq, hr] at one ⊢ <;> omega

theorem countP_add_le {p q r : α → Bool} (split : ∀ x ∈ pool, (p x).toNat + (q x).toNat ≤ (r x).toNat) :
    pool.countP p + pool.countP q ≤ pool.countP r := by
  induction pool with
  | nil => exact Nat.le_refl 0
  | cons first rest ih =>
    have one := split first (by simp)
    have others := ih fun x hx => split x (by simp [hx])
    simp only [List.countP_cons]
    cases hp : p first <;> cases hq : q first <;> cases hr : r first <;> simp [hp, hq, hr] at one ⊢ <;> omega

theorem countP_range (p : α → Bool) :
    (List.range pool.length).countP (fun i => pool[i]?.any p) = pool.countP p := by
  induction pool with
  | nil => rfl
  | cons first rest ih =>
    rw [List.length_cons, List.range_succ_eq_map, List.countP_cons, List.countP_map, List.countP_cons, ← ih]
    rfl

theorem length_le_countP (p : α → Bool) {is : List Nat} (distinct : is.Nodup)
    (all : ∀ i ∈ is, ∃ a, pool[i]? = some a ∧ p a = true) : is.length ≤ pool.countP p := by
  have inside : is ⊆ (List.range pool.length).filter fun i => pool[i]?.any p := by
    intro i hi
    obtain ⟨a, here, holds⟩ := all i hi
    refine List.mem_filter.mpr ⟨List.mem_range.mpr (List.getElem?_eq_some_iff.mp here).1, ?_⟩
    rw [here]
    exact holds
  rw [← countP_range, List.countP_eq_length_filter]
  exact (distinct.subperm inside).length_le

theorem set_replicate {n k : Nat} (inside : k < n) :
    (List.replicate k b ++ List.replicate (n - k) a)[k]? = some a ∧
      (List.replicate k b ++ List.replicate (n - k) a).set k b =
        List.replicate (k + 1) b ++ List.replicate (n - (k + 1)) a := by
  have rest : List.replicate (n - k) a = a :: List.replicate (n - (k + 1)) a := by
    rw [show n - k = n - (k + 1) + 1 by omega, List.replicate_succ]
  rw [rest]
  refine ⟨by simp, ?_⟩
  rw [List.set_append_right _ _ (by simp), List.length_replicate, Nat.sub_self, List.set_cons_zero,
    List.replicate_succ', List.append_assoc, List.singleton_append]

theorem set_here (here : pool[i]? = some a) : pool.set i a = pool := by
  obtain ⟨inside, rfl⟩ := List.getElem?_eq_some_iff.mp here
  exact List.set_getElem_self inside

theorem forall_mem_move {P : α → Prop} (all : ∀ x ∈ pool, P x) (moved : P b) : ∀ x ∈ pool.set i b, P x := by
  intro x hx
  rcases List.mem_or_eq_of_mem_set hx with old | rfl
  · exact all x old
  · exact moved

end Pool

end Runs

import Mathlib.Tactic.Common

/-!
# Traced array programs

A `Traced` value is the result of a program over fixed-size arrays together with
every array access the program made, in order. An access past the end of an array
has no effect on the array and is still recorded, so one definition of a program
answers both what it computes (`val`) and whether it stayed in bounds (`Safe`).
-/

namespace Tracing

structure Access where
  size : Nat
  index : Int
  deriving DecidableEq, Repr

def Access.InBounds (a : Access) : Prop := 0 ≤ a.index ∧ a.index < a.size

instance (a : Access) : Decidable a.InBounds := inferInstanceAs (Decidable (_ ∧ _))

@[simp] theorem inBounds_natCast (n i : Nat) : (Access.mk n i).InBounds ↔ i < n := by
  simp [Access.InBounds]

structure Traced (α : Type) where
  val : α
  accesses : List Access

instance : Monad Traced where
  pure a := ⟨a, []⟩
  bind x f := ⟨(f x.val).val, x.accesses ++ (f x.val).accesses⟩

variable {α β σ : Type} {n m : Nat}

-- Not `rfl` lemmas for `simp`: the kernel then checks rewriting steps instead of running programs,
-- and `Decidable` instances are rewritten along with their propositions.
@[simp] theorem val_pure (a : α) : (pure a : Traced α).val = a := (rfl)

@[simp] theorem val_bind (x : Traced α) (f : α → Traced β) : (x >>= f).val = (f x.val).val := (rfl)

@[simp] theorem val_map (f : α → β) (x : Traced α) : (f <$> x).val = f x.val := (rfl)

@[simp] theorem val_ite (c : Prop) [Decidable c] (x y : Traced α) :
    (if c then x else y).val = if c then x.val else y.val := apply_ite _ _ _ _

/-- Every access of the program stays within the array it was made on. -/
def Safe (x : Traced α) : Prop := ∀ a ∈ x.accesses, a.InBounds

@[simp] theorem safe_pure (a : α) : Safe (pure a : Traced α) := by
  intro x hx
  cases hx

@[simp] theorem safe_bind (x : Traced α) (f : α → Traced β) :
    Safe (x >>= f) ↔ Safe x ∧ Safe (f x.val) := by
  unfold Safe
  simp only [bind, List.mem_append, or_imp, forall_and]

@[simp] theorem safe_map (f : α → β) (x : Traced α) : Safe (f <$> x) ↔ Safe x := by
  show Safe (x >>= fun a => pure (f a)) ↔ Safe x
  simp

/-- A test that returns early, before the rest of a program. -/
theorem safe_early {c : Prop} [Decidable c] {a : α} {rest : Traced α} (safe : Safe rest) :
    Safe (if c then pure a else rest) := by
  split
  · exact safe_pure a
  · exact safe

/-! ### Arrays

`entry` is the total read, so that facts about contents need no bounds in their statements. -/

section Arrays
variable [Inhabited α]

def entry (v : Vector α n) (i : Nat) : α := v[i]?.getD default

theorem entry_eq_getElem (v : Vector α n) {i : Nat} (h : i < n) : entry v i = v[i] := by
  simp [entry, h]

theorem entry_of_le (v : Vector α n) {i : Nat} (h : n ≤ i) : entry v i = default := by
  simp [entry, h]

theorem entry_ext {v w : Vector α n} (h : ∀ i < n, entry v i = entry w i) : v = w := by
  apply Vector.ext
  intro i hi
  rw [← entry_eq_getElem v hi, ← entry_eq_getElem w hi, h i hi]

theorem entry_set (v : Vector α n) {i : Nat} (h : i < n) (x : α) (j : Nat) :
    entry (v.setIfInBounds i x) j = if j = i then x else entry v j := by
  unfold entry
  simp only [Vector.getElem?_setIfInBounds, eq_comm (a := i)]
  split <;> simp_all

theorem entry_replicate (x : α) {i : Nat} (h : i < n) : entry (Vector.replicate n x) i = x := by
  simp [entry, h]

theorem entry_ofFn (f : Fin n → α) {i : Nat} (h : i < n) : entry (Vector.ofFn f) i = f ⟨i, h⟩ := by
  simp [entry, h]

def slice (v : Vector α n) (off len : Nat) : List α := (List.range len).map fun i => entry v (off + i)

@[simp] theorem length_slice (v : Vector α n) (off len : Nat) : (slice v off len).length = len := by
  simp [slice]

theorem getElem?_slice (v : Vector α n) (off len : Nat) {i : Nat} (h : i < len) :
    (slice v off len)[i]? = some (entry v (off + i)) := by
  simp [slice, h]

theorem slice_eq_of_entry {v : Vector α n} {off : Nat} (xs : List α) (d : α)
    (same : ∀ i < xs.length, entry v (off + i) = xs.getD i d) : slice v off xs.length = xs := by
  apply List.ext_getElem
  · simp
  · intro i h₁ h₂
    simp [slice, same i h₂, h₂]

theorem slice_congr {v : Vector α n} {w : Vector α m} {off off' len : Nat}
    (same : ∀ i < len, entry v (off + i) = entry w (off' + i)) : slice v off len = slice w off' len := by
  apply List.map_congr_left
  intro i hi
  exact same i (List.mem_range.mp hi)

theorem slice_succ (v : Vector α n) (off len : Nat) :
    slice v off (len + 1) = slice v off len ++ [entry v (off + len)] := by
  simp [slice, List.range_succ]

theorem slice_add (v : Vector α n) (off a b : Nat) :
    slice v off (a + b) = slice v off a ++ slice v (off + a) b := by
  induction b with
  | zero => simp [slice]
  | succ b ih => rw [← Nat.add_assoc, slice_succ, ih, slice_succ, List.append_assoc, Nat.add_assoc]

theorem slice_eq_take_drop (v : Vector α n) {off len : Nat} (fits : off + len ≤ n) :
    slice v off len = (v.toList.drop off).take len := by
  apply List.ext_getElem
  · simp; omega
  · intro i h₁ h₂
    simp only [length_slice] at h₁
    simp [slice, entry_eq_getElem v (show off + i < n by omega)]

theorem slice_toList (v : Vector α n) : slice v 0 n = v.toList := by
  rw [slice_eq_take_drop v (by omega), List.drop_zero, List.take_of_length_le (by simp)]

/-- `v[i]`. A read past the end yields the default value and is recorded. -/
def read (v : Vector α n) (i : Nat) : Traced α := ⟨entry v i, [⟨n, i⟩]⟩

@[simp] theorem read_val (v : Vector α n) (i : Nat) : (read v i).val = entry v i := (rfl)

@[simp] theorem safe_read (v : Vector α n) (i : Nat) : Safe (read v i) ↔ i < n := by
  simp [Safe, read]

/-- `v[i] = x`. A write past the end is recorded and lands in no array of the program. -/
def write (v : Vector α n) (i : Nat) (x : α) : Traced (Vector α n) :=
  ⟨v.setIfInBounds i x, [⟨n, i⟩]⟩

omit [Inhabited α] in
@[simp] theorem safe_write (v : Vector α n) (i : Nat) (x : α) : Safe (write v i x) ↔ i < n := by
  simp [Safe, write]

theorem entry_write (v : Vector α n) {i : Nat} (h : i < n) (x : α) (j : Nat) :
    entry (write v i x).val j = if j = i then x else entry v j := entry_set v h x j

theorem entry_write_of_lt (v : Vector α n) (i : Nat) (x : α) {j : Nat} (h : j < n) :
    entry (write v i x).val j = if j = i then x else entry v j := by
  rcases Nat.lt_or_ge i n with inside | outside
  · exact entry_write v inside x j
  · unfold write entry
    simp only [Vector.getElem?_setIfInBounds]
    rw [if_neg (by omega), if_neg (by omega)]

def writeInt (v : Vector α n) (i : Int) (x : α) : Traced (Vector α n) :=
  ⟨if 0 ≤ i then v.setIfInBounds i.toNat x else v, [⟨n, i⟩]⟩

omit [Inhabited α] in
@[simp] theorem writeInt_natCast (v : Vector α n) (i : Nat) (x : α) : writeInt v i x = write v i x := by
  simp [writeInt, write]

end Arrays

/-! ### Counted loops -/

/-- `for (i = 0; i < n; i++)` over the loop state `s`. -/
def forUp : Nat → σ → (Nat → σ → Traced σ) → Traced σ
  | 0, s, _ => pure s
  | n + 1, s, body => do body n (← forUp n s body)

/-- `for (i = n - 1; i >= 0; i--)` over the loop state `s`. -/
def forDown : Nat → σ → (Nat → σ → Traced σ) → Traced σ
  | 0, s, _ => pure s
  | n + 1, s, body => do forDown n (← body n s) body

/-- The invariant rule of an upward loop: `P i` holds before iteration `i`. -/
theorem forUp_inv (P : Nat → σ → Prop) {s : σ} {body : Nat → σ → Traced σ} (start : P 0 s)
    (step : ∀ i < n, ∀ t, P i t → P (i + 1) (body i t).val) : P n (forUp n s body).val := by
  induction n with
  | zero => exact start
  | succ n ih => exact step n (Nat.lt_succ_self n) _ (ih fun i hi => step i (Nat.lt_succ_of_lt hi))

/-- The invariant rule of a downward loop: `P (i + 1)` holds before iteration `i`. -/
theorem forDown_inv (P : Nat → σ → Prop) {s : σ} {body : Nat → σ → Traced σ} (start : P n s)
    (step : ∀ i < n, ∀ t, P (i + 1) t → P i (body i t).val) : P 0 (forDown n s body).val := by
  induction n generalizing s with
  | zero => exact start
  | succ n ih =>
    exact ih (step n (Nat.lt_succ_self n) s start) fun i hi => step i (Nat.lt_succ_of_lt hi)

/-- The iterations from `n - 1` down to `i` of a downward loop. -/
def forDownTo (n i : Nat) (s : σ) (body : Nat → σ → Traced σ) : Traced σ :=
  forDown (n - i) s fun k => body (k + i)

theorem forDown_last (n : Nat) (s : σ) (body : Nat → σ → Traced σ) :
    (forDown (n + 1) s body).val = (body 0 (forDown n s fun k => body (k + 1)).val).val := by
  induction n generalizing s with
  | zero => rfl
  | succ n ih => exact ih (body (n + 1) s).val

theorem forDownTo_step {i : Nat} (h : i < n) (s : σ) (body : Nat → σ → Traced σ) :
    (forDownTo n i s body).val = (body i (forDownTo n (i + 1) s body).val).val := by
  unfold forDownTo
  rw [show n - i = n - (i + 1) + 1 by omega, forDown_last, Nat.zero_add]
  simp only [Nat.add_right_comm _ 1 i, Nat.add_assoc]

/-- What is left of a downward loop, run from the state it has reached, ends as the whole loop. -/
theorem forDownTo_rest {i : Nat} (h : i ≤ n) (s : σ) (body : Nat → σ → Traced σ) :
    (forDown i (forDownTo n i s body).val body).val = (forDown n s body).val := by
  induction i with
  | zero => rfl
  | succ i ih =>
    rw [← ih (Nat.le_of_lt h), forDownTo_step h]
    rfl

theorem forDownTo_inv (P : Nat → σ → Prop) {s : σ} {body : Nat → σ → Traced σ} {i : Nat} (h : i ≤ n)
    (start : P n s) (step : ∀ i < n, ∀ t, P (i + 1) t → P i (body i t).val) :
    P i (forDownTo n i s body).val := by
  have top : P (n - i + i) s := by rwa [Nat.sub_add_cancel h]
  have shifted : ∀ k < n - i, ∀ t, P (k + 1 + i) t → P (k + i) (body (k + i) t).val := by
    intro k hk t inv
    rw [Nat.add_right_comm] at inv
    exact step (k + i) (by omega) t inv
  have final := forDown_inv (fun k t => P (k + i) t) top shifted
  rwa [Nat.zero_add] at final

theorem safe_forUp {s : σ} {body : Nat → σ → Traced σ} (h : ∀ i < n, ∀ t, Safe (body i t)) :
    Safe (forUp n s body) := by
  induction n with
  | zero => exact safe_pure s
  | succ n ih =>
    unfold forUp
    rw [safe_bind]
    exact ⟨ih fun i hi => h i (Nat.lt_succ_of_lt hi), h n (Nat.lt_succ_self n) _⟩

theorem not_safe_forUp {s : σ} {body : Nat → σ → Traced σ} {i : Nat} (h : i < n)
    (leaves : ∀ t, ¬ Safe (body i t)) : ¬ Safe (forUp n s body) := by
  induction n with
  | zero => omega
  | succ n ih =>
    unfold forUp
    rw [safe_bind]
    intro safe
    obtain ⟨before, last⟩ := safe
    rcases Nat.lt_or_eq_of_le (Nat.le_of_lt_succ h) with earlier | rfl
    · exact ih earlier before
    · exact leaves _ last

theorem safe_forDown {s : σ} {body : Nat → σ → Traced σ} (h : ∀ i < n, ∀ t, Safe (body i t)) :
    Safe (forDown n s body) := by
  induction n generalizing s with
  | zero => exact safe_pure s
  | succ n ih =>
    unfold forDown
    rw [safe_bind]
    exact ⟨h n (Nat.lt_succ_self n) s, ih fun i hi => h i (Nat.lt_succ_of_lt hi)⟩

/-- An upward loop that writes `f i` at `base + i`, for each `i` below its bound. -/
theorem entry_forUp_write [Inhabited α] {v : Vector α n} (base : Nat) {len : Nat} (fits : base + len ≤ n)
    {body : Nat → Vector α n → Traced (Vector α n)} (f : Nat → α)
    (writes : ∀ i < len, ∀ w, (body i w).val = (write w (base + i) (f i)).val) (j : Nat) :
    entry (forUp len v body).val j =
      if base ≤ j ∧ j < base + len then f (j - base) else entry v j := by
  refine forUp_inv (fun i w => entry w j = if base ≤ j ∧ j < base + i then f (j - base) else entry v j)
    (by rw [if_neg (by omega)]) ?_
  intro i hi w ih
  rw [writes i hi w, entry_write w (by omega), ih]
  by_cases here : j = base + i
  · rw [if_pos here, if_pos (by omega), here, Nat.add_sub_cancel_left]
  · rw [if_neg here]
    congr 1
    exact propext ⟨fun h => by omega, fun h => by omega⟩

def readRange [Inhabited α] (v : Vector α n) (off len : Nat) : Traced (List α) :=
  forUp len [] fun i xs => do return xs ++ [← read v (off + i)]

theorem readRange_val [Inhabited α] (v : Vector α n) (off len : Nat) :
    (readRange v off len).val = slice v off len := by
  refine forUp_inv (fun i xs => xs = slice v off i) rfl ?_
  rintro i - xs rfl
  exact (slice_succ v off i).symm

theorem safe_readRange [Inhabited α] {v : Vector α n} {off len : Nat} (fits : off + len ≤ n) :
    Safe (readRange v off len) :=
  safe_forUp fun i hi xs => by simp; omega

end Tracing

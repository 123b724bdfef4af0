import WorkServer.Lib.Traced

/-!
# Flat byte memory

Memory as one map from addresses to bytes, for programs whose pointers may meet. An array
is the run of bytes at an address; `Stores` says that a program left an array at one place
and changed nothing else below `sp`, where the locals of the program begin.
-/

namespace FlatMemory
open Tracing

abbrev Mem := Nat → UInt8

variable {n k sp p r : Nat} {m m' m'' : Mem} {v : Vector UInt8 n}

def poke (m : Mem) (p : Nat) (x : UInt8) : Mem := fun q => if q = p then x else m q

theorem poke_same (m : Mem) (p : Nat) (x : UInt8) : poke m p x p = x := if_pos rfl

theorem poke_other (m : Mem) {p q : Nat} (x : UInt8) (h : q ≠ p) : poke m p x q = m q := if_neg h

def load (m : Mem) (p n : Nat) : Vector UInt8 n := Vector.ofFn fun i => m (p + i)

theorem entry_load (m : Mem) (p : Nat) {i : Nat} (h : i < n) : entry (load m p n) i = m (p + i) :=
  entry_ofFn _ h

theorem load_congr (same : ∀ i < n, m' (p + i) = m (r + i)) : load m' p n = load m r n := by
  apply entry_ext
  intro i hi
  rw [entry_load _ _ hi, entry_load _ _ hi, same i hi]

theorem load_poke (m : Mem) (p : Nat) {i : Nat} (h : i < n) (x : UInt8) :
    load (poke m (p + i) x) p n = (write (load m p n) i x).val := by
  apply entry_ext
  intro j hj
  rw [entry_load _ _ hj, entry_write _ h]
  split
  · rename_i here
    rw [here, poke_same]
  · rename_i other
    rw [poke_other _ _ (by omega), entry_load _ _ hj]

/-! ### Loops -/

variable {σ τ : Type}

def up : Nat → σ → (Nat → σ → σ) → σ
  | 0, s, _ => s
  | n + 1, s, body => body n (up n s body)

def down : Nat → σ → (Nat → σ → σ) → σ
  | 0, s, _ => s
  | n + 1, s, body => down n (body n s) body

/-- An upward loop over memory keeps step with one over arrays. -/
theorem up_sim (R : σ → τ → Prop) {s : σ} {t : τ} {body : Nat → σ → σ} {body' : Nat → τ → Traced τ}
    (start : R s t) (step : ∀ i < n, ∀ s t, R s t → R (body i s) (body' i t).val) :
    R (up n s body) (forUp n t body').val := by
  induction n with
  | zero => exact start
  | succ n ih =>
    exact step n (Nat.lt_succ_self n) _ _ (ih fun i hi => step i (Nat.lt_succ_of_lt hi))

/-- A downward loop over memory keeps step with one over arrays. -/
theorem down_sim (R : σ → τ → Prop) {s : σ} {t : τ} {body : Nat → σ → σ} {body' : Nat → τ → Traced τ}
    (start : R s t) (step : ∀ i < n, ∀ s t, R s t → R (body i s) (body' i t).val) :
    R (down n s body) (forDown n t body').val := by
  induction n generalizing s t with
  | zero => exact start
  | succ n ih =>
    exact ih (step n (Nat.lt_succ_self n) s t start) fun i hi => step i (Nat.lt_succ_of_lt hi)

theorem up_inv (P : Nat → σ → Prop) {s : σ} {body : Nat → σ → σ} (start : P 0 s)
    (step : ∀ i < n, ∀ s, P i s → P (i + 1) (body i s)) : P n (up n s body) := by
  induction n with
  | zero => exact start
  | succ n ih => exact step n (Nat.lt_succ_self n) _ (ih fun i hi => step i (Nat.lt_succ_of_lt hi))

/-- An upward loop that writes `f i` at `base + i`, while all it has not written is as before. -/
theorem up_poke {base len : Nat} {body : Nat → Mem → Mem} (f : Nat → UInt8)
    (writes : ∀ i < len, ∀ m', (∀ q, q < base ∨ base + i ≤ q → m' q = m q) →
      body i m' = poke m' (base + i) (f i)) :
    ∀ q, up len m body q = if base ≤ q ∧ q < base + len then f (q - base) else m q := by
  refine up_inv (fun i (m' : Mem) => ∀ q, m' q = if base ≤ q ∧ q < base + i then f (q - base) else m q) ?_ ?_
  · intro q
    rw [if_neg (by omega)]
  intro i hi m' inv q
  rw [writes i hi m' fun q outside => (inv q).trans (if_neg (by omega))]
  by_cases here : q = base + i
  · rw [here, poke_same, if_pos (by omega), Nat.add_sub_cancel_left]
  · rw [poke_other _ _ here, inv]
    congr 1
    exact propext ⟨fun h => by omega, fun h => by omega⟩

/-! ### What a program changes -/

/-- `m'` holds `v` at `p` and is `m` everywhere else below `sp`. -/
structure Stores (sp p : Nat) (v : Vector UInt8 n) (m m' : Mem) : Prop where
  stored : load m' p n = v
  kept : ∀ q < sp, q < p ∨ p + n ≤ q → m' q = m q

theorem Stores.frame (h : Stores sp p v m m') (fits : r + k ≤ sp) (apart : r + k ≤ p ∨ p + n ≤ r) :
    load m' r k = load m r k := by
  apply load_congr
  intro i hi
  exact h.kept (r + i) (by omega) (by omega)

theorem Stores.refl (sp p : Nat) (m : Mem) : Stores sp p (load m p n) m m := ⟨rfl, fun _ _ _ => rfl⟩

theorem Stores.poke (h : Stores sp p v m m') {i : Nat} (hi : i < n) (x : UInt8) :
    Stores sp p (write v i x).val m (poke m' (p + i) x) := by
  refine ⟨by rw [load_poke _ _ hi, h.stored], fun q low outside => ?_⟩
  rw [poke_other _ _ (by omega), h.kept q low outside]

/-- What lies above `sp` is a local of the program and does not count. -/
theorem Stores.after (h : Stores sp p v m' m'') (same : ∀ q < sp, m' q = m q) : Stores sp p v m m'' :=
  ⟨h.stored, fun q low outside => (h.kept q low outside).trans (same q low)⟩

theorem stores_up (sp : Nat) {base : Nat} {body : Nat → Mem → Mem}
    (writes : ∀ i < n, ∀ m', (∀ q, q < base ∨ base + i ≤ q → m' q = m q) →
      body i m' = poke m' (base + i) (entry v i)) : Stores sp base v m (up n m body) := by
  have final := up_poke (entry v) writes
  refine ⟨entry_ext fun i hi => ?_, fun q _ outside => ?_⟩
  · rw [entry_load _ _ hi, final, if_pos (by omega), Nat.add_sub_cancel_left]
  · rw [final, if_neg (by omega)]

end FlatMemory

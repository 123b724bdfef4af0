import WorkServer.Lib.CString

/-!
# Arrays and the C string library

The server's buffers, with the library calls it makes on them. A pointer argument is
an array and an offset into it. A string literal is the list of its characters: the
terminating NUL is supplied by the function that uses it.
-/

namespace WorkServer
open Tracing CString

abbrev BYTE := UInt8

/-- `BYTE name[n]` or `char name[n]`. -/
abbrev Arr (n : Nat) := Vector BYTE n

variable {n m : Nat}

def ascii (s : String) : List BYTE := s.toList.map fun c => UInt8.ofNat c.toNat

/-! ### Writing -/

def bzero (s : Arr n) (off len : Nat) : Traced (Arr n) :=
  forUp len s fun i s => write s (off + i) 0

def memcpy (dst : Arr n) (dstOff : Nat) (src : Arr m) (srcOff len : Nat) : Traced (Arr n) :=
  forUp len dst fun i dst => do write dst (dstOff + i) (← read src (srcOff + i))

def store (dst : Arr n) (off : Nat) (cs : List BYTE) : Traced (Arr n) :=
  forUp cs.length dst fun i dst => write dst (off + i) (cs.getD i 0)

def strcpy (dst : Arr n) (lit : List BYTE) : Traced (Arr n) := store dst 0 (lit ++ [0])

/-- One character of `strncpy`; the flag says that a NUL was copied before. -/
def strncpyChar (dstOff : Nat) (src : Arr m) (i : Nat) : Arr n × Bool → Traced (Arr n × Bool)
  | (dst, true) => do return (← write dst (dstOff + i) 0, true)
  | (dst, false) => do
    let c ← read src i
    return (← write dst (dstOff + i) c, c == 0)

/-- `strncpy` from an array: once a NUL is copied, NULs fill the rest of the count. -/
def strncpy (dst : Arr n) (dstOff : Nat) (src : Arr m) (len : Nat) : Traced (Arr n) :=
  Prod.fst <$> forUp len (dst, false) (strncpyChar dstOff src)

def strncpyLit (dst : Arr n) (dstOff : Nat) (lit : List BYTE) (len : Nat) : Traced (Arr n) :=
  store dst dstOff (lit.take len ++ List.replicate (len - lit.length) 0)

/-! ### Reading -/

def strlenFrom (s : Arr n) (i : Nat) : Nat → Traced Nat
  | 0 => do
    -- No NUL in the array: the scan leaves it.
    let _ ← read s i
    return i
  | k + 1 => do
    if (← read s i) = 0 then return i else strlenFrom s (i + 1) k

def strlen (s : Arr n) : Traced Nat := strlenFrom s 0 n

def strcmpFrom (s : Arr n) : List BYTE → Nat → Traced Int
  | [], i => do return (← read s i).toNat
  | c :: cs, i => do
    let x ← read s i
    if x = c then strcmpFrom s cs (i + 1) else return x.toNat - c.toNat

def strcmp (s : Arr n) (lit : List BYTE) : Traced Int := strcmpFrom s lit 0

/-! ### What the writes leave -/

theorem entry_bzero (s : Arr n) {off len : Nat} (fits : off + len ≤ n) (j : Nat) :
    entry (bzero s off len).val j = if off ≤ j ∧ j < off + len then 0 else entry s j :=
  entry_forUp_write off fits (fun _ => 0) (fun _ _ _ => rfl) j

theorem entry_memcpy (dst : Arr n) (src : Arr m) {dstOff srcOff len : Nat} (fits : dstOff + len ≤ n)
    (j : Nat) : entry (memcpy dst dstOff src srcOff len).val j =
      if dstOff ≤ j ∧ j < dstOff + len then entry src (srcOff + (j - dstOff)) else entry dst j := by
  unfold memcpy
  exact entry_forUp_write dstOff fits (fun i => entry src (srcOff + i)) (fun i _ w => by simp) j

theorem entry_store (dst : Arr n) {off : Nat} {cs : List BYTE} (fits : off + cs.length ≤ n) (j : Nat) :
    entry (store dst off cs).val j =
      if off ≤ j ∧ j < off + cs.length then cs.getD (j - off) 0 else entry dst j :=
  entry_forUp_write off fits (fun i => cs.getD i 0) (fun _ _ _ => rfl) j

theorem memcpy_all (dst src : Arr n) : (memcpy dst 0 src 0 n).val = src := by
  apply entry_ext
  intro j hj
  rw [entry_memcpy dst src (by omega), if_pos (by omega), Nat.zero_add, Nat.sub_zero]

theorem entry_strncpy (dst : Arr n) (src : Arr m) {dstOff len : Nat} (fits : dstOff + len ≤ n)
    (full : ∀ i < len, entry src i ≠ 0) (j : Nat) : entry (strncpy dst dstOff src len).val j =
      if dstOff ≤ j ∧ j < dstOff + len then entry src (j - dstOff) else entry dst j := by
  let P : Nat → Arr n × Bool → Prop := fun i w => w.2 = false ∧
    entry w.1 j = if dstOff ≤ j ∧ j < dstOff + i then entry src (j - dstOff) else entry dst j
  have copied : P len (forUp len (dst, false) (strncpyChar dstOff src)).val := by
    refine forUp_inv P ⟨rfl, by rw [if_neg (by omega)]⟩ ?_
    intro i hi t inv
    obtain ⟨w, ended⟩ := t
    obtain ⟨rfl, same⟩ := inv
    refine ⟨by simpa [strncpyChar] using full i hi, ?_⟩
    unfold strncpyChar
    simp only [val_bind, val_pure, read_val]
    rw [entry_write w (by omega), same]
    by_cases here : j = dstOff + i
    · rw [if_pos here, if_pos (by omega), here, Nat.add_sub_cancel_left]
    · rw [if_neg here]
      congr 1
      exact propext ⟨fun h => by omega, fun h => by omega⟩
  exact copied.2

/-- A `strncpy` writes nothing outside its count, and inside it only zeros and what it copies. -/
theorem strncpy_bytes (dst : Arr n) (src : Arr m) {dstOff len : Nat} (fits : dstOff + len ≤ n) (j : Nat) :
    (dstOff ≤ j ∧ j < dstOff + len ∨ entry (strncpy dst dstOff src len).val j = entry dst j) ∧
    (dstOff ≤ j → j < dstOff + len → entry (strncpy dst dstOff src len).val j ≠ 0 →
      entry (strncpy dst dstOff src len).val j = entry src (j - dstOff)) := by
  let P : Nat → Arr n × Bool → Prop := fun i w =>
    (dstOff ≤ j ∧ j < dstOff + i ∨ entry w.1 j = entry dst j) ∧
    (dstOff ≤ j → j < dstOff + i → entry w.1 j ≠ 0 → entry w.1 j = entry src (j - dstOff))
  have copied : P len (forUp len (dst, false) (strncpyChar dstOff src)).val := by
    refine forUp_inv P ⟨Or.inr rfl, fun above below => by omega⟩ ?_
    intro i hi t inv
    obtain ⟨w, ended⟩ := t
    obtain ⟨outside, inside⟩ := inv
    -- The byte written at `i` is zero or the one read there.
    obtain ⟨x, written, origin⟩ : ∃ x, ((strncpyChar dstOff src i (w, ended)).val.1 =
        (write w (dstOff + i) x).val) ∧ (x ≠ 0 → x = entry src i) := by
      cases ended
      · exact ⟨entry src i, rfl, fun _ => rfl⟩
      · exact ⟨0, rfl, fun more => absurd rfl more⟩
    simp only [P, written]
    rw [entry_write w (by omega)]
    by_cases here : j = dstOff + i
    · rw [if_pos here]
      refine ⟨Or.inl (by omega), fun _ _ more => ?_⟩
      rw [origin more, here, Nat.add_sub_cancel_left]
    · rw [if_neg here]
      refine ⟨?_, fun above below => inside above (by omega)⟩
      rcases outside with within | same
      · exact Or.inl (by omega)
      · exact Or.inr same
  exact copied

theorem strncpy_slice (dst : Arr n) (src : Arr m) (dstOff : Nat) {lit : List BYTE} (plain : Literal lit)
    (fits : dstOff + lit.length ≤ n) :
    slice (strncpy dst dstOff src lit.length).val dstOff lit.length = lit ↔ lit <+: text src := by
  rw [prefix_text_iff plain]
  have literal : ∀ {k} {v : Arr k} {off i}, slice v off lit.length = lit → i < lit.length →
      entry v (off + i) ≠ 0 := by
    intro k v off i spelt hi
    have byte := getElem?_slice v off lit.length hi
    rw [spelt] at byte
    exact plain _ (List.mem_of_getElem? byte)
  constructor
  · intro spelt
    refine Eq.trans (slice_congr fun i hi => ?_) spelt
    rw [(strncpy_bytes dst src fits (dstOff + i)).2 (by omega) (by omega) (literal spelt hi), Nat.zero_add,
      Nat.add_sub_cancel_left]
  · intro spelt
    refine Eq.trans (slice_congr fun i hi => ?_) spelt
    have full : ∀ i < lit.length, entry src i ≠ 0 := by
      intro i hi
      rw [← Nat.zero_add i]
      exact literal spelt hi
    rw [entry_strncpy dst src fits full, if_pos (by omega), Nat.add_sub_cancel_left, Nat.zero_add]

/-! ### What the reads find -/

def Spells (s : Arr n) : Nat → List BYTE → Prop
  | _, [] => True
  | i, c :: cs => entry s i = c ∧ Spells s (i + 1) cs

theorem spells_iff_slice (s : Arr n) (i : Nat) (lit : List BYTE) :
    Spells s i lit ↔ slice s i lit.length = lit := by
  induction lit generalizing i with
  | nil => simp [Spells, slice]
  | cons c cs ih =>
    unfold Spells
    rw [ih, List.length_cons, Nat.add_comm cs.length 1, slice_add, ← List.singleton_append]
    simp [slice]

theorem strcmpFrom_eq_zero (s : Arr n) (lit : List BYTE) (i : Nat) :
    (strcmpFrom s lit i).val = 0 ↔ Spells s i lit ∧ entry s (i + lit.length) = 0 := by
  induction lit generalizing i with
  | nil =>
    unfold strcmpFrom
    simp only [val_bind, val_pure, read_val, Spells, true_and, List.length_nil, Nat.add_zero]
    rw [← UInt8.toNat_inj]
    exact Int.natCast_eq_zero
  | cons c cs ih =>
    unfold strcmpFrom
    simp only [val_bind, read_val, val_ite, val_pure, Spells, List.length_cons]
    split
    · rename_i matched
      rw [ih, show i + 1 + cs.length = i + (cs.length + 1) by omega]
      simp [matched]
    · rename_i differs
      have apart : (entry s i).toNat ≠ c.toNat := fun same => differs (UInt8.toNat_inj.mp same)
      simp only [differs, false_and, iff_false]
      omega

/-- `strcmp` answers 0 exactly on the string itself. -/
theorem strcmp_eq_zero (s : Arr n) {lit : List BYTE} (plain : Literal lit) :
    (strcmp s lit).val = 0 ↔ text s = lit := by
  unfold strcmp
  rw [strcmpFrom_eq_zero, spells_iff_slice, Nat.zero_add, text_eq_iff plain]

theorem strlenFrom_val (s : Arr n) (k i : Nat) (whole : i + k = n) (start : i ≤ (text s).length) :
    (strlenFrom s i k).val = (text s).length := by
  induction k generalizing i with
  | zero =>
    have := length_text_le s
    unfold strlenFrom
    simp only [val_bind, val_pure]
    omega
  | succ k ih =>
    unfold strlenFrom
    simp only [val_bind, read_val, val_ite, val_pure]
    rcases Nat.lt_or_eq_of_le start with before | rfl
    · rw [if_neg (entry_ne_zero s before)]
      exact ih (i + 1) (by omega) before
    · rw [if_pos (entry_length_text s)]

theorem strlen_val (s : Arr n) : (strlen s).val = (text s).length :=
  strlenFrom_val s n 0 (Nat.zero_add n) (Nat.zero_le _)

/-! ### Bounds -/

theorem safe_bzero {s : Arr n} {off len : Nat} (fits : off + len ≤ n) : Safe (bzero s off len) :=
  safe_forUp fun i hi s => by simp; omega

theorem safe_memcpy {dst : Arr n} {src : Arr m} {dstOff srcOff len : Nat} (fits : dstOff + len ≤ n)
    (reads : srcOff + len ≤ m) : Safe (memcpy dst dstOff src srcOff len) :=
  safe_forUp fun i hi s => by simp; omega

theorem safe_store {dst : Arr n} {off : Nat} {cs : List BYTE} (fits : off + cs.length ≤ n) :
    Safe (store dst off cs) :=
  safe_forUp fun i hi s => by simp; omega

theorem safe_strcpy {dst : Arr n} {lit : List BYTE} (fits : lit.length < n) : Safe (strcpy dst lit) :=
  safe_store (by simp; omega)

theorem safe_strncpy {dst : Arr n} {src : Arr m} {dstOff len : Nat} (fits : dstOff + len ≤ n)
    (reads : len ≤ m) : Safe (strncpy dst dstOff src len) := by
  unfold strncpy
  rw [safe_map]
  refine safe_forUp fun i hi t => ?_
  rcases t with ⟨w, ended⟩
  cases ended <;> simp [strncpyChar] <;> omega

theorem safe_strcmpFrom (s : Arr n) (lit : List BYTE) (i : Nat) (fits : i + lit.length < n) :
    Safe (strcmpFrom s lit i) := by
  induction lit generalizing i with
  | nil => simpa [strcmpFrom] using fits
  | cons c cs ih =>
    simp only [List.length_cons] at fits
    unfold strcmpFrom
    simp only [safe_bind, safe_read, read_val]
    refine ⟨by omega, ?_⟩
    split
    · exact ih (i + 1) (by omega)
    · exact safe_pure _

theorem safe_strcmp {s : Arr n} {lit : List BYTE} (fits : lit.length < n) : Safe (strcmp s lit) :=
  safe_strcmpFrom s lit 0 (by omega)

theorem safe_strlenFrom (s : Arr n) {len : Nat} (inside : len < n) (nul : entry s len = 0)
    (k i : Nat) (reach : len < i + k) (start : i ≤ len) : Safe (strlenFrom s i k) := by
  induction k generalizing i with
  | zero => omega
  | succ k ih =>
    unfold strlenFrom
    simp only [safe_bind, safe_read, read_val]
    refine ⟨by omega, ?_⟩
    split
    · exact safe_pure _
    · rename_i more
      have before : i ≠ len := fun same => more (same ▸ nul)
      exact ih (i + 1) (by omega) (by omega)

theorem safe_strlen {s : Arr n} (ends : ∃ i < n, entry s i = 0) : Safe (strlen s) := by
  obtain ⟨i, inside, nul⟩ := ends
  exact safe_strlenFrom s inside nul n 0 (by omega) (Nat.zero_le _)

end WorkServer

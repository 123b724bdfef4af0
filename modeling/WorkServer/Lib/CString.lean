import Mathlib.Data.Nat.Find
import WorkServer.Lib.Traced

/-!
# Strings in arrays

The string that an array of bytes holds: everything before its first zero byte. Reading
past the end of an array yields zero, so an array without a zero byte holds a string too.
-/

namespace CString
open Tracing

variable {n m : Nat}

/-- The bytes before the first zero. -/
def text (s : Vector UInt8 n) : List UInt8 := s.toList.takeWhile (· ≠ 0)

/-- No zero byte, as in a string literal. -/
def Literal (lit : List UInt8) : Prop := ∀ c ∈ lit, c ≠ 0

instance (lit : List UInt8) : Decidable (Literal lit) := List.decidableBAll (· ≠ 0) lit

theorem literal_slice {s : Vector UInt8 n} {off len : Nat} (full : ∀ i < len, entry s (off + i) ≠ 0) :
    Literal (slice s off len) := by
  intro c hc
  obtain ⟨i, hi, rfl⟩ := List.mem_map.mp hc
  exact full i (List.mem_range.mp hi)

theorem text_eq_slice (s : Vector UInt8 n) {len : Nat} (fits : len ≤ n)
    (full : ∀ i < len, entry s i ≠ 0) (nul : entry s len = 0) : text s = slice s 0 len := by
  have whole : s.toList = slice s 0 len ++ slice s len (n - len) := by
    have split := slice_add s 0 len (n - len)
    rwa [Nat.add_sub_cancel' fits, slice_toList, Nat.zero_add] at split
  have kept : ∀ c ∈ slice s 0 len, decide (c ≠ 0) = true := by
    intro c hc
    exact decide_eq_true (literal_slice (fun i hi => by rw [Nat.zero_add]; exact full i hi) c hc)
  rw [text, whole, List.takeWhile_append_of_pos kept]
  cases n - len with
  | zero => simp [slice]
  | succ k => simp [slice, List.range_succ_eq_map, nul]

theorem exists_first_zero (s : Vector UInt8 n) :
    ∃ len ≤ n, entry s len = 0 ∧ ∀ i < len, entry s i ≠ 0 := by
  have ends : ∃ len, entry s len = 0 := ⟨n, entry_of_le s (Nat.le_refl n)⟩
  exact ⟨Nat.find ends, Nat.find_min' ends (entry_of_le s (Nat.le_refl n)), Nat.find_spec ends,
    fun i hi => Nat.find_min ends hi⟩

section Text
variable (s : Vector UInt8 n)

/-- The string stands at the front of its array, up to the first zero. -/
theorem text_spec : text s = slice s 0 (text s).length ∧ (text s).length ≤ n ∧
    entry s (text s).length = 0 ∧ ∀ i < (text s).length, entry s i ≠ 0 := by
  obtain ⟨len, fits, nul, full⟩ := exists_first_zero s
  have holds := text_eq_slice s fits full nul
  have same : (text s).length = len := by rw [holds, length_slice]
  rw [same]
  exact ⟨holds, fits, nul, full⟩

theorem length_text_le : (text s).length ≤ n := (text_spec s).2.1

theorem entry_length_text : entry s (text s).length = 0 := (text_spec s).2.2.1

theorem entry_ne_zero {i : Nat} (h : i < (text s).length) : entry s i ≠ 0 := (text_spec s).2.2.2 i h

theorem slice_text {off len : Nat} (inside : off + len ≤ (text s).length) :
    slice s off len = ((text s).drop off).take len := by
  have reach := length_text_le s
  have front := slice_eq_take_drop s (show 0 + (text s).length ≤ n by omega)
  rw [← (text_spec s).1, List.drop_zero] at front
  rw [front, slice_eq_take_drop s (by omega), List.drop_take, List.take_take, front]
  congr 1
  have := congrArg List.length front
  omega

theorem literal_text : Literal (text s) := by
  rw [(text_spec s).1]
  exact literal_slice fun i hi => by rw [Nat.zero_add]; exact entry_ne_zero s hi

variable {s}

theorem text_eq_iff {lit : List UInt8} (plain : Literal lit) :
    text s = lit ↔ slice s 0 lit.length = lit ∧ entry s lit.length = 0 := by
  constructor
  · rintro rfl
    exact ⟨(text_spec s).1.symm, entry_length_text s⟩
  · intro stands
    obtain ⟨spelt, nul⟩ := stands
    have full : ∀ i < lit.length, entry s i ≠ 0 := by
      intro i hi
      have byte := getElem?_slice s 0 lit.length hi
      rw [spelt, Nat.zero_add] at byte
      exact plain _ (List.mem_of_getElem? byte)
    have fits : lit.length ≤ n := by
      by_contra long
      exact full n (by omega) (entry_of_le s (Nat.le_refl n))
    rw [text_eq_slice s fits full nul, spelt]

theorem prefix_text_iff {lit : List UInt8} (plain : Literal lit) :
    lit <+: text s ↔ slice s 0 lit.length = lit := by
  constructor
  · intro front
    rw [slice_text s (by simpa using front.length_le), List.drop_zero]
    exact (List.prefix_iff_eq_take.mp front).symm
  · intro spelt
    have reach : lit.length ≤ (text s).length := by
      by_contra short
      have byte := getElem?_slice s 0 lit.length (i := (text s).length) (by omega)
      rw [spelt, Nat.zero_add, entry_length_text] at byte
      exact plain _ (List.mem_of_getElem? byte) rfl
    rw [slice_text s (by omega), List.drop_zero] at spelt
    exact List.prefix_iff_eq_take.mpr spelt.symm

end Text

end CString

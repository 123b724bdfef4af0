import Mathlib.Data.List.GetD
import Mathlib.Data.List.TakeWhile
import WorkServer.Handler

/-!
# Dispatch on the received string

What a handler makes of a read depends on the string in its buffer, which ends at the
first NUL received, and on one byte more: `strncpy` leaves the fifth byte of `firstFour`
as it was, and a comparison of `firstFour` succeeds only where that byte is NUL.
-/

namespace WorkServer
open Tracing CString

/-! ### The received string -/

theorem eq_of_bytes {m r : Message} (same : m.bytes = r.bytes) : m = r := by
  cases m
  cases r
  cases same
  rfl

def Message.text (m : Message) : List BYTE := m.bytes.takeWhile (· ≠ 0)

theorem entry_buffer (m : Message) {i : Nat} (h : i < 256) : entry m.buffer i = m.bytes.getD i 0 :=
  entry_ofFn _ h

theorem buffer_ends (m : Message) : ∃ i < 256, entry m.buffer i = 0 := by
  refine ⟨255, by omega, ?_⟩
  rw [entry_buffer m (by omega), List.getD_eq_default _ _ m.fits]

theorem buffer_received (m : Message) (buffer : Arr 256) :
    (store (bzero buffer 0 256).val 0 m.bytes).val = m.buffer := by
  have fits := m.fits
  apply entry_ext
  intro j hj
  rw [entry_store _ (by omega), entry_bzero _ (by omega), entry_buffer m hj,
    if_pos (show 0 ≤ j ∧ j < 0 + 256 by omega), Nat.sub_zero]
  split
  · rfl
  · rw [List.getD_eq_default _ _ (by omega)]

theorem text_buffer (m : Message) : text m.buffer = m.text := by
  have whole : m.buffer.toList = m.bytes ++ List.replicate (256 - m.bytes.length) 0 := by
    have fits := m.fits
    apply List.ext_getElem
    · simp; omega
    · intro i h₁ h₂
      have inside : i < 256 := by simpa using h₁
      rw [Vector.getElem_toList, ← entry_eq_getElem m.buffer inside, entry_buffer m inside]
      by_cases short : i < m.bytes.length
      · rw [List.getElem_append_left short, List.getD_eq_getElem _ _ short]
      · rw [List.getElem_append_right (by omega), List.getElem_replicate, List.getD_eq_default _ _ (by omega)]
  have padding : (List.replicate (256 - m.bytes.length) (0 : BYTE)).takeWhile (· ≠ 0) = [] := by simp
  rw [text, whole, List.takeWhile_append, padding, List.append_nil, Message.text]
  split
  · rename_i full
    exact ((List.takeWhile_prefix _).eq_of_length full).symm
  · rfl

theorem text_of_literal {m : Message} (plain : Literal m.bytes) : m.text = m.bytes :=
  List.takeWhile_eq_self_iff.mpr fun c hc => decide_eq_true (plain c hc)

/-! ### The chain of tests -/

/-- The branch for a string, by the fifth byte of `firstFour`. -/
def classify (fifth : BYTE) (text : List BYTE) : Branch :=
  if text = ascii "PING\r\n" then .plain .ping
  else if text = ascii "PONG\r\n" then .plain .pong
  else if text = ascii "OKAY\r\n" then .plain .okay
  else if fifth = 0 ∧ ascii "ERRO" <+: text then .plain .erro
  else if (fifth = 0 ∧ ascii "SOLN" <+: text) ∧ text.length = 97 then .plain .soln
  else if fifth = 0 ∧ ascii "WORK" <+: text then .work
  else if fifth = 0 ∧ ascii "ABRT" <+: text then .plain .abrt
  else .plain .unknown

theorem firstFour_eq_iff (firstFour : Arr 5) (buffer : Arr 256) {lit : List BYTE} (plain : Literal lit)
    (four : lit.length = 4) : (strcmp (strncpy firstFour 0 buffer 4).val lit).val = 0 ↔
      entry firstFour 4 = 0 ∧ lit <+: text buffer := by
  have front := strncpy_slice firstFour buffer 0 plain (by omega)
  have fifth : entry (strncpy firstFour 0 buffer 4).val 4 = entry firstFour 4 := by
    rcases (strncpy_bytes firstFour buffer (show 0 + 4 ≤ 5 by omega) 4).1 with within | same
    · omega
    · exact same
  rw [four] at front
  rw [strcmp_eq_zero _ plain, text_eq_iff plain, four, front, fifth, and_comm]

theorem literal_soln : Literal (ascii "SOLN") := by decide

theorem isSoln_val (firstFour : Arr 5) (buffer : Arr 256) :
    (isSoln (strncpy firstFour 0 buffer 4).val buffer).val = true ↔
      (entry firstFour 4 = 0 ∧ ascii "SOLN" <+: text buffer) ∧ (text buffer).length = 97 := by
  have word := firstFour_eq_iff firstFour buffer literal_soln (by decide)
  unfold isSoln
  simp only [val_bind, val_ite, val_pure, strlen_val, word]
  split
  · rename_i soln
    simp [soln]
  · rename_i other
    simp [other]

theorem dispatch_val (firstFour : Arr 5) (buffer : Arr 256) :
    (dispatch firstFour buffer).val = classify (entry firstFour 4) (text buffer) := by
  have whole : ∀ {lit}, Literal lit → ((strcmp buffer lit).val = 0 ↔ text buffer = lit) :=
    fun plain => strcmp_eq_zero buffer plain
  unfold dispatch
  simp only [val_bind, val_ite, val_pure, isSoln_val,
    whole (show Literal (ascii "PING\r\n") by decide), whole (show Literal (ascii "PONG\r\n") by decide),
    whole (show Literal (ascii "OKAY\r\n") by decide),
    firstFour_eq_iff firstFour buffer (show Literal (ascii "ERRO") by decide) (by decide),
    firstFour_eq_iff firstFour buffer (show Literal (ascii "WORK") by decide) (by decide),
    firstFour_eq_iff firstFour buffer (show Literal (ascii "ABRT") by decide) (by decide)]
  rfl

/-! ### Which strings reach which branch -/

section Branches
variable {fifth : BYTE} {text : List BYTE}

theorem not_front {front word : List BYTE} (stands : word <+: text) (same : front.length = word.length)
    (differs : front ≠ word) : ¬ front <+: text :=
  fun other => differs ((List.prefix_of_prefix_length_le other stands same.le).eq_of_length same)

theorem ne_of_front {lit word : List BYTE} (stands : word <+: text) (differs : ¬ word <+: lit) :
    text ≠ lit := by
  rintro rfl
  exact differs stands

/-- What the tests passed on the way to a branch say of the string. -/
def Reaches (fifth : BYTE) (text : List BYTE) : Branch → Prop
  | .plain .ping => text = ascii "PING\r\n"
  | .plain .soln => (fifth = 0 ∧ ascii "SOLN" <+: text) ∧ text.length = 97
  | .work => fifth = 0 ∧ ascii "WORK" <+: text
  | .plain .abrt => fifth = 0 ∧ ascii "ABRT" <+: text
  | _ => True

theorem reaches_of_classify {branch : Branch} (reached : classify fifth text = branch) :
    Reaches fifth text branch := by
  subst reached
  unfold classify
  split_ifs <;> first | assumption | trivial

/-- A string that starts with another word than the fixed lines and ERRO is past their tests. -/
theorem classify_past {word : List BYTE} (stands : word <+: text) (four : word.length = 4)
    (lines : ∀ lit ∈ [ascii "PING\r\n", ascii "PONG\r\n", ascii "OKAY\r\n"], ¬ word <+: lit)
    (apart : ascii "ERRO" ≠ word) : classify fifth text =
      if (fifth = 0 ∧ ascii "SOLN" <+: text) ∧ text.length = 97 then .plain .soln
      else if fifth = 0 ∧ ascii "WORK" <+: text then .work
      else if fifth = 0 ∧ ascii "ABRT" <+: text then .plain .abrt
      else .plain .unknown := by
  have letters : (ascii "ERRO").length = 4 := by decide
  have erro : ¬ ascii "ERRO" <+: text := not_front stands (letters.trans four.symm) apart
  unfold classify
  rw [if_neg (ne_of_front stands (lines _ (by simp))), if_neg (ne_of_front stands (lines _ (by simp))),
    if_neg (ne_of_front stands (lines _ (by simp))), if_neg (not_and_of_not_right _ erro)]

theorem classify_eq_ping : classify fifth text = .plain .ping ↔ text = ascii "PING\r\n" := by
  refine ⟨reaches_of_classify, ?_⟩
  rintro rfl
  rfl

theorem classify_eq_soln : classify fifth text = .plain .soln ↔
    (fifth = 0 ∧ ascii "SOLN" <+: text) ∧ text.length = 97 := by
  refine ⟨reaches_of_classify, fun shape => ?_⟩
  obtain ⟨⟨rfl, soln⟩, len⟩ := shape
  rw [classify_past soln (by decide) (by decide) (by decide), if_pos ⟨⟨rfl, soln⟩, len⟩]

theorem classify_eq_work : classify fifth text = .work ↔ fifth = 0 ∧ ascii "WORK" <+: text := by
  refine ⟨reaches_of_classify, fun shape => ?_⟩
  obtain ⟨rfl, work⟩ := shape
  have soln : ¬ ascii "SOLN" <+: text := not_front work (by decide) (by decide)
  rw [classify_past work (by decide) (by decide) (by decide), if_neg fun shape => soln shape.1.2,
    if_pos ⟨rfl, work⟩]

theorem classify_eq_abrt : classify fifth text = .plain .abrt ↔ fifth = 0 ∧ ascii "ABRT" <+: text := by
  refine ⟨reaches_of_classify, fun shape => ?_⟩
  obtain ⟨rfl, abrt⟩ := shape
  have soln : ¬ ascii "SOLN" <+: text := not_front abrt (by decide) (by decide)
  have work : ¬ ascii "WORK" <+: text := not_front abrt (by decide) (by decide)
  rw [classify_past abrt (by decide) (by decide) (by decide), if_neg fun shape => soln shape.1.2,
    if_neg (not_and_of_not_right _ work), if_pos ⟨rfl, abrt⟩]

end Branches

end WorkServer

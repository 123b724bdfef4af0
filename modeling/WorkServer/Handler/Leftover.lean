import WorkServer.Handler.Reply

/-!
# What the stack left in `firstFour`

`strncpy` never writes the fifth byte of `firstFour`, and four branches compare the array as
a string. They are taken only where that byte happens to be NUL, so what a handler makes of
a message that reaches one of them depends on the stack. Nothing else of the stack matters:
the other arrays are written before they are read.
-/

namespace WorkServer
open Tracing BigEndian CString HexText OrbitSearch

/-- The strings that a comparison of `firstFour` alone keeps from the last branch. -/
def Fronted (text : List BYTE) : Prop :=
  ascii "ERRO" <+: text ∨ (ascii "SOLN" <+: text ∧ text.length = 97) ∨ ascii "WORK" <+: text ∨
    ascii "ABRT" <+: text

instance (text : List BYTE) : Decidable (Fronted text) := inferInstanceAs (Decidable (_ ∨ _))

section Classify
variable {fifth fifth' : BYTE} {text : List BYTE}

theorem classify_congr (same : fifth = 0 ↔ fifth' = 0) : classify fifth text = classify fifth' text := by
  unfold classify
  simp only [same]

theorem classify_of_not_fronted (plain : ¬ Fronted text) : classify fifth text = classify fifth' text := by
  have ⟨erro, soln, work, abrt⟩ : ¬ ascii "ERRO" <+: text ∧ ¬ (ascii "SOLN" <+: text ∧ text.length = 97) ∧
      ¬ ascii "WORK" <+: text ∧ ¬ ascii "ABRT" <+: text := by
    simpa only [Fronted, not_or] using plain
  unfold classify
  simp only [erro, work, abrt, and_assoc, soln, and_false, if_false]

theorem not_line_of_fronted (fronted : Fronted text) :
    text ≠ ascii "PING\r\n" ∧ text ≠ ascii "PONG\r\n" ∧ text ≠ ascii "OKAY\r\n" := by
  rcases fronted with stands | ⟨stands, -⟩ | stands | stands
  all_goals exact ⟨ne_of_front stands (by decide), ne_of_front stands (by decide), ne_of_front stands (by decide)⟩

theorem classify_fronted_unset (set : fifth ≠ 0) (fronted : Fronted text) :
    classify fifth text = .plain .unknown := by
  obtain ⟨ping, pong, okay⟩ := not_line_of_fronted fronted
  unfold classify
  simp only [ping, pong, okay, set, false_and, if_false]

theorem classify_fronted_ne (fronted : Fronted text) : classify 0 text ≠ .plain .unknown := by
  obtain ⟨ping, pong, okay⟩ := not_line_of_fronted fronted
  rcases fronted with erro | ⟨soln, len⟩ | work | abrt
  · unfold classify
    simp only [ping, pong, okay, erro, and_self, if_false, if_true]
    decide
  · rw [classify_eq_soln.mpr ⟨⟨rfl, soln⟩, len⟩]
    decide
  · rw [classify_eq_work.mpr ⟨rfl, work⟩]
    decide
  · rw [classify_eq_abrt.mpr ⟨rfl, abrt⟩]
    decide

theorem classify_agree_iff : classify fifth text = classify fifth' text ↔
    (fifth = 0 ↔ fifth' = 0) ∨ ¬ Fronted text := by
  constructor
  · intro agree
    by_contra both
    obtain ⟨apart, fronted⟩ := not_or.mp both
    have fronted := not_not.mp fronted
    -- One of the two bytes is NUL and reaches a branch of its own, the other one does not.
    rcases Decidable.em (fifth = 0) with rfl | set
    · have set' : fifth' ≠ 0 := fun zero => apart (by simp [zero])
      exact classify_fronted_ne fronted (agree.trans (classify_fronted_unset set' fronted))
    · have zero' : fifth' = 0 := by
        by_contra set'
        exact apart (by simp [set, set'])
      rw [zero'] at agree
      exact classify_fronted_ne fronted (agree.symm.trans (classify_fronted_unset set fronted))
  · intro either
    rcases either with same | plain
    · exact classify_congr same
    · exact classify_of_not_fronted plain

end Classify

/-! ### The other arrays -/

/-- Two environments that differ at most in what the stack holds. -/
structure Alike (env env' : Env) : Prop where
  sha256 : env.sha256 = env'.sha256
  fallOff : env.fallOff = env'.fallOff

section Alike
variable {env env' : Env}

theorem Alike.refl (env : Env) : Alike env env := ⟨rfl, rfl⟩

theorem decoded_alike (same : Alike env env') : decoded env = decoded env' := by
  have digit : ∀ character, getval env character = getval env' character := by
    intro character
    unfold getval
    rw [same.fallOff]
  unfold decoded pairValue
  simp only [digit]

theorem targetField_alike (same : Alike env env') (text : List BYTE) : targetField env text = targetField env' text := by
  unfold targetField
  rw [decoded_alike same]

theorem seedField_alike (same : Alike env env') (text : List BYTE) : seedField env text = seedField env' text := by
  unfold seedField
  rw [decoded_alike same]

theorem nonceField_alike (same : Alike env env') (text : List BYTE) : nonceField env text = nonceField env' text := by
  unfold nonceField
  rw [decoded_alike same]

theorem plainReply_alike (same : Alike env env') {kind : Plain} {buffer : Arr 256}
    (long : kind = .soln → 95 ≤ (text buffer).length) :
    (plainReply env kind buffer).val = (plainReply env' kind buffer).val := by
  cases kind with
  | soln =>
    unfold plainReply
    rw [solnReply_val env buffer (long rfl), solnReply_val env' buffer (long rfl), same.sha256,
      targetField_alike same, seedField_alike same, nonceField_alike same]
  | ping | pong | okay | erro | abrt | unknown => rfl

theorem admittedReply_alike (same : Alike env env') (fuel : Nat) {buffer : Arr 256}
    (long : 98 ≤ (text buffer).length) :
    (admittedReply env fuel buffer).val = (admittedReply env' fuel buffer).val := by
  rw [admittedReply_search env fuel long, admittedReply_search env' fuel long, targetField_alike same,
    seedField_alike same, nonceField_alike same]
  congr 1
  refine search_congr (fun nonce => ?_) fuel _
  unfold Good
  rw [same.sha256]

/-- A turn depends on its message, the counter and whether the fifth byte of `firstFour` is NUL. -/
theorem turn_alike (same : Alike env env') (fuel : Nat) (work_num : Int) {firstFour firstFour' : Arr 5}
    (fifth : entry firstFour 4 = 0 ↔ entry firstFour' 4 = 0) (buffer buffer' : Arr 256) (m : Message) :
    (turn env fuel work_num firstFour buffer m).val = (turn env' fuel work_num firstFour' buffer' m).val := by
  rw [turn_val, turn_val, respond_val, respond_val, text_buffer, classify_congr fifth]
  cases branch : classify (entry firstFour' 4) m.text with
  | plain kind =>
    have long : kind = .soln → 95 ≤ (text m.buffer).length := by
      rintro rfl
      rw [text_buffer, (classify_eq_soln.mp branch).2]
      omega
    simp only [plainReply_alike same long]
  | work =>
    simp only [workReply_val, text_buffer]
    by_cases refused : MAX_WORK ≤ work_num ∨ m.text.length ≠ 100
    · rw [if_pos refused, if_pos refused]
    · rw [if_neg refused, if_neg refused,
        admittedReply_alike same fuel (by rw [text_buffer]; omega)]

end Alike

/-- Exactly when two contents of `firstFour` make no difference to a message. -/
theorem leftover_harmless_iff (firstFour firstFour' : Arr 5) (m : Message) :
    ((dispatch firstFour m.buffer).val = (dispatch firstFour' m.buffer).val ∧
      ∀ env fuel work_num buffer, (turn env fuel work_num firstFour buffer m).val =
        (turn env fuel work_num firstFour' buffer m).val) ↔
    (entry firstFour 4 = 0 ↔ entry firstFour' 4 = 0) ∨ ¬ Fronted m.text := by
  rw [dispatch_val, dispatch_val, text_buffer, classify_agree_iff]
  refine and_iff_left_of_imp fun harmless env fuel work_num buffer => ?_
  rw [turn_val, turn_val, respond_val, respond_val, text_buffer, classify_agree_iff.mpr harmless]

/-- ABRT reaches its own branch or the last one. -/
theorem leftover_decides : ¬ ∀ (m : Message) (firstFour firstFour' : Arr 5),
    (dispatch firstFour m.buffer).val = (dispatch firstFour' m.buffer).val ∧
      ∀ env fuel work_num buffer, (turn env fuel work_num firstFour buffer m).val =
        (turn env fuel work_num firstFour' buffer m).val := by
  intro claimed
  let abrt : Message := ⟨ascii "ABRT\r\n", by decide⟩
  obtain ⟨branch, -⟩ := claimed abrt (Vector.replicate 5 0) (Vector.replicate 5 1)
  have fronted : Fronted abrt.text := by decide
  rw [dispatch_val, dispatch_val, text_buffer, classify_agree_iff] at branch
  rcases branch with same | plain
  · exact absurd same (by decide)
  · exact plain fronted

end WorkServer

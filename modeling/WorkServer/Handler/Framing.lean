import WorkServer.Handler.Grammar
import WorkServer.Lib.Lines

/-!
# The framing of replies

A well-framed reply is one NUL-free line. The replies whose byte count matches their text
are: PONG, OKAY and the short refusal. The others carry the NULs of a fixed count of 80,
the tail of the request, or a solution without its line end.
-/

namespace WorkServer
open Tracing BigEndian CString HexText Lines

/-- One protocol message and no further byte. -/
def Framed (reply : List BYTE) : Prop := Literal reply ∧ IsLine (ascii "\r\n") reply

instance (reply : List BYTE) : Decidable (Framed reply) := inferInstanceAs (Decidable (_ ∧ _))

theorem not_framed_padded {text : String} {count : Nat} (short : (ascii text).length < count) :
    ¬ Framed (padded text count) := by
  intro framed
  obtain ⟨plain, -⟩ := framed
  refine plain 0 (List.mem_append_right _ (List.mem_replicate.mpr ⟨by omega, rfl⟩)) rfl

theorem not_framed_unknown (buffer : Arr 256) : ¬ Framed (unknownReply buffer).val := by
  intro framed
  obtain ⟨plain, -⟩ := framed
  refine plain 0 ?_ rfl
  rw [unknownReply_val]
  exact List.mem_append_right _ (List.mem_cons_self)

theorem not_framed_error (env : Env) (buffer : Arr 256) {kind : Plain} (ping : kind ≠ .ping)
    (soln : kind ≠ .soln) (abrt : kind ≠ .abrt) : ¬ Framed (plainReply env kind buffer).val := by
  cases kind with
  | ping => exact absurd rfl ping
  | soln => exact absurd rfl soln
  | abrt => exact absurd rfl abrt
  | unknown => exact not_framed_unknown buffer
  | pong | okay | erro =>
    simp only [plainReply, pongReply, okayReply, erroReply]
    rw [freshReply_val buffer (by decide) (by decide)]
    exact not_framed_padded (by decide)

theorem not_framed_solution (text : List BYTE) (nonce : Nat) : ¬ Framed (solution text nonce) := by
  intro framed
  obtain ⟨-, line⟩ := framed
  have digits : toHex (beBytes 8 nonce) <:+ solution text nonce := List.suffix_append _ _
  have ends := List.suffix_of_suffix_length_le line.ends digits (by
    rw [length_toHex, length_beBytes]
    decide)
  have feed : (10 : BYTE) ∈ toHex (beBytes 8 nonce) := ends.subset (by decide)
  exact absurd (isDigit_of_mem_toHex feed) (by decide)

section Turn
variable {env : Env} {fuel : Nat} {work_num : Int} {firstFour : Arr 5} {buffer : Arr 256} {m : Message}
  {reply : List BYTE}

theorem answered_plain {kind : Plain} (branch : classify (entry firstFour 4) m.text = .plain kind)
    (answered : (turn env fuel work_num firstFour buffer m).val = .answers reply) :
    reply = (plainReply env kind m.buffer).val := by
  rw [turn_plain env fuel buffer branch] at answered
  split at answered
  · cases answered
  · exact (Turn.answers.inj answered).symm

theorem answered_work (branch : classify (entry firstFour 4) m.text = .work)
    (answered : (turn env fuel work_num firstFour buffer m).val = .answers reply) :
    if MAX_WORK ≤ work_num ∨ m.text.length ≠ 100 then reply = ascii "ERRO \r\n"
    else ∃ nonce, reply = solution m.text nonce := by
  rw [turn_work env fuel buffer branch] at answered
  split
  · rename_i refused
    rw [if_pos refused] at answered
    exact (Turn.answers.inj answered).symm
  · rename_i admitted
    rw [if_neg admitted] at answered
    split at answered
    · cases answered
    · rename_i bytes mined
      obtain ⟨nonce, -, rfl, -⟩ := admittedReply_some env (by rw [text_buffer]; omega) mined
      rw [text_buffer] at answered
      exact ⟨nonce, (Turn.answers.inj answered).symm⟩

theorem answered_soln (branch : classify (entry firstFour 4) m.text = .plain .soln)
    (answered : (turn env fuel work_num firstFour buffer m).val = .answers reply) :
    reply = if Solves env.sha256 (targetField env m.text) (seedField env m.text) (nonceField env m.text)
      then ascii "OKAY\r\n" else padded "ERRO not a valid solution.\r\n" 80 := by
  have len := (classify_eq_soln.mp branch).2
  rw [answered_plain branch answered, plainReply, solnReply_val env m.buffer (by rw [text_buffer]; omega),
    text_buffer]

def LineBranch (solves refused : Prop) : Branch → Prop
  | .plain .ping | .plain .abrt => True
  | .plain .soln => solves
  | .work => refused
  | _ => False

theorem lineBranch_iff {solves refused : Prop} {fifth : BYTE} {text : List BYTE} :
    LineBranch solves refused (classify fifth text) ↔
      text = ascii "PING\r\n" ∨ fifth = 0 ∧ (ascii "ABRT" <+: text ∨
        (ascii "SOLN" <+: text ∧ text.length = 97 ∧ solves) ∨ (ascii "WORK" <+: text ∧ refused)) := by
  constructor
  · intro lines
    cases branch : classify fifth text with
    | plain kind =>
      rw [branch] at lines
      cases kind with
      | ping => exact Or.inl (classify_eq_ping.mp branch)
      | abrt =>
        obtain ⟨zero, abrt⟩ := classify_eq_abrt.mp branch
        exact Or.inr ⟨zero, Or.inl abrt⟩
      | soln =>
        obtain ⟨⟨zero, soln⟩, len⟩ := classify_eq_soln.mp branch
        exact Or.inr ⟨zero, Or.inr (Or.inl ⟨soln, len, lines⟩)⟩
      | _ => exact lines.elim
    | work =>
      rw [branch] at lines
      obtain ⟨zero, work⟩ := classify_eq_work.mp branch
      exact Or.inr ⟨zero, Or.inr (Or.inr ⟨work, lines⟩)⟩
  · intro shape
    obtain ping | ⟨zero, abrt | ⟨soln, len, solves⟩ | ⟨work, refused⟩⟩ := shape
    · rw [classify_eq_ping.mpr ping]
      trivial
    · rw [classify_eq_abrt.mpr ⟨zero, abrt⟩]
      trivial
    · rw [classify_eq_soln.mpr ⟨⟨zero, soln⟩, len⟩]
      exact solves
    · rw [classify_eq_work.mpr ⟨zero, work⟩]
      exact refused

theorem answered_line (answered : (turn env fuel work_num firstFour buffer m).val = .answers reply) :
    let lines := LineBranch
      (Solves env.sha256 (targetField env m.text) (seedField env m.text) (nonceField env m.text))
      (MAX_WORK ≤ work_num ∨ m.text.length ≠ 100) (classify (entry firstFour 4) m.text)
    lines ∧ (reply = ascii "PONG\r\n" ∨ reply = ascii "OKAY\r\n" ∨ reply = ascii "ERRO \r\n") ∨
      ¬ lines ∧ ¬ Framed reply := by
  intro lines
  cases branch : classify (entry firstFour 4) m.text with
  | work =>
    have wrote := answered_work branch answered
    split at wrote
    · rename_i refused
      refine Or.inl ⟨?_, Or.inr (Or.inr wrote)⟩
      simp only [lines, branch]
      exact refused
    · rename_i admitted
      obtain ⟨nonce, rfl⟩ := wrote
      refine Or.inr ⟨?_, not_framed_solution _ _⟩
      simp only [lines, branch]
      exact admitted
  | plain kind =>
    have wrote := answered_plain branch answered
    cases kind with
    | ping =>
      refine Or.inl ⟨by simp only [lines, branch, LineBranch], Or.inl (wrote.trans ?_)⟩
      exact pingReply_val m.buffer
    | abrt =>
      refine Or.inl ⟨by simp only [lines, branch, LineBranch], Or.inr (Or.inl (wrote.trans ?_))⟩
      exact abrtReply_val m.buffer
    | soln =>
      have verdict := answered_soln branch answered
      split at verdict
      · rename_i solves
        refine Or.inl ⟨?_, Or.inr (Or.inl verdict)⟩
        simp only [lines, branch]
        exact solves
      · rename_i fails
        refine Or.inr ⟨?_, verdict ▸ not_framed_padded (by decide)⟩
        simp only [lines, branch]
        exact fails
    | pong | okay | erro | unknown =>
      refine Or.inr ⟨by simp only [lines, branch, LineBranch, not_false_eq_true], ?_⟩
      rw [wrote]
      exact not_framed_error env m.buffer (by decide) (by decide) (by decide)

/-- Exactly when a reply is well framed; it is then one of three constants. -/
theorem framed_iff (answered : (turn env fuel work_num firstFour buffer m).val = .answers reply) :
    (Framed reply ↔
      m.text = ascii "PING\r\n" ∨ entry firstFour 4 = 0 ∧ (ascii "ABRT" <+: m.text ∨
        (ascii "SOLN" <+: m.text ∧ m.text.length = 97 ∧
          Solves env.sha256 (targetField env m.text) (seedField env m.text) (nonceField env m.text)) ∨
        (ascii "WORK" <+: m.text ∧ (MAX_WORK ≤ work_num ∨ m.text.length ≠ 100)))) ∧
    (Framed reply → reply = ascii "PONG\r\n" ∨ reply = ascii "OKAY\r\n" ∨ reply = ascii "ERRO \r\n") := by
  rw [← lineBranch_iff]
  rcases answered_line answered with ⟨lines, constant⟩ | ⟨other, unframed⟩
  · refine ⟨⟨fun _ => lines, fun _ => ?_⟩, fun _ => constant⟩
    rcases constant with rfl | rfl | rfl <;> decide
  · exact ⟨⟨fun framed => absurd framed unframed, fun lines => absurd lines other⟩,
      fun framed => absurd framed unframed⟩

end Turn

theorem framed_iff_sample : Framed (ascii "PONG\r\n") := by
  let ping : Message := ⟨ascii "PING\r\n", by decide⟩
  have spelt : ping.text = ascii "PING\r\n" := by decide
  have answered : (turn sampleEnv 0 0 (Vector.replicate 5 0) (Vector.replicate 256 0) ping).val =
      .answers (ascii "PONG\r\n") := turn_ping sampleEnv 0 _ spelt
  exact (framed_iff answered).1.mpr (Or.inl spelt)

theorem pong_not_framed : ¬ ∀ (env : Env) (fuel : Nat) (work_num : Int) (firstFour : Arr 5) (buffer : Arr 256)
    (m : Message) (reply : List BYTE), (turn env fuel work_num firstFour buffer m).val = .answers reply →
    Framed reply := by
  intro claimed
  let pong : Message := ⟨ascii "PONG\r\n", by decide⟩
  have branch : classify (entry (Vector.replicate 5 0) 4) pong.text = .plain .pong := rfl
  have answered : (turn sampleEnv 0 0 (Vector.replicate 5 0) (Vector.replicate 256 0) pong).val =
      .answers (padded "ERRO PONG message is strictly reserved for server.\r\n" 80) := by
    rw [turn_plain sampleEnv 0 _ branch, if_neg (by decide), plainReply, pongReply,
      freshReply_val pong.buffer (by decide) (by decide)]
  exact not_framed_padded (by decide) (claimed _ _ _ _ _ _ _ answered)

end WorkServer

import WorkServer.Handler.Leftover
import WorkServer.Threads.Progress
import WorkServer.Threads.Turns

/-!
# Replies across threads

However the threads interleave, a solution that one of them writes is the first one from
the start field of a WORK message on that it read itself. Handed back with its line end
restored, it is never called invalid, by whichever thread it reaches. And what a thread
replies is a matter of its message: the other threads have a part in it only where a WORK
message is refused, and the stack only where a message is not recognised.
-/

namespace WorkServer
open Tracing CString Runs

/-- `bytes` is the first solution from the start field of the WORK message `m` on. -/
def Mined (env : Env) (m : Message) (bytes : List BYTE) : Prop :=
  (ascii "WORK" <+: m.text ∧ m.text.length = 100) ∧
    ∃ k, bytes = solution m.text ((nonceField env m.text + k) % 2 ^ 64) ∧
      Solves env.sha256 (targetField env m.text) (seedField env m.text) (nonceField env m.text + k) ∧
      ∀ i < k, ¬ Solves env.sha256 (targetField env m.text) (seedField env m.text) (nonceField env m.text + i)

/-! ### One answer -/

section Answer
variable {env : Env} {tested : Int → Prop} {m : Message} {bytes : List BYTE}

theorem soln_solution (text : List BYTE) (nonce : Nat) : ascii "SOLN" <+: solution text nonce := by
  rw [solution, List.append_assoc]
  exact List.prefix_append _ _

theorem not_soln {word : List BYTE} (soln : ascii "SOLN" <+: bytes) (four : word.length = 4)
    (differs : word ≠ ascii "SOLN") : ¬ word <+: bytes :=
  not_front soln (four.trans length_soln.symm) differs

theorem plainReply_not_soln {kind : Plain} (long : kind = .soln → 95 ≤ m.text.length) :
    ¬ ascii "SOLN" <+: (plainReply env kind m.buffer).val := by
  intro soln
  have error : kind ≠ .ping → kind ≠ .soln → kind ≠ .abrt → False := by
    intro notPing notSoln notAbrt
    obtain ⟨reply, erro, same⟩ := plainReply_error m.buffer notPing notSoln notAbrt
    rw [same env] at soln
    exact not_soln soln (by decide) (by decide) erro
  cases kind with
  | ping => exact absurd (pingReply_val m.buffer ▸ soln) (by decide)
  | abrt => exact absurd (abrtReply_val m.buffer ▸ soln) (by decide)
  | soln =>
    rw [plainReply, solnReply_val env m.buffer (by rw [text_buffer]; exact long rfl)] at soln
    split at soln
    · exact absurd soln (by decide)
    · exact absurd soln (by decide)
  | pong | okay | erro | unknown => exact error (by decide) (by decide) (by decide)

theorem Answers.mined (answers : Answers env tested m bytes) (soln : ascii "SOLN" <+: bytes) : Mined env m bytes := by
  obtain ⟨fuel, work_num, firstFour, buffer, -, answered⟩ := answers
  cases branch : classify (entry firstFour 4) m.text with
  | plain kind =>
    rw [turn_plain env fuel buffer branch] at answered
    split at answered
    · cases answered
    · obtain rfl := Turn.answers.inj answered
      refine absurd soln (plainReply_not_soln fun soln => ?_)
      subst soln
      have len := (classify_eq_soln.mp branch).2
      omega
  | work =>
    rw [turn_work env fuel buffer branch] at answered
    split at answered
    · obtain rfl := Turn.answers.inj answered
      exact absurd soln (by decide)
    · rename_i admitted
      split at answered
      · cases answered
      · rename_i reply returned
        obtain rfl := Turn.answers.inj answered
        obtain ⟨nonce, -, wrote, solves, k, -, rfl, before⟩ :=
          admittedReply_some env (by rw [text_buffer]; omega) returned
        rw [text_buffer] at wrote solves before
        exact ⟨⟨(classify_eq_work.mp branch).2, by omega⟩, k, wrote, (solves_mod _ _ _ _).mp solves, before⟩

/-- The verdict on a mined solution. The second reply is the stack's: where the fifth byte of
`firstFour` is not NUL the message is not recognised. -/
theorem Mined.verdict {r : Message} {reply : List BYTE} (mined : Mined env m bytes)
    (returned : r.bytes = bytes ++ ascii "\r\n") (answers : Answers env tested r reply) :
    reply = ascii "OKAY\r\n" ∨ reply = (unknownReply r.buffer).val := by
  obtain ⟨⟨-, len⟩, k, rfl, solves, -⟩ := mined
  rw [← solves_mod] at solves
  have small : (nonceField env m.text + k) % 2 ^ 64 < 2 ^ 64 := Nat.mod_lt _ (by norm_num)
  generalize (nonceField env m.text + k) % 2 ^ 64 = nonce at small solves returned
  obtain ⟨fuel, work_num, firstFour, buffer, -, answered⟩ := answers
  have plain : Literal m.text := text_buffer m ▸ literal_text _
  obtain ⟨s, same, verifies⟩ := solution_verifies env plain (by omega) small solves
  obtain rfl : r = s := eq_of_bytes (returned.trans same.symm)
  by_cases fifth : entry firstFour 4 = 0
  · rw [verifies fuel work_num firstFour buffer fifth] at answered
    exact Or.inl (Turn.answers.inj answered).symm
  · have whole : r.text = solution m.text nonce ++ ascii "\r\n" := by
      rw [text_of_literal, same]
      rw [same]
      intro c hc
      rcases List.mem_append.mp hc with hc | hc
      · exact literal_solution plain nonce c hc
      · exact (show Literal (ascii "\r\n") by decide) c hc
    have fronted : Fronted r.text := by
      refine Or.inr (Or.inl ⟨?_, ?_⟩)
      · rw [whole]
        exact (soln_solution _ nonce).trans (List.prefix_append _ _)
      · rw [whole, List.length_append, length_solution (by omega)]
        decide
    have begun : r.text ≠ [] := by
      rw [whole]
      exact List.append_ne_nil_of_right_ne_nil _ (by decide)
    rw [turn_plain env fuel buffer (classify_fronted_unset fifth fronted), if_neg begun] at answered
    exact Or.inr (Turn.answers.inj answered).symm

theorem Mined.unique {other : List BYTE} (mined : Mined env m bytes) (again : Mined env m other) :
    bytes = other := by
  obtain ⟨-, k, rfl, solves, first⟩ := mined
  obtain ⟨-, l, rfl, solves', first'⟩ := again
  obtain rfl : k = l := by
    rcases Nat.lt_trichotomy k l with below | same | above
    · exact absurd solves (first' k below)
    · exact same
    · exact absurd solves' (first l above)
  rfl

/-- The replies that a message can have. -/
inductive Reply (env : Env) (m : Message) : List BYTE → Prop where
  /-- The fifth byte of `firstFour` is not NUL. -/
  | unknown (fronted : Fronted m.text) : Reply env m (unknownReply m.buffer).val
  | refused (work : ascii "WORK" <+: m.text) : Reply env m (ascii "ERRO \r\n")
  | plain (kind : Plain) (branch : classify 0 m.text = .plain kind) : Reply env m (plainReply env kind m.buffer).val
  | mined {bytes : List BYTE} (mined : Mined env m bytes) : Reply env m bytes

theorem Answers.reply (answers : Answers env tested m bytes) : Reply env m bytes := by
  have whole := answers
  obtain ⟨fuel, work_num, firstFour, buffer, -, answered⟩ := answers
  cases branch : classify (entry firstFour 4) m.text with
  | plain kind =>
    rw [turn_plain env fuel buffer branch] at answered
    split at answered
    · cases answered
    · obtain rfl := Turn.answers.inj answered
      by_cases stack : entry firstFour 4 ≠ 0 ∧ Fronted m.text
      · obtain ⟨set, fronted⟩ := stack
        rw [classify_fronted_unset set fronted] at branch
        obtain rfl := Branch.plain.inj branch
        exact .unknown fronted
      · refine .plain kind (branch ▸ ?_)
        exact classify_agree_iff.mpr (by tauto)
  | work =>
    obtain ⟨zero, work⟩ := classify_eq_work.mp branch
    rw [turn_work env fuel buffer branch] at answered
    split at answered
    · obtain rfl := Turn.answers.inj answered
      exact .refused work
    · split at answered
      · cases answered
      · rename_i admitted reply returned
        refine .mined (whole.mined ?_)
        obtain rfl := Turn.answers.inj answered
        obtain ⟨nonce, -, rfl, -⟩ := admittedReply_some env (by rw [text_buffer]; omega) returned
        exact soln_solution _ nonce

theorem Answers.begun (answers : Answers env tested m bytes) : m.text ≠ [] := by
  intro empty
  obtain ⟨fuel, work_num, firstFour, buffer, -, answered⟩ := answers
  rw [turn_val, if_pos empty] at answered
  cases answered

/-- Each of these replies is a turn's, on some stack and with some other threads. -/
theorem Reply.answers (begun : m.text ≠ []) (reply : Reply env m bytes) : Answers env (fun _ => True) m bytes := by
  have unset : ∃ firstFour : Arr 5, entry firstFour 4 = 0 := ⟨Vector.replicate 5 0, by decide⟩
  have set : ∃ firstFour : Arr 5, entry firstFour 4 ≠ 0 := ⟨Vector.replicate 5 1, by decide⟩
  obtain ⟨zero, fifth⟩ := unset
  cases reply with
  | unknown fronted =>
    obtain ⟨firstFour, nonzero⟩ := set
    refine ⟨0, 0, firstFour, m.buffer, trivial, ?_⟩
    rw [turn_plain env 0 m.buffer (classify_fronted_unset nonzero fronted), if_neg begun]
    rfl
  | refused work =>
    refine ⟨0, MAX_WORK, zero, m.buffer, trivial, ?_⟩
    rw [turn_work env 0 m.buffer (classify_eq_work.mpr ⟨fifth, work⟩), if_pos (Or.inl (Int.le_refl _))]
  | plain kind branch =>
    refine ⟨0, 0, zero, m.buffer, trivial, ?_⟩
    rw [turn_plain env 0 m.buffer (fifth.symm ▸ branch), if_neg begun]
  | mined mined =>
    have long : 98 ≤ (text m.buffer).length := by rw [text_buffer, mined.1.2]; omega
    obtain ⟨k, -, solves, -⟩ := mined.2
    have solvable : Solvable env.sha256 (targetField env (text m.buffer)) (seedField env (text m.buffer)) := by
      rw [text_buffer]
      exact ⟨_, Nat.mod_lt _ (by norm_num), (solves_mod _ _ _ _).mpr solves⟩
    obtain ⟨fuel, other, returned⟩ := (admittedReply_returns_iff env long).mpr solvable
    have answers : Answers env (fun _ => True) m other := by
      refine ⟨fuel, 0, zero, m.buffer, trivial, ?_⟩
      rw [turn_work env fuel m.buffer (classify_eq_work.mpr ⟨fifth, mined.1.1⟩),
        if_neg (by rw [mined.1.2]; decide), returned]
    have soln : ascii "SOLN" <+: other := by
      obtain ⟨nonce, -, rfl, -⟩ := admittedReply_some env long returned
      exact soln_solution _ nonce
    rw [mined.unique (answers.mined soln)]
    exact answers

theorem Reply.agree {other : List BYTE} (reply : Reply env m bytes) (again : Reply env m other) :
    bytes = other ∨ (Fronted m.text ∧ (unknownReply m.buffer).val ∈ [bytes, other]) ∨
      (ascii "WORK" <+: m.text ∧ ascii "ERRO \r\n" ∈ [bytes, other]) := by
  cases reply with
  | unknown fronted => exact Or.inr (Or.inl ⟨fronted, by simp⟩)
  | refused work => exact Or.inr (Or.inr ⟨work, by simp⟩)
  | plain kind branch =>
    cases again with
    | unknown fronted => exact Or.inr (Or.inl ⟨fronted, by simp⟩)
    | refused work => exact Or.inr (Or.inr ⟨work, by simp⟩)
    | plain kind' branch' =>
      rw [branch] at branch'
      obtain rfl := Branch.plain.inj branch'
      exact Or.inl rfl
    | mined mined =>
      rw [classify_eq_work.mpr ⟨rfl, mined.1.1⟩] at branch
      cases branch
  | mined mined =>
    cases again with
    | unknown fronted => exact Or.inr (Or.inl ⟨fronted, by simp⟩)
    | refused work => exact Or.inr (Or.inr ⟨work, by simp⟩)
    | plain kind branch =>
      rw [classify_eq_work.mpr ⟨rfl, mined.1.1⟩] at branch
      cases branch
    | mined mined' => exact Or.inl (mined.unique mined')

end Answer

/-! ### Every run -/

end WorkServer

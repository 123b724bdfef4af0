import WorkServer.Handler.Reply

/-!
# SOLN verdicts and mined solutions

The verdict on a SOLN message is a comparison of two numbers. The miner and the verifier
agree: the message left by `work`, with its line end restored, is accepted.
-/

namespace WorkServer
open Tracing BigEndian CString HexText

theorem turn_soln (env : Env) (fuel : Nat) (work_num : Int) {firstFour : Arr 5} (buffer : Arr 256)
    {m : Message} (fifth : entry firstFour 4 = 0) (soln : ascii "SOLN" <+: m.text)
    (len : m.text.length = 97) : (turn env fuel work_num firstFour buffer m).val = .answers
      (if Solves env.sha256 (targetField env m.text) (seedField env m.text) (nonceField env m.text)
        then ascii "OKAY\r\n" else padded "ERRO not a valid solution.\r\n" 80) := by
  have begun : m.text ≠ [] := by
    intro empty
    rw [empty] at len
    cases len
  rw [turn_plain env fuel buffer (fifth ▸ classify_eq_soln.mpr ⟨⟨rfl, soln⟩, len⟩), if_neg begun, plainReply,
    solnReply_val env m.buffer (by rw [text_buffer]; omega), text_buffer]

/-! ### The verdict in terms of the hex fields -/

theorem length_field {text : List BYTE} {off len : Nat} (inside : off + len ≤ text.length) :
    (field text off len).length = len := by
  unfold field
  rw [List.length_take, List.length_drop]
  omega

theorem score_field (env : Env) (seed : List BYTE) {text : List BYTE} (long : 95 ≤ text.length) :
    score env.sha256 seed (nonceField env text) =
      value (doubleDigest env.sha256 (seed ++ decoded env (field text 79 16))) := by
  have bytes := beBytes_beVal (decoded env (field text 79 16))
  rw [decoded, length_mapPairs, length_field (by omega)] at bytes
  unfold score nonceField decoded
  rw [bytes]

theorem soln_verdict (env : Env) (fuel : Nat) (work_num : Int) {firstFour : Arr 5} (buffer : Arr 256)
    {m : Message} (fifth : entry firstFour 4 = 0) (plain : Literal m.bytes) (len : m.bytes.length = 97)
    (soln : ascii "SOLN" <+: m.bytes)
    (hex : ∀ c ∈ field m.bytes 5 8 ++ field m.bytes 14 64 ++ field m.bytes 79 16, IsDigit c) :
    let seed := unhex (field m.bytes 14 64)
    let nonce := unhex (field m.bytes 79 16)
    let target := difficultyTarget (unhex (field m.bytes 5 8))
    let accepted := value (doubleDigest env.sha256 (seed ++ nonce)) < target
    ((turn env fuel work_num firstFour buffer m).val = .answers (ascii "OKAY\r\n") ↔ accepted) ∧
    (¬ accepted → (turn env fuel work_num firstFour buffer m).val =
      .answers (padded "ERRO not a valid solution.\r\n" 80)) := by
  have whole := text_of_literal plain
  have difficulty := decoded_hex env fun c hc => hex c (List.mem_append_left _ (List.mem_append_left _ hc))
  have seed := decoded_hex env fun c hc => hex c (List.mem_append_left _ (List.mem_append_right _ hc))
  have nonce := decoded_hex env fun c hc => hex c (List.mem_append_right _ hc)
  have answer := turn_soln env fuel work_num buffer fifth (whole ▸ soln) (whole ▸ len)
  have verdict : Solves env.sha256 (targetField env m.text) (seedField env m.text) (nonceField env m.text) ↔
      value (doubleDigest env.sha256 (unhex (field m.bytes 14 64) ++ unhex (field m.bytes 79 16))) <
        difficultyTarget (unhex (field m.bytes 5 8)) := by
    unfold Solves
    rw [score_field env _ (by rw [whole]; omega), whole, targetField, seedField, difficulty, seed,
      nonce]
  have apart : padded "ERRO not a valid solution.\r\n" 80 ≠ ascii "OKAY\r\n" := by decide
  rw [answer]
  simp only [verdict, Turn.answers.injEq]
  refine ⟨?_, fun rejected => by rw [if_neg rejected]⟩
  split
  · rename_i accepted
    exact ⟨fun _ => accepted, fun _ => rfl⟩
  · rename_i rejected
    exact ⟨fun okay => absurd okay apart, fun accepted => absurd accepted rejected⟩

/-! The first sample of `client.c`. -/

def sampleSoln : Message where
  bytes := ascii ("SOLN 1fffffff 0000000019d6689c085ae165831e934ff763ae46a218a6c172b3f1b60a8ce26f " ++
    "1000000023212147\r\n")
  fits := by decide

theorem soln_verdict_sample :
    (turn sampleEnv 0 0 (Vector.replicate 5 0) (Vector.replicate 256 0) sampleSoln).val =
      .answers (ascii "OKAY\r\n") :=
  (soln_verdict sampleEnv 0 0 _ (by decide) (by decide) (by decide) (by decide) (by decide)).1.mpr
    (by decide +kernel)

/-! ### Mined solutions -/

theorem field_solution {text : List BYTE} (nonce : Nat) (tail : List BYTE) {off len : Nat}
    (long : 79 ≤ text.length) (above : 4 ≤ off) (below : off + len ≤ 79) :
    field (solution text nonce ++ tail) off len = field text off len := by
  have soln := length_soln
  have middle : (field text 4 75).length = 75 := length_field (by omega)
  apply List.ext_getElem?
  intro i
  rw [field, field, List.getElem?_take, List.getElem?_take]
  split
  · rename_i inside
    rw [List.getElem?_drop, List.getElem?_drop, solution, List.append_assoc,
      List.getElem?_append_left (by rw [List.length_append]; omega),
      List.getElem?_append_right (by omega), field, List.getElem?_take_of_lt (by omega), List.getElem?_drop,
      soln, show 4 + (off + i - 4) = off + i by omega]
  · rfl

theorem field_solution_nonce {text : List BYTE} (nonce : Nat) (tail : List BYTE) (long : 79 ≤ text.length) :
    field (solution text nonce ++ tail) 79 16 = toHex (beBytes 8 nonce) := by
  have head : (ascii "SOLN" ++ field text 4 75).length = 79 := by
    rw [List.length_append, length_field (by omega)]
    decide
  have digits : (toHex (beBytes 8 nonce)).length = 16 := by rw [length_toHex, length_beBytes]
  unfold field solution
  rw [List.append_assoc, List.drop_left' head, List.take_left' digits]

/-- A solution of the puzzle of `text`, with its line end, is a SOLN message that verifies. -/
theorem solution_verifies (env : Env) {text : List BYTE} {nonce : Nat} (plain : Literal text)
    (long : 79 ≤ text.length) (small : nonce < 2 ^ 64)
    (solves : Solves env.sha256 (targetField env text) (seedField env text) nonce) :
    ∃ s : Message, s.bytes = solution text nonce ++ ascii "\r\n" ∧
      ∀ fuel work_num (firstFour : Arr 5) buffer, entry firstFour 4 = 0 →
        (turn env fuel work_num firstFour buffer s).val = .answers (ascii "OKAY\r\n") := by
  have len : (solution text nonce ++ ascii "\r\n").length = 97 := by
    rw [List.length_append, length_solution long]
    decide
  refine ⟨⟨_, len.le.trans (by omega)⟩, rfl, ?_⟩
  intro fuel work_num firstFour buffer fifth
  have whole : (Message.mk (solution text nonce ++ ascii "\r\n") (len.le.trans (by omega))).text =
      solution text nonce ++ ascii "\r\n" := by
    refine text_of_literal fun c hc => ?_
    rcases List.mem_append.mp hc with hc | hc
    · exact literal_solution plain nonce c hc
    · exact (show Literal (ascii "\r\n") by decide) c hc
  have soln : ascii "SOLN" <+: solution text nonce ++ ascii "\r\n" := by
    unfold solution
    rw [List.append_assoc, List.append_assoc]
    exact List.prefix_append _ _
  have target : targetField env (solution text nonce ++ ascii "\r\n") = targetField env text := by
    rw [targetField, field_solution nonce _ long (by omega) (by omega), targetField]
  have seed : seedField env (solution text nonce ++ ascii "\r\n") = seedField env text := by
    rw [seedField, field_solution nonce _ long (by omega) (by omega), seedField]
  have same : nonceField env (solution text nonce ++ ascii "\r\n") = nonce := by
    unfold nonceField
    rw [field_solution_nonce nonce _ long, decoded_hex env fun c hc => isDigit_of_mem_toHex hc,
      unhex_toHex, beVal_beBytes, show (256 : Nat) ^ 8 = 2 ^ 64 by norm_num, Nat.mod_eq_of_lt small]
  rw [turn_soln env fuel work_num buffer fifth (whole.symm ▸ soln) (whole.symm ▸ len), whole, target, seed,
    same, if_pos solves]

/-- What `work` leaves of an admitted message is its answer, and verifies with a line end. -/
theorem mined_verifies (env : Env) {fuel : Nat} {work_num : Int} {firstFour : Arr 5} (buffer : Arr 256)
    {m : Message} {left : Arr 256} {seedBYTE : Arr 40} (fifth : entry firstFour 4 = 0)
    (word : ascii "WORK" <+: m.text) (len : m.text.length = 100) (free : work_num < MAX_WORK)
    (returned : (work env fuel m.buffer (decode env (copyFields env m.buffer).val).val.difficultyBYTE
      (decode env (copyFields env m.buffer).val).val.seedBYTE
      (decode env (copyFields env m.buffer).val).val.thirdBYTE).val = some (left, seedBYTE)) :
    (turn env fuel work_num firstFour buffer m).val = .answers (slice left 0 95) ∧
    ∃ s : Message, s.bytes = slice left 0 95 ++ ascii "\r\n" ∧
      ∀ fuel work_num (firstFour : Arr 5) buffer, entry firstFour 4 = 0 →
        (turn env fuel work_num firstFour buffer s).val = .answers (ascii "OKAY\r\n") := by
  have long : 98 ≤ (text m.buffer).length := by rw [text_buffer]; omega
  have answered : (admittedReply env fuel m.buffer).val = some (text left) := by
    rw [admittedReply_val env fuel long, minedReply_val, returned, Option.map_some]
  obtain ⟨nonce, small, mined, solves, -⟩ := admittedReply_some env long answered
  rw [text_buffer] at mined solves
  have front : slice left 0 95 = solution m.text nonce := by
    have spelt := (text_spec left).1
    rwa [mined, length_solution (by omega), eq_comm] at spelt
  rw [front]
  refine ⟨?_, solution_verifies env (text_buffer m ▸ literal_text _) (by omega) small solves⟩
  rw [turn_work env fuel buffer (fifth ▸ classify_eq_work.mpr ⟨rfl, word⟩), if_neg (by omega), answered,
    mined]

def sampleWork : Message where
  bytes := ascii ("WORK 1fffffff 0000000019d6689c085ae165831e934ff763ae46a218a6c172b3f1b60a8ce26f " ++
    "1000000023212147 01\r\n")
  fits := by decide

theorem length_sampleWork : (text sampleWork.buffer).length = 100 := by
  rw [text_buffer]
  decide

theorem solvable_sampleWork : Solvable sampleEnv.sha256 (targetField sampleEnv (text sampleWork.buffer))
    (seedField sampleEnv (text sampleWork.buffer)) := by
  rw [text_buffer]
  exact ⟨0x1000000023212147, by norm_num, by decide +kernel⟩

theorem mined_verifies_sample : ∃ (fuel : Nat) (left : Arr 256),
    (turn sampleEnv fuel 0 (Vector.replicate 5 0) (Vector.replicate 256 0) sampleWork).val =
      .answers (slice left 0 95) ∧
    ∃ s : Message, s.bytes = slice left 0 95 ++ ascii "\r\n" ∧
      ∀ fuel work_num (firstFour : Arr 5) buffer, entry firstFour 4 = 0 →
        (turn sampleEnv fuel work_num firstFour buffer s).val = .answers (ascii "OKAY\r\n") := by
  have len := length_sampleWork
  obtain ⟨target, seed, -⟩ := fields_val sampleEnv sampleWork.buffer (by omega)
  have solvable := solvable_sampleWork
  rw [← target, ← seed] at solvable
  obtain ⟨fuel, out, returned⟩ := (work_returns_iff sampleEnv _ sampleWork.buffer _
    (decode sampleEnv (copyFields sampleEnv sampleWork.buffer).val).val.thirdBYTE).mpr solvable
  rw [text_buffer] at len
  exact ⟨fuel, out.1, mined_verifies sampleEnv _ (by decide) (by decide) len (by decide) returned⟩

end WorkServer

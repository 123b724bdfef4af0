import WorkServer.Handler.Verdict

/-!
# The language that the handler accepts

The handler decodes a message on the strength of its first four characters and its
length alone. Every message of the intended grammar passes, and so does any other string
of the right length with the right first word.
-/

namespace WorkServer
open Tracing CString HexText

/-! ### The intended grammar -/

def fieldsText (difficulty seed third : List BYTE) : List BYTE :=
  ascii " " ++ difficulty ++ ascii " " ++ seed ++ ascii " " ++ third

def HexFields (difficulty seed third : List BYTE) : Prop :=
  difficulty.length = 8 ∧ seed.length = 64 ∧ third.length = 16 ∧ ∀ c ∈ difficulty ++ seed ++ third, IsDigit c

def SolnGrammar (bytes : List BYTE) : Prop :=
  ∃ difficulty seed solution, HexFields difficulty seed solution ∧
    bytes = ascii "SOLN" ++ fieldsText difficulty seed solution ++ ascii "\r\n"

def WorkGrammar (bytes : List BYTE) : Prop :=
  ∃ difficulty seed start counter, HexFields difficulty seed start ∧ counter.length = 2 ∧
    (∀ c ∈ counter, IsDigit c) ∧
    bytes = ascii "WORK" ++ fieldsText difficulty seed start ++ ascii " " ++ counter ++ ascii "\r\n"

theorem length_space : (ascii " ").length = 1 := by decide

theorem length_line_end : (ascii "\r\n").length = 2 := by decide

theorem length_fieldsText {difficulty seed third : List BYTE} (hex : HexFields difficulty seed third) :
    (fieldsText difficulty seed third).length = 91 := by
  obtain ⟨hd, hs, ht, -⟩ := hex
  unfold fieldsText
  simp only [List.length_append, length_space]
  omega

theorem literal_append {xs ys : List BYTE} (left : Literal xs) (right : Literal ys) : Literal (xs ++ ys) :=
  fun c hc => (List.mem_append.mp hc).elim (left c) (right c)

theorem literal_digits {cs : List BYTE} (hex : ∀ c ∈ cs, IsDigit c) : Literal cs := by
  rintro c hc rfl
  exact absurd (hex 0 hc) (by decide)

theorem literal_fieldsText {difficulty seed third : List BYTE} (hex : HexFields difficulty seed third) :
    Literal (fieldsText difficulty seed third) := by
  have plain := literal_digits hex.2.2.2
  have space : Literal (ascii " ") := by decide
  have hd : Literal difficulty := fun c hc => plain c (by simp [hc])
  have hs : Literal seed := fun c hc => plain c (by simp [hc])
  have ht : Literal third := fun c hc => plain c (by simp [hc])
  exact literal_append
    (literal_append (literal_append (literal_append (literal_append space hd) space) hs) space) ht

theorem SolnGrammar.shape {bytes : List BYTE} (h : SolnGrammar bytes) :
    Literal bytes ∧ ascii "SOLN" <+: bytes ∧ bytes.length = 97 := by
  obtain ⟨difficulty, seed, solution, hex, rfl⟩ := h
  refine ⟨literal_append (literal_append (by decide) (literal_fieldsText hex)) (by decide), ?_, ?_⟩
  · rw [List.append_assoc]
    exact List.prefix_append _ _
  · simp only [List.length_append, length_fieldsText hex, length_soln, length_line_end]

theorem WorkGrammar.shape {bytes : List BYTE} (h : WorkGrammar bytes) :
    Literal bytes ∧ ascii "WORK" <+: bytes ∧ bytes.length = 100 := by
  obtain ⟨difficulty, seed, start, counter, hex, two, digits, rfl⟩ := h
  refine ⟨?_, ?_, ?_⟩
  · exact literal_append (literal_append (literal_append (literal_append (by decide) (literal_fieldsText hex))
      (by decide)) (literal_digits digits)) (by decide)
  · rw [List.append_assoc, List.append_assoc, List.append_assoc]
    exact List.prefix_append _ _
  · have word : (ascii "WORK").length = 4 := by decide
    simp only [List.length_append, length_fieldsText hex, word, length_space, length_line_end, two]

/-! ### The accepted language -/

theorem parse_val (env : Env) (work_num : Int) (firstFour : Arr 5) (buffer : Arr 256) :
    (parse env work_num firstFour buffer).val = match classify (entry firstFour 4) (text buffer) with
      | .plain .soln => .soln (copyFields env buffer).val
      | .plain _ => .nothing
      | .work =>
        if MAX_WORK ≤ work_num ∨ (text buffer).length ≠ 100 then .nothing
        else .work (copyFields env buffer).val := by
  unfold parse
  simp only [val_bind, dispatch_val]
  cases branch : classify (entry firstFour 4) (text buffer) with
  | plain kind =>
    cases kind with
    | soln =>
      have len := (classify_eq_soln.mp branch).2
      simp only [val_bind, solnFields_val env buffer (by omega), val_pure]
    | _ => rfl
  | work =>
    simp only [val_bind, val_ite, val_pure, refuses_val]
    split
    · rfl
    · rename_i admitted
      simp only [workFields_val env buffer (show 98 ≤ (text buffer).length by omega), val_pure]

/-- The fields that `parse` returns are those that the reply is made of. Where it returns none, no
field is decoded: the reply is the same for every digest and every stack. -/
theorem respond_parse (env : Env) (fuel : Nat) (work_num : Int) (firstFour : Arr 5) (buffer : Arr 256) :
    match (parse env work_num firstFour buffer).val with
    | .soln fields => (respond env fuel work_num firstFour buffer).val = some (verdictReply env fields buffer).val
    | .work fields => (respond env fuel work_num firstFour buffer).val = (minedReply env fuel fields buffer).val
    | .nothing => ∀ env' fuel', (respond env' fuel' work_num firstFour buffer).val =
        (respond env fuel work_num firstFour buffer).val := by
  rw [parse_val]
  cases branch : classify (entry firstFour 4) (text buffer) with
  | plain kind =>
    have reply : ∀ env' fuel', (respond env' fuel' work_num firstFour buffer).val =
        some (plainReply env' kind buffer).val := by
      intro env' fuel'
      rw [respond_val, branch]
    cases kind with
    | soln =>
      have len := (classify_eq_soln.mp branch).2
      rw [reply, plainReply, solnReply]
      simp only [val_bind, solnFields_val env buffer (by omega)]
    | ping | pong | okay | erro | abrt | unknown =>
      intro env' fuel'
      rw [reply, reply]
      rfl
  | work =>
    have reply : ∀ env' fuel', (respond env' fuel' work_num firstFour buffer).val =
        (workReply env' fuel' work_num buffer).val := by
      intro env' fuel'
      rw [respond_val, branch]
    simp only [reply, workReply_val]
    by_cases refused : MAX_WORK ≤ work_num ∨ (text buffer).length ≠ 100
    · simp only [if_pos refused, implies_true]
    · simp only [if_neg refused]
      exact admittedReply_val env fuel (by omega)

theorem parse_nothing (env : Env) {work_num : Int} {firstFour : Arr 5} {m : Message}
    (notSoln : ¬ (ascii "SOLN" <+: m.text ∧ m.text.length = 97))
    (notWork : ¬ (ascii "WORK" <+: m.text ∧ m.text.length = 100)) :
    (parse env work_num firstFour m.buffer).val = .nothing := by
  rw [parse_val, text_buffer]
  cases branch : classify (entry firstFour 4) m.text with
  | plain kind =>
    cases kind with
    | soln =>
      obtain ⟨⟨-, soln⟩, len⟩ := classify_eq_soln.mp branch
      exact absurd ⟨soln, len⟩ notSoln
    | _ => rfl
  | work =>
    obtain ⟨-, work⟩ := classify_eq_work.mp branch
    exact if_pos (Or.inr fun len => notWork ⟨work, len⟩)

/-- The other branches answer an error that no field has a part in. -/
theorem plainReply_error (buffer : Arr 256) {kind : Plain} (ping : kind ≠ .ping) (soln : kind ≠ .soln)
    (abrt : kind ≠ .abrt) :
    ∃ reply, ascii "ERRO" <+: reply ∧ ∀ env, (plainReply env kind buffer).val = reply := by
  cases kind with
  | ping => exact absurd rfl ping
  | soln => exact absurd rfl soln
  | abrt => exact absurd rfl abrt
  | unknown =>
    refine ⟨(unknownReply buffer).val, ?_, fun _ => rfl⟩
    rw [unknownReply_val]
    exact ⟨_, rfl⟩
  | pong | okay | erro =>
    refine ⟨_, ?_, fun _ => freshReply_val buffer (by decide) (by decide)⟩
    decide

theorem unparsed_answer {work_num : Int} {firstFour : Arr 5} {m : Message} (fifth : entry firstFour 4 = 0)
    (notSoln : ¬ (ascii "SOLN" <+: m.text ∧ m.text.length = 97))
    (notWork : ¬ (ascii "WORK" <+: m.text ∧ m.text.length = 100)) :
    ∃ reply, ascii "ERRO" <+: reply ∧ ∀ env fuel buffer,
      (turn env fuel work_num firstFour buffer m).val =
        if m.text = [] then .leaves
        else if m.text = ascii "PING\r\n" then .answers (ascii "PONG\r\n")
        else if ascii "ABRT" <+: m.text then .answers (ascii "OKAY\r\n")
        else .answers reply := by
  have ping : m.text = ascii "PING\r\n" ↔ classify (entry firstFour 4) m.text = .plain .ping :=
    classify_eq_ping.symm
  have abrt : ascii "ABRT" <+: m.text ↔ classify (entry firstFour 4) m.text = .plain .abrt := by
    rw [classify_eq_abrt, and_iff_right fifth]
  cases branch : classify (entry firstFour 4) m.text with
  | work =>
    obtain ⟨-, work⟩ := classify_eq_work.mp branch
    have len : m.text.length ≠ 100 := fun len => notWork ⟨work, len⟩
    refine ⟨ascii "ERRO \r\n", by decide, fun env fuel buffer => ?_⟩
    rw [turn_work env fuel buffer branch, if_pos (Or.inr len), if_neg (ne_of_front work (by decide)),
      if_neg (ne_of_front work (by decide)), if_neg (not_front work (by decide) (by decide))]
  | plain kind =>
    rw [branch, Branch.plain.injEq] at ping abrt
    by_cases isPing : kind = .ping
    · subst isPing
      refine ⟨ascii "ERRO", List.prefix_rfl, fun env fuel buffer => ?_⟩
      rw [turn_plain env fuel buffer branch, if_pos (ping.mpr rfl), plainReply, pingReply_val]
    by_cases isAbrt : kind = .abrt
    · subst isAbrt
      refine ⟨ascii "ERRO", List.prefix_rfl, fun env fuel buffer => ?_⟩
      rw [turn_plain env fuel buffer branch, if_neg (mt ping.mp isPing), if_pos (abrt.mpr rfl), plainReply,
        abrtReply_val]
    · have isSoln : kind ≠ .soln := by
        rintro rfl
        obtain ⟨⟨-, soln⟩, len⟩ := classify_eq_soln.mp branch
        exact notSoln ⟨soln, len⟩
      obtain ⟨reply, front, wrote⟩ := plainReply_error m.buffer isPing isSoln isAbrt
      refine ⟨reply, front, fun env fuel buffer => ?_⟩
      rw [turn_plain env fuel buffer branch, wrote, if_neg (mt ping.mp isPing), if_neg (mt abrt.mp isAbrt)]

theorem parse_soln_iff (env : Env) {work_num : Int} {firstFour : Arr 5} (m : Message)
    (fifth : entry firstFour 4 = 0) : (∃ fields, (parse env work_num firstFour m.buffer).val = .soln fields) ↔
      ascii "SOLN" <+: m.text ∧ m.text.length = 97 := by
  rw [parse_val, text_buffer, fifth]
  constructor
  · intro decodes
    obtain ⟨fields, parsed⟩ := decodes
    split at parsed
    · rename_i branch
      exact ⟨(classify_eq_soln.mp branch).1.2, (classify_eq_soln.mp branch).2⟩
    · cases parsed
    · split at parsed <;> cases parsed
  · intro shape
    obtain ⟨soln, len⟩ := shape
    rw [classify_eq_soln.mpr ⟨⟨rfl, soln⟩, len⟩]
    exact ⟨_, rfl⟩

theorem parse_work_iff (env : Env) {work_num : Int} {firstFour : Arr 5} (m : Message)
    (fifth : entry firstFour 4 = 0) (free : work_num < MAX_WORK) :
    (∃ fields, (parse env work_num firstFour m.buffer).val = .work fields) ↔
      ascii "WORK" <+: m.text ∧ m.text.length = 100 := by
  rw [parse_val, text_buffer, fifth]
  constructor
  · intro decodes
    obtain ⟨fields, parsed⟩ := decodes
    split at parsed
    · cases parsed
    · cases parsed
    · rename_i branch
      split at parsed
      · cases parsed
      · exact ⟨(classify_eq_work.mp branch).2, by omega⟩
  · intro shape
    obtain ⟨work, len⟩ := shape
    rw [classify_eq_work.mpr ⟨rfl, work⟩]
    exact ⟨_, if_neg (by omega)⟩

/-- What the handler decodes, and what it answers to everything else. -/
theorem accepted_language (env : Env) {work_num : Int} {firstFour : Arr 5} (m : Message)
    (fifth : entry firstFour 4 = 0) (free : work_num < MAX_WORK) :
    ((∃ fields, (parse env work_num firstFour m.buffer).val = .soln fields) ↔
      ascii "SOLN" <+: m.text ∧ m.text.length = 97) ∧
    ((∃ fields, (parse env work_num firstFour m.buffer).val = .work fields) ↔
      ascii "WORK" <+: m.text ∧ m.text.length = 100) ∧
    (SolnGrammar m.bytes → ∃ fields, (parse env work_num firstFour m.buffer).val = .soln fields) ∧
    (WorkGrammar m.bytes → ∃ fields, (parse env work_num firstFour m.buffer).val = .work fields) ∧
    ((parse env work_num firstFour m.buffer).val = .nothing →
      ∃ reply, ascii "ERRO" <+: reply ∧ ∀ env fuel buffer,
        (parse env work_num firstFour m.buffer).val = .nothing ∧
        (turn env fuel work_num firstFour buffer m).val =
          if m.text = [] then .leaves
          else if m.text = ascii "PING\r\n" then .answers (ascii "PONG\r\n")
          else if ascii "ABRT" <+: m.text then .answers (ascii "OKAY\r\n")
          else .answers reply) := by
  have soln := @parse_soln_iff env work_num firstFour m fifth
  have work := parse_work_iff env m fifth free
  refine ⟨soln, work, fun grammar => ?_, fun grammar => ?_, fun nothing => ?_⟩
  · obtain ⟨plain, front, len⟩ := grammar.shape
    exact soln.mpr (by rw [text_of_literal plain]; exact ⟨front, len⟩)
  · obtain ⟨plain, front, len⟩ := grammar.shape
    exact work.mpr (by rw [text_of_literal plain]; exact ⟨front, len⟩)
  · have notSoln : ¬ (ascii "SOLN" <+: m.text ∧ m.text.length = 97) := by
      intro shape
      obtain ⟨fields, parsed⟩ := soln.mpr shape
      rw [nothing] at parsed
      cases parsed
    have notWork : ¬ (ascii "WORK" <+: m.text ∧ m.text.length = 100) := by
      intro shape
      obtain ⟨fields, parsed⟩ := work.mpr shape
      rw [nothing] at parsed
      cases parsed
    obtain ⟨reply, front, answers⟩ := unparsed_answer fifth notSoln notWork
    exact ⟨reply, front, fun env fuel buffer =>
      ⟨parse_nothing env notSoln notWork, answers env fuel buffer⟩⟩

theorem accepted_language_sample : ∃ fields,
    (parse sampleEnv 0 (Vector.replicate 5 0) sampleSoln.buffer).val = .soln fields :=
  (accepted_language sampleEnv sampleSoln (by decide) (by decide)).1.mpr ⟨by decide, by decide⟩

def noise : Message where
  bytes := ascii "SOLN" ++ List.replicate 93 (chr 'x')
  fits := by decide

theorem noise_not_grammar : ¬ SolnGrammar noise.bytes := by
  intro grammar
  obtain ⟨difficulty, seed, solution, -, same⟩ := grammar
  have fifth := congrArg (fun bytes => bytes[4]?) same
  exact absurd (show some (chr 'x') = some 32 from fifth) (by decide)

/-- A message outside both grammars is decoded, and PING is not answered with an error. -/
theorem grammar_not_checked :
    ¬ (∀ (env : Env) (work_num : Int) (firstFour : Arr 5) (m : Message),
      entry firstFour 4 = 0 → work_num < MAX_WORK →
      ((∃ fields, (parse env work_num firstFour m.buffer).val = .soln fields) ↔ SolnGrammar m.bytes)) ∧
    ¬ (∀ (env : Env) (work_num : Int) (firstFour : Arr 5) (m : Message) (fuel : Nat) (buffer : Arr 256),
      entry firstFour 4 = 0 → work_num < MAX_WORK → ¬ SolnGrammar m.bytes → ¬ WorkGrammar m.bytes →
      ∃ reply, (turn env fuel work_num firstFour buffer m).val = .answers reply ∧
        ascii "ERRO" <+: reply) := by
  constructor
  · intro claimed
    have parsed := claimed sampleEnv 0 (Vector.replicate 5 0) noise (by decide) (by decide)
    refine noise_not_grammar (parsed.mp ?_)
    exact (parse_soln_iff sampleEnv noise (by decide)).mpr ⟨by decide, by decide⟩
  · intro claimed
    let ping : Message := ⟨ascii "PING\r\n", by decide⟩
    have short : ping.bytes.length = 6 := by decide
    obtain ⟨reply, wrote, error⟩ := claimed sampleEnv 0 (Vector.replicate 5 0) ping 0 (Vector.replicate 256 0)
      (by decide) (by decide) (fun soln => absurd (short.symm.trans soln.shape.2.2) (by decide))
      (fun work => absurd (short.symm.trans work.shape.2.2) (by decide))
    rw [turn_ping sampleEnv 0 _ (show ping.text = ascii "PING\r\n" by decide), Turn.answers.injEq] at wrote
    rw [← wrote] at error
    exact absurd error (by decide)

end WorkServer

import WorkServer.Handler.Dispatch
import WorkServer.Pow.Search

/-!
# What each branch writes

The fixed replies, and the replies to SOLN and WORK messages in terms of the puzzle that
the text of the message poses.
-/

namespace WorkServer
open Tracing BigEndian CString HexText OrbitSearch

/-! ### Fixed replies -/

theorem entry_strcpy {n : Nat} (dst : Arr n) {lit : List BYTE} (fits : lit.length < n) (j : Nat) :
    entry (strcpy dst lit).val j =
      if j < lit.length then lit.getD j 0 else if j = lit.length then 0 else entry dst j := by
  unfold strcpy
  rw [entry_store dst (by simp; omega), List.length_append, List.length_singleton, Nat.zero_add,
    Nat.sub_zero]
  by_cases before : j < lit.length
  · rw [if_pos (by omega), if_pos before, List.getD_append _ _ _ _ before]
  · rw [if_neg before]
    by_cases nul : j = lit.length
    · rw [if_pos (by omega), if_pos nul, List.getD_append_right _ _ _ _ (by omega), nul, Nat.sub_self]
      rfl
    · rw [if_neg (by omega), if_neg nul]

theorem slice_strcpy {n : Nat} (dst : Arr n) {lit : List BYTE} (fits : lit.length < n) :
    slice (strcpy dst lit).val 0 lit.length = lit := by
  apply slice_eq_of_entry _ 0
  intro i hi
  rw [entry_strcpy dst fits, Nat.zero_add, if_pos hi]

theorem text_strcpy {n : Nat} (dst : Arr n) {lit : List BYTE} (plain : Literal lit) (fits : lit.length < n) :
    text (strcpy dst lit).val = lit := by
  refine (text_eq_iff plain).mpr ⟨slice_strcpy dst fits, ?_⟩
  rw [entry_strcpy dst fits, if_neg (Nat.lt_irrefl _), if_pos rfl]

/-- A text padded with NULs to a count of bytes. -/
def padded (text : String) (count : Nat) : List BYTE :=
  ascii text ++ List.replicate (count - (ascii text).length) 0

theorem length_padded {text : String} {count : Nat} (short : (ascii text).length ≤ count) :
    (padded text count).length = count := by
  simp [padded]
  omega

theorem freshReply_val {text : String} {count : Nat} (buffer : Arr 256) (short : (ascii text).length ≤ count)
    (small : count < 256) : (freshReply text count buffer).val = padded text count := by
  have len := length_padded short
  unfold freshReply
  simp only [val_bind]
  rw [readRange_val]
  refine Eq.trans (by rw [len]) (slice_eq_of_entry (padded text count) 0 fun i hi => ?_)
  rw [entry_strcpy _ (by omega), entry_bzero _ (by omega), Nat.zero_add, padded]
  by_cases inside : i < (ascii text).length
  · rw [if_pos inside, List.getD_append _ _ _ _ inside]
  · rw [if_neg inside, List.getD_append_right _ _ _ _ (by omega), List.getD_replicate _ (by omega)]
    split
    · rfl
    · rw [if_pos (by omega)]

theorem pingReply_val (buffer : Arr 256) : (pingReply buffer).val = ascii "PONG\r\n" :=
  freshReply_val buffer (by decide) (by decide)

theorem shortError_val (buffer : Arr 256) : (shortError buffer).val = ascii "ERRO \r\n" := by
  have plain : Literal (ascii "ERRO \r\n") := by decide
  have fits : (ascii "ERRO \r\n").length < 256 := by decide
  unfold shortError
  simp only [val_bind]
  rw [readRange_val, strlen_val, text_strcpy _ plain fits, slice_strcpy _ fits]

theorem staleReply_val {text : String} {rest : Nat} (buffer : Arr 256)
    (small : (ascii text).length + 1 + rest ≤ 256) :
    (staleReply text ((ascii text).length + 1 + rest) buffer).val =
      ascii text ++ 0 :: slice buffer ((ascii text).length + 1) rest := by
  unfold staleReply
  simp only [val_bind]
  rw [readRange_val, slice_add, slice_succ, slice_strcpy _ (by omega), List.append_assoc, Nat.zero_add,
    entry_strcpy _ (by omega), if_neg (Nat.lt_irrefl _), if_pos rfl, List.singleton_append, Nat.zero_add]
  refine congrArg (ascii text ++ 0 :: ·) (slice_congr fun i _ => ?_)
  rw [entry_strcpy _ (by omega), if_neg (by omega), if_neg (by omega)]

theorem abrtReply_val (buffer : Arr 256) : (abrtReply buffer).val = ascii "OKAY\r\n" := by
  unfold abrtReply staleReply
  simp only [val_bind]
  rw [readRange_val]
  exact slice_strcpy buffer (show (ascii "OKAY\r\n").length < 256 by decide)

theorem unknownReply_val (buffer : Arr 256) :
    (unknownReply buffer).val = ascii "ERRO\r\n" ++ 0 :: slice buffer 7 73 := by
  have len : (ascii "ERRO\r\n").length = 6 := by decide
  have reply := @staleReply_val "ERRO\r\n" 73 buffer (by rw [len]; omega)
  rwa [len] at reply

/-! ### The fields of a message -/

def field (text : List BYTE) (off len : Nat) : List BYTE := (text.drop off).take len

def targetField (env : Env) (text : List BYTE) : Nat := difficultyTarget (decoded env (field text 5 8))

def seedField (env : Env) (text : List BYTE) : List BYTE := decoded env (field text 14 64)

/-- The solution of a SOLN message, the start of a WORK message. -/
def nonceField (env : Env) (text : List BYTE) : Nat := beVal (decoded env (field text 79 16))

section Fields
variable (env : Env) (buffer : Arr 256)

theorem slice_memcpy {n m : Nat} (dst : Arr n) (src : Arr m) {srcOff len : Nat} (fits : len ≤ n) :
    slice (memcpy dst 0 src srcOff len).val 0 len = slice src srcOff len := by
  apply slice_congr
  intro i hi
  rw [entry_memcpy dst src (by omega), if_pos (by omega), Nat.zero_add, Nat.sub_zero]

theorem copyFields_val : slice (copyFields env buffer).val.difficulty 0 8 = slice buffer 5 8 ∧
    slice (copyFields env buffer).val.seed 0 64 = slice buffer 14 64 ∧
    slice (copyFields env buffer).val.third 0 16 = slice buffer 79 16 :=
  ⟨slice_memcpy _ _ (by omega), slice_memcpy _ _ (by omega), slice_memcpy _ _ (by omega)⟩

theorem scanNulFrom_val {n : Nat} (field : Arr n) (k i : Nat) :
    (scanNulFrom field i k).val = false ↔ Literal (slice field i k) := by
  induction k generalizing i with
  | zero => simp [scanNulFrom, Literal, slice]
  | succ k ih =>
    unfold scanNulFrom
    simp only [val_bind, read_val, val_ite, val_pure]
    rw [slice_head, Literal, List.forall_mem_cons]
    split
    · rename_i nul
      simp [nul]
    · rename_i full
      rw [ih]
      exact ⟨fun rest => ⟨full, rest⟩, fun both => both.2⟩

theorem scanNul_val {n : Nat} (field : Arr n) (len : Nat) :
    (scanNul field len).val = false ↔ Literal (slice field 0 len) := scanNulFrom_val field len 0

theorem literal_field {off len : Nat} (inside : off + len ≤ (text buffer).length) :
    Literal (slice buffer off len) :=
  literal_slice fun i hi => entry_ne_zero buffer (by omega)

theorem scans_val (long : 95 ≤ (text buffer).length) :
    (scanNul (copyFields env buffer).val.difficulty 8).val = false ∧
    (scanNul (copyFields env buffer).val.seed 64).val = false ∧
    (scanNul (copyFields env buffer).val.third 16).val = false := by
  obtain ⟨difficulty, seed, third⟩ := copyFields_val env buffer
  simp only [scanNul_val, difficulty, seed, third]
  exact ⟨literal_field buffer (by omega), literal_field buffer (by omega), literal_field buffer (by omega)⟩

theorem solnFlag_val (long : 95 ≤ (text buffer).length) :
    (solnFlag (copyFields env buffer).val).val = false := by
  obtain ⟨difficulty, seed, third⟩ := scans_val env buffer long
  unfold solnFlag scanUnless
  simp only [val_bind, difficulty, seed, third, if_neg Bool.false_ne_true]

theorem solnFields_val (long : 95 ≤ (text buffer).length) :
    (solnFields env buffer).val = some (copyFields env buffer).val := by
  unfold solnFields
  simp only [val_bind, solnFlag_val env buffer long, val_pure, if_neg Bool.false_ne_true]

/-- A WORK message of the right length passes the scans: its flag path is dead. -/
theorem workFields_val (long : 98 ≤ (text buffer).length) :
    (workFields env buffer).val = some (copyFields env buffer).val := by
  have soln := solnFlag_val env buffer (by omega)
  have counter : (scanNul (memcpy (env.stack 3) 0 buffer 96 2).val 2).val = false := by
    rw [scanNul_val, slice_memcpy _ _ (by omega)]
    exact literal_field buffer (by omega)
  have unflagged : (workFlag (memcpy (env.stack 3) 0 buffer 96 2).val (copyFields env buffer).val).val =
      (solnFlag (copyFields env buffer).val).val := by
    unfold workFlag solnFlag
    simp only [val_bind, counter, Bool.false_or]
  unfold workFields
  simp only [val_bind, unflagged, soln, val_pure, if_neg Bool.false_ne_true]

theorem decode_val (fields : Fields) :
    slice (decode env fields).val.difficultyBYTE 28 4 = decoded env (slice fields.difficulty 0 8) ∧
    slice (decode env fields).val.seedBYTE 0 32 = decoded env (slice fields.seed 0 64) ∧
    slice (decode env fields).val.thirdBYTE 24 8 = decoded env (slice fields.third 0 16) := by
  have difficulty := ctob_slice env fields.difficulty (k := 4) (env.stack 32) (by omega) (by omega)
  have seed := ctob_slice env fields.seed (k := 32) (env.stack 40) (by omega) (by omega)
  have third := ctob_slice env fields.third (k := 8) (env.stack 32) (by omega) (by omega)
  simp only [Nat.reduceMul, Nat.reduceSub] at difficulty seed third
  unfold decode
  simp only [val_bind, val_pure, difficulty, seed, third, and_self]

theorem fields_val (long : 95 ≤ (text buffer).length) :
    let d := (decode env (copyFields env buffer).val).val
    value (targetOf env d.difficultyBYTE) = targetField env (text buffer) ∧
    slice d.seedBYTE 0 32 = seedField env (text buffer) ∧
    nonceOf d.thirdBYTE = nonceField env (text buffer) := by
  obtain ⟨difficulty, seed, third⟩ := copyFields_val env buffer
  obtain ⟨difficultyBYTE, seedBYTE, thirdBYTE⟩ := decode_val env (copyFields env buffer).val
  refine ⟨?_, ?_, ?_⟩
  · unfold targetOf
    rw [getTarget_difficulty, difficultyBYTE, difficulty, slice_text buffer (by omega), targetField,
      field]
  · rw [seedBYTE, seed, slice_text buffer (by omega), seedField, field]
  · unfold nonceOf
    rw [thirdBYTE, third, slice_text buffer (by omega), nonceField, field]

/-- The start field is the whole of the counter: the bytes before it are cleared. -/
theorem thirdBYTE_eq (long : 95 ≤ (text buffer).length) :
    (decode env (copyFields env buffer).val).val.thirdBYTE = encode 32 (nonceField env (text buffer)) := by
  obtain ⟨-, -, start⟩ := fields_val env buffer long
  have clear : ∀ j < 24, entry (decode env (copyFields env buffer).val).val.thirdBYTE j = 0 := by
    intro j hj
    have written := entry_ctob env (copyFields env buffer).val.third (k := 8) (env.stack 32) (by omega) (by omega) j
    rwa [if_pos (by omega)] at written
  refine eq_encode ?_
  rw [value_eq_suffix _ (by omega) clear, ← start, nonceOf, slice_eq_take_drop _ (by omega),
    List.take_of_length_le (by simp), suffix]

end Fields

/-! ### SOLN -/

theorem verdict_eq_one (env : Env) (d : Decoded) : (verdict env d).val = 1 ↔
    Solves env.sha256 (value (targetOf env d.difficultyBYTE)) (slice d.seedBYTE 0 32) (nonceOf d.thirdBYTE) :=
  isvalid_eq_one env (targetOf env d.difficultyBYTE) d.seedBYTE d.thirdBYTE

theorem solnReply_val (env : Env) (buffer : Arr 256) (long : 95 ≤ (text buffer).length) :
    (solnReply env buffer).val =
      if Solves env.sha256 (targetField env (text buffer)) (seedField env (text buffer))
          (nonceField env (text buffer))
      then ascii "OKAY\r\n"
      else padded "ERRO not a valid solution.\r\n" 80 := by
  obtain ⟨target, seed, nonce⟩ := fields_val env buffer long
  have accepts := verdict_eq_one env (decode env (copyFields env buffer).val).val
  rw [target, seed, nonce] at accepts
  have okay : padded "OKAY\r\n" 6 = ascii "OKAY\r\n" := by decide
  unfold solnReply
  simp only [val_bind, solnFields_val env buffer long, verdictReply, val_ite, accepts]
  rw [freshReply_val buffer (by decide) (by decide), freshReply_val buffer (by decide) (by decide), okay]

/-! ### WORK -/

theorem refuses_val (work_num : Int) (buffer : Arr 256) : (refuses work_num buffer).val = true ↔
    MAX_WORK ≤ work_num ∨ (text buffer).length ≠ 100 := by
  unfold refuses
  simp only [val_ite, val_bind, val_pure, strlen_val]
  split
  · rename_i full
    exact ⟨fun _ => Or.inl full, fun _ => rfl⟩
  · rename_i free
    rw [bne_iff_ne]
    exact ⟨Or.inr, fun either => either.resolve_left free⟩

/-- The message that a solved WORK message turns into: its own text with SOLN in front and
the nonce at offset 79. -/
def solution (text : List BYTE) (nonce : Nat) : List BYTE :=
  ascii "SOLN" ++ field text 4 75 ++ toHex (beBytes 8 nonce)

theorem length_solution {text : List BYTE} (long : 79 ≤ text.length) (nonce : Nat) :
    (solution text nonce).length = 95 := by
  unfold solution field
  simp only [List.length_append, length_toHex, length_beBytes, List.length_take,
    List.length_drop, length_soln]
  omega

theorem literal_solution {text : List BYTE} (plain : Literal text) (nonce : Nat) :
    Literal (solution text nonce) := by
  intro c hc
  rcases List.mem_append.mp hc with hc | hc
  · rcases List.mem_append.mp hc with hc | hc
    · exact literal_soln c hc
    · exact plain c (List.mem_of_mem_drop (List.mem_of_mem_take hc))
  · rintro rfl
    exact absurd (isDigit_of_mem_toHex hc) (by decide)

theorem text_putSolution (env : Env) (buffer : Arr 256) (nonce : Arr 32) (long : 79 ≤ (text buffer).length) :
    text (putSolution env buffer nonce).val = solution (text buffer) (nonceOf nonce) := by
  have len := length_solution long (nonceOf nonce)
  have middle : slice (putSolution env buffer nonce).val 4 75 = field (text buffer) 4 75 := by
    unfold field
    rw [← slice_text buffer (show 4 + 75 ≤ (text buffer).length by omega)]
    refine slice_congr fun i hi => ?_
    rw [entry_putSolution, if_neg (by omega), if_neg (by omega), if_neg (by omega)]
  refine (text_eq_iff (literal_solution (literal_text buffer) _)).mpr ?_
  rw [len]
  constructor
  · rw [show 95 = 4 + 75 + 16 by rfl, slice_add, slice_add, putSolution_head, middle,
      putSolution_digits, solution]
  · rw [entry_putSolution, if_neg (by omega), if_neg (by omega), if_pos (by omega)]

section Work
variable (env : Env) {buffer : Arr 256}

theorem minedReply_val (fuel : Nat) (fields : Fields) (buffer : Arr 256) :
    (minedReply env fuel fields buffer).val =
      (work env fuel buffer (decode env fields).val.difficultyBYTE (decode env fields).val.seedBYTE
        (decode env fields).val.thirdBYTE).val.map fun out => text out.1 := by
  unfold minedReply
  simp only [val_bind]
  generalize (work env fuel buffer _ _ _).val = out
  cases out with
  | none => rfl
  | some out =>
    simp only [val_bind, val_pure, Option.map_some, readRange_val, strlen_val]
    rw [(text_spec out.1).1, length_slice]

theorem admittedReply_val (fuel : Nat) (long : 98 ≤ (text buffer).length) :
    (admittedReply env fuel buffer).val = (minedReply env fuel (copyFields env buffer).val buffer).val := by
  unfold admittedReply
  simp only [val_bind, workFields_val env buffer long]

/-- An admitted message is answered by the search that its text describes. -/
theorem admittedReply_search (fuel : Nat) (long : 98 ≤ (text buffer).length) :
    (admittedReply env fuel buffer).val =
      (search (Good env (encode 32 (targetField env (text buffer))) (seedField env (text buffer))) nextNonce
        fuel (encode 32 (nonceField env (text buffer)))).map fun nonce =>
          solution (text buffer) (nonceOf nonce) := by
  obtain ⟨target, seed, -⟩ := fields_val env buffer (by omega)
  have left := work_val env (decode env (copyFields env buffer).val).val.difficultyBYTE fuel buffer
    (decode env (copyFields env buffer).val).val.seedBYTE (decode env (copyFields env buffer).val).val.thirdBYTE
  rw [eq_encode target, seed, thirdBYTE_eq env buffer (by omega)] at left
  have written : ∀ nonce, text (putSolution env buffer nonce).val = solution (text buffer) (nonceOf nonce) :=
    fun nonce => text_putSolution env buffer nonce (by omega)
  have texts := congrArg (Option.map text) left
  simp only [Option.map_map, Function.comp_def, written] at texts
  rw [admittedReply_val env fuel long, minedReply_val, thirdBYTE_eq env buffer (by omega), texts]

theorem admittedReply_returns_iff (long : 98 ≤ (text buffer).length) :
    (∃ fuel bytes, (admittedReply env fuel buffer).val = some bytes) ↔
      Solvable env.sha256 (targetField env (text buffer)) (seedField env (text buffer)) := by
  obtain ⟨target, seed, -⟩ := fields_val env buffer (by omega)
  rw [← target, ← seed,
    ← work_returns_iff env _ buffer _ (decode env (copyFields env buffer).val).val.thirdBYTE]
  refine exists_congr fun fuel => ?_
  rw [admittedReply_val env fuel long, minedReply_val, ← Option.isSome_iff_exists, ← Option.isSome_iff_exists,
    Option.isSome_map]

/-- The answer to an admitted WORK message is the first solution from its start field on. -/
theorem admittedReply_some {fuel : Nat} {bytes : List BYTE} (long : 98 ≤ (text buffer).length)
    (answered : (admittedReply env fuel buffer).val = some bytes) :
    ∃ nonce < 2 ^ 64, bytes = solution (text buffer) nonce ∧
      Solves env.sha256 (targetField env (text buffer)) (seedField env (text buffer)) nonce ∧
      ∃ k ≤ fuel, nonce = (nonceField env (text buffer) + k) % 2 ^ 64 ∧
        ∀ i < k, ¬ Solves env.sha256 (targetField env (text buffer)) (seedField env (text buffer))
          (nonceField env (text buffer) + i) := by
  obtain ⟨target, seed, start⟩ := fields_val env buffer (by omega)
  rw [admittedReply_val env fuel long, minedReply_val, Option.map_eq_some_iff] at answered
  obtain ⟨out, returned, rfl⟩ := answered
  obtain ⟨nonce, left, solves, first⟩ := work_some env _ returned
  rw [target, seed] at solves
  rw [target, seed, start] at first
  exact ⟨nonceOf nonce, nonceOf_lt nonce, by rw [left, text_putSolution env buffer nonce (by omega)], solves,
    first⟩

end Work

/-! ### The whole turn -/

theorem workReply_val (env : Env) (fuel : Nat) (work_num : Int) (buffer : Arr 256) :
    (workReply env fuel work_num buffer).val =
      if MAX_WORK ≤ work_num ∨ (text buffer).length ≠ 100 then some (ascii "ERRO \r\n")
      else (admittedReply env fuel buffer).val := by
  unfold workReply
  simp only [val_bind, val_ite, refuses_val, val_map, shortError_val]

theorem respond_val (env : Env) (fuel : Nat) (work_num : Int) (firstFour : Arr 5) (buffer : Arr 256) :
    (respond env fuel work_num firstFour buffer).val =
      match classify (entry firstFour 4) (text buffer) with
      | .plain kind => some (plainReply env kind buffer).val
      | .work => (workReply env fuel work_num buffer).val := by
  unfold respond
  simp only [val_bind, dispatch_val]
  cases classify (entry firstFour 4) (text buffer) with
  | plain kind => simp only [val_map]
  | work => rfl

theorem turn_val (env : Env) (fuel : Nat) (work_num : Int) (firstFour : Arr 5) (buffer : Arr 256)
    (m : Message) : (turn env fuel work_num firstFour buffer m).val =
      if m.text = [] then .leaves
      else match (respond env fuel work_num firstFour m.buffer).val with
        | none => .searching
        | some bytes => .answers bytes := by
  have empty : entry m.buffer 0 = 0 ↔ m.text = [] := by
    rw [← text_buffer, text_eq_iff (show Literal [] by decide)]
    exact ⟨fun nul => ⟨rfl, nul⟩, fun both => both.2⟩
  unfold turn
  simp only [val_bind, read_val, val_ite, val_pure, buffer_received, empty]
  split
  · rfl
  · cases (respond env fuel work_num firstFour m.buffer).val <;> rfl

section Turn
variable (env : Env) (fuel : Nat) {work_num : Int} {firstFour : Arr 5} (buffer : Arr 256) {m : Message}

theorem turn_plain {kind : Plain} (branch : classify (entry firstFour 4) m.text = .plain kind) :
    (turn env fuel work_num firstFour buffer m).val =
      if m.text = [] then .leaves else .answers (plainReply env kind m.buffer).val := by
  rw [turn_val, respond_val, text_buffer, branch]

theorem turn_ping (ping : m.text = ascii "PING\r\n") :
    (turn env fuel work_num firstFour buffer m).val = .answers (ascii "PONG\r\n") := by
  rw [turn_plain env fuel buffer (classify_eq_ping.mpr ping), if_neg (by rw [ping]; decide), plainReply,
    pingReply_val]

theorem turn_work (branch : classify (entry firstFour 4) m.text = .work) :
    (turn env fuel work_num firstFour buffer m).val =
      if MAX_WORK ≤ work_num ∨ m.text.length ≠ 100 then .answers (ascii "ERRO \r\n")
      else match (admittedReply env fuel m.buffer).val with
        | none => .searching
        | some bytes => .answers bytes := by
  have begun : m.text ≠ [] := by
    intro empty
    rw [empty] at branch
    exact absurd (classify_eq_work.mp branch).2 (by decide)
  rw [turn_val, if_neg begun, respond_val, text_buffer, branch]
  simp only [workReply_val, text_buffer]
  by_cases refused : MAX_WORK ≤ work_num ∨ m.text.length ≠ 100
  · rw [if_pos refused, if_pos refused]
  · rw [if_neg refused, if_neg refused]

end Turn

end WorkServer

import WorkServer.Handler.Framing

/-!
# Index safety of a turn

Every array access of a turn stays in bounds but for those of `btoc`, which `work` calls
with twice the count of bytes that are left of the nonce. It calls it when the search
ends, so a turn leaves its arrays exactly when it mines a solution.
-/

namespace WorkServer
open Tracing CString HexText

section Bounds
variable (env : Env) {buffer : Arr 256}

theorem safe_dispatch (firstFour : Arr 5) (ends : ∃ i < 256, entry buffer i = 0) :
    Safe (dispatch firstFour buffer) := by
  have word : ∀ lit, lit.length = 4 → Safe (strcmp (strncpy firstFour 0 buffer 4).val lit) :=
    fun lit four => safe_strcmp (by omega)
  have line : ∀ lit, lit.length = 6 → Safe (strcmp buffer lit) := fun lit six => safe_strcmp (by omega)
  have soln : Safe (isSoln (strncpy firstFour 0 buffer 4).val buffer) := by
    unfold isSoln
    simp only [safe_bind]
    refine ⟨word _ (by decide), ?_⟩
    split
    · simp only [safe_bind, safe_pure, and_true]
      exact safe_strlen ends
    · exact safe_pure _
  unfold dispatch
  refine (safe_bind _ _).mpr ⟨safe_strncpy (by omega) (by omega), ?_⟩
  refine (safe_bind _ _).mpr ⟨line _ (by decide), safe_early ?_⟩
  refine (safe_bind _ _).mpr ⟨line _ (by decide), safe_early ?_⟩
  refine (safe_bind _ _).mpr ⟨line _ (by decide), safe_early ?_⟩
  refine (safe_bind _ _).mpr ⟨word _ (by decide), safe_early ?_⟩
  refine (safe_bind _ _).mpr ⟨soln, safe_early ?_⟩
  refine (safe_bind _ _).mpr ⟨word _ (by decide), safe_early ?_⟩
  exact (safe_bind _ _).mpr ⟨word _ (by decide), safe_early (safe_pure _)⟩

/-! ### The replies -/

theorem safe_freshReply {text : String} {count : Nat} (fits : (ascii text).length < 256)
    (small : count ≤ 256) : Safe (freshReply text count buffer) := by
  unfold freshReply
  simp only [safe_bind]
  exact ⟨safe_bzero (by omega), safe_strcpy fits, safe_readRange (by omega)⟩

theorem safe_staleReply {text : String} {count : Nat} (fits : (ascii text).length < 256)
    (small : count ≤ 256) : Safe (staleReply text count buffer) := by
  unfold staleReply
  simp only [safe_bind]
  exact ⟨safe_strcpy fits, safe_readRange (by omega)⟩

theorem safe_shortError : Safe (shortError buffer) := by
  have fits : (ascii "ERRO \r\n").length < 256 := by decide
  have ends :
      entry (strcpy (bzero buffer 0 256).val (ascii "ERRO \r\n")).val (ascii "ERRO \r\n").length = 0 := by
    rw [entry_strcpy _ fits, if_neg (Nat.lt_irrefl _), if_pos rfl]
  unfold shortError
  simp only [safe_bind, strlen_val]
  have inside := length_text_le (strcpy (bzero buffer 0 256).val (ascii "ERRO \r\n")).val
  exact ⟨safe_bzero (by omega), safe_strcpy fits, safe_strlen ⟨_, fits, ends⟩, safe_readRange (by omega)⟩

theorem safe_copyFields : Safe (copyFields env buffer) := by
  unfold copyFields
  simp only [safe_bind, safe_pure, and_true]
  exact ⟨safe_memcpy (by omega) (by omega), safe_memcpy (by omega) (by omega),
    safe_memcpy (by omega) (by omega)⟩

theorem safe_scanNulFrom {n : Nat} (field : Arr n) (k i : Nat) (fits : i + k ≤ n) :
    Safe (scanNulFrom field i k) := by
  induction k generalizing i with
  | zero => exact safe_pure _
  | succ k ih =>
    unfold scanNulFrom
    simp only [safe_bind, safe_read]
    refine ⟨by omega, ?_⟩
    split
    · exact safe_pure _
    · exact ih (i + 1) (by omega)

theorem safe_scanUnless {n len : Nat} (flag : Bool) (field : Arr n) (fits : len ≤ n) :
    Safe (scanUnless flag field len) := by
  unfold scanUnless
  split
  · exact safe_pure _
  · exact safe_scanNulFrom field len 0 (by omega)

theorem safe_solnFields : Safe (solnFields env buffer) := by
  unfold solnFields solnFlag
  simp only [safe_bind]
  refine ⟨safe_copyFields env, ⟨safe_scanNulFrom _ 8 0 (by omega), safe_scanUnless _ _ (by omega),
    safe_scanUnless _ _ (by omega)⟩, ?_⟩
  split <;> exact safe_pure _

theorem safe_workFields : Safe (workFields env buffer) := by
  unfold workFields workFlag
  simp only [safe_bind]
  refine ⟨safe_copyFields env, safe_memcpy (by omega) (by omega), ⟨safe_scanNulFrom _ 2 0 (by omega),
    safe_scanNulFrom _ 8 0 (by omega), safe_scanUnless _ _ (by omega), safe_scanUnless _ _ (by omega)⟩, ?_⟩
  split <;> exact safe_pure _

theorem safe_decode (fields : Fields) : Safe (decode env fields) := by
  have difficulty := @safe_ctob 32 9 env fields.difficulty 4 (env.stack 32) (by omega) (by omega) (by omega)
  have seed := @safe_ctob 40 65 env fields.seed 32 (env.stack 40) (by omega) (by omega) (by omega)
  have third := @safe_ctob 32 17 env fields.third 8 (env.stack 32) (by omega) (by omega) (by omega)
  unfold decode
  simp only [safe_bind, safe_pure, and_true]
  exact ⟨difficulty, seed, third⟩

theorem safe_verdictReply (fields : Fields) : Safe (verdictReply env fields buffer) := by
  unfold verdictReply
  simp only [verdict, safe_bind, safe_pure, and_true]
  refine ⟨safe_decode env fields, ⟨safe_getTarget _ _, safe_isvalid _ _ _ _⟩, ?_⟩
  split <;> exact safe_freshReply (by decide) (by decide)

theorem safe_plainReply (kind : Plain) : Safe (plainReply env kind buffer) := by
  cases kind with
  | ping => exact safe_freshReply (by decide) (by decide)
  | pong => exact safe_freshReply (by decide) (by decide)
  | okay => exact safe_freshReply (by decide) (by decide)
  | erro => exact safe_freshReply (by decide) (by decide)
  | abrt => exact safe_staleReply (by decide) (by decide)
  | unknown => exact safe_staleReply (by decide) (by decide)
  | soln =>
    unfold plainReply solnReply
    simp only [safe_bind]
    refine ⟨safe_solnFields env, ?_⟩
    cases (solnFields env buffer).val with
    | none => exact safe_shortError
    | some fields => exact safe_verdictReply env fields

/-! ### The WORK branch -/

theorem safe_minedReply (fuel : Nat) (fields : Fields) :
    Safe (minedReply env fuel fields buffer) ↔ (minedReply env fuel fields buffer).val = none := by
  rw [minedReply_val, Option.map_eq_none_iff, ← safe_work]
  unfold minedReply
  simp only [safe_bind]
  constructor
  · exact fun safe => safe.2.1
  · intro searching
    have unfinished := (safe_work env fuel buffer _ _ _).mp searching
    refine ⟨safe_decode env fields, searching, ?_⟩
    rw [unfinished]
    exact safe_pure _

theorem safe_admittedReply (fuel : Nat) (long : 98 ≤ (text buffer).length) :
    Safe (admittedReply env fuel buffer) ↔ (admittedReply env fuel buffer).val = none := by
  rw [admittedReply_val env fuel long, ← safe_minedReply]
  unfold admittedReply
  simp only [safe_bind, workFields_val env buffer long]
  exact ⟨fun both => both.2, fun mined => ⟨safe_workFields env, mined⟩⟩

theorem safe_refuses (work_num : Int) (ends : ∃ i < 256, entry buffer i = 0) :
    Safe (refuses work_num buffer) := by
  unfold refuses
  split
  · exact safe_pure _
  · simp only [safe_bind, safe_pure, and_true]
    exact safe_strlen ends

theorem safe_workReply (fuel : Nat) (work_num : Int) (ends : ∃ i < 256, entry buffer i = 0) :
    Safe (workReply env fuel work_num buffer) ↔
      (MAX_WORK ≤ work_num ∨ (text buffer).length ≠ 100) ∨ (admittedReply env fuel buffer).val = none := by
  unfold workReply
  simp only [safe_bind, safe_refuses work_num ends, true_and, refuses_val]
  split
  · rename_i refused
    simp only [safe_map, safe_shortError, refused, true_or]
  · rename_i admitted
    rw [safe_admittedReply env fuel (by omega)]
    simp only [admitted, false_or]

end Bounds

theorem safe_turn (env : Env) (fuel : Nat) (work_num : Int) (firstFour : Arr 5) (buffer : Arr 256)
    (m : Message) : Safe (turn env fuel work_num firstFour buffer m) ↔
      ¬ (classify (entry firstFour 4) m.text = .work ∧ work_num < MAX_WORK ∧ m.text.length = 100 ∧
        (admittedReply env fuel m.buffer).val ≠ none) := by
  have ends := buffer_ends m
  have fits := m.fits
  have answer : Safe (respond env fuel work_num firstFour m.buffer) ↔
      ¬ (classify (entry firstFour 4) m.text = .work ∧ work_num < MAX_WORK ∧ m.text.length = 100 ∧
        (admittedReply env fuel m.buffer).val ≠ none) := by
    unfold respond
    simp only [safe_bind, safe_dispatch firstFour ends, true_and, dispatch_val, text_buffer]
    cases branch : classify (entry firstFour 4) m.text with
    | plain kind => simp [safe_plainReply]
    | work =>
      simp only [safe_workReply env fuel work_num ends, text_buffer, true_and]
      constructor
      · intro outcome mined
        obtain ⟨free, len, found⟩ := mined
        obtain refused | searching := outcome
        · omega
        · exact found searching
      · intro bounded
        by_cases refused : MAX_WORK ≤ work_num ∨ m.text.length ≠ 100
        · exact Or.inl refused
        · by_contra more
          rw [not_or] at more
          exact bounded ⟨by omega, by omega, more.2⟩
  unfold turn
  simp only [safe_bind, buffer_received, safe_read, read_val]
  rw [← answer]
  constructor
  · intro safe
    obtain ⟨-, -, -, rest⟩ := safe
    split at rest
    · rename_i nul
      -- An empty message is not dispatched, but would be safe to.
      rw [answer]
      intro mined
      obtain ⟨work, -, len, -⟩ := mined
      have begun := entry_ne_zero m.buffer (i := 0) (by rw [text_buffer]; omega)
      exact begun nul
    · simp only [safe_bind] at rest
      exact rest.2.1
  · intro safe
    refine ⟨safe_bzero (by omega), safe_store (by omega), by omega, ?_⟩
    split
    · exact safe_pure _
    · simp only [safe_bind]
      refine ⟨safe_strlen ends, safe, ?_⟩
      split <;> exact safe_pure _

/-- Whatever the search does, a turn stays in bounds unless it is on an admitted WORK
message whose puzzle has a solution. -/
theorem index_safe_iff (env : Env) (work_num : Int) (firstFour : Arr 5) (buffer : Arr 256) (m : Message) :
    (∀ fuel, Safe (turn env fuel work_num firstFour buffer m)) ↔
      ¬ ((entry firstFour 4 = 0 ∧ ascii "WORK" <+: m.text) ∧ work_num < MAX_WORK ∧ m.text.length = 100 ∧
        Solvable env.sha256 (targetField env m.text) (seedField env m.text)) := by
  have ends : m.text.length = 100 → ((∃ fuel, (admittedReply env fuel m.buffer).val ≠ none) ↔
      Solvable env.sha256 (targetField env m.text) (seedField env m.text)) := by
    intro len
    rw [← text_buffer, ← admittedReply_returns_iff env (by rw [text_buffer]; omega)]
    exact exists_congr fun fuel => Option.ne_none_iff_exists'
  simp only [safe_turn, ← classify_eq_work]
  constructor
  · intro safe mined
    obtain ⟨work, free, len, solvable⟩ := mined
    obtain ⟨fuel, found⟩ := (ends len).mpr solvable
    exact safe fuel ⟨work, free, len, found⟩
  · intro bounded fuel mined
    obtain ⟨work, free, len, found⟩ := mined
    exact bounded ⟨work, free, len, (ends len).mp ⟨fuel, found⟩⟩

theorem btoc_overruns : ¬ ∀ (env : Env) (fuel : Nat) (work_num : Int) (firstFour : Arr 5) (buffer : Arr 256)
    (m : Message), Safe (turn env fuel work_num firstFour buffer m) := by
  intro claimed
  have len := length_sampleWork
  obtain ⟨fuel, bytes, mined⟩ := (admittedReply_returns_iff sampleEnv (by omega)).mpr solvable_sampleWork
  rw [text_buffer] at len
  refine (safe_turn sampleEnv fuel 0 (Vector.replicate 5 0) (Vector.replicate 256 0) sampleWork).mp
    (claimed _ _ _ _ _ _) ⟨classify_eq_work.mpr ⟨by decide, by decide⟩, by decide, len, ?_⟩
  rw [mined]
  exact Option.some_ne_none _

end WorkServer

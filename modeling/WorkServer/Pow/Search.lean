import WorkServer.Lib.Search
import WorkServer.Pow.Target
import WorkServer.Pow.Verdict

/-!
# The nonce search

`work` tries the nonces from its start field upwards. The counter is 256 bits wide and
only its low 64 bits are hashed and printed, so the search goes round a ring of 2^64
nonces: it ends exactly when some nonce solves the puzzle, at the first such nonce.
-/

namespace WorkServer
open Tracing BigEndian HexText OrbitSearch

theorem nonceOf_eq_mod (v : Arr 32) : nonceOf v = value v % 2 ^ 64 := by
  unfold nonceOf
  rw [slice_eq_take_drop v (by omega), List.take_of_length_le (by simp)]
  exact suffix_eq_mod v 24

theorem nonceOf_lt (v : Arr 32) : nonceOf v < 2 ^ 64 := by
  rw [nonceOf_eq_mod]
  exact Nat.mod_lt _ (by norm_num)

/-! ### The counter -/

def oneBYTE : Arr 32 := (write (Vector.replicate 32 0) 31 1).val

def nextNonce (nonce : Arr 32) : Arr 32 := (uint256Add nonce nonce oneBYTE).val

theorem value_nextNonce (nonce : Arr 32) (k : Nat) :
    value (nextNonce^[k] nonce) = (value nonce + k) % 2 ^ 256 := by
  induction k with
  | zero => exact (Nat.mod_eq_of_lt (value_lt nonce)).symm
  | succ k ih =>
    rw [Function.iterate_succ_apply', nextNonce, uint256Add_value, ih, oneBYTE, value_lowest,
      Nat.mod_add_mod]
    rfl

/-- A carry out of the hashed bytes is lost in the bytes above them. -/
theorem nonceOf_nextNonce (nonce : Arr 32) (k : Nat) :
    nonceOf (nextNonce^[k] nonce) = (nonceOf nonce + k) % 2 ^ 64 := by
  rw [nonceOf_eq_mod, value_nextNonce, nonceOf_eq_mod,
    Nat.mod_mod_of_dvd _ (Nat.pow_dvd_pow 2 (by norm_num)), Nat.mod_add_mod]

/-! ### The loop -/

section Loop
variable (env : Env) (target : Arr 32) (seed : List BYTE)

def Good (nonce : Arr 32) : Prop := Solves env.sha256 (value target) seed (nonceOf nonce)

instance : DecidablePred (Good env target seed) := fun _ => inferInstanceAs (Decidable (Solves _ _ _ _))

variable {env target seed}

theorem good_iterate (nonce : Arr 32) (k : Nat) : Good env target seed (nextNonce^[k] nonce) ↔
    Solves env.sha256 (value target) seed (nonceOf nonce + k) := by
  unfold Good
  rw [nonceOf_nextNonce, solves_mod]

/-- The loop is the orbit search: no call of `isvalid` disturbs the seed of the next. -/
theorem searchLoop_val (fuel : Nat) {valid : Int} {nonce : Arr 32} {seedBYTE : Arr 40}
    (fresh : valid = 1 ↔ Good env target seed nonce) (kept : slice seedBYTE 0 32 = seed) :
    (searchLoop env target oneBYTE fuel valid nonce seedBYTE).val.map Prod.fst =
      search (Good env target seed) nextNonce fuel nonce := by
  induction fuel generalizing valid nonce seedBYTE with
  | zero =>
    unfold searchLoop search
    simp only [val_ite, val_pure, ← fresh]
    split <;> rfl
  | succ fuel ih =>
    by_cases hit : valid = 1
    · unfold searchLoop
      rw [if_pos hit, search, if_pos (fresh.mp hit)]
      rfl
    · unfold searchLoop
      rw [if_neg hit, search, if_neg (fun good => hit (fresh.mpr good))]
      have verdict := isvalid_eq_one env target seedBYTE (nextNonce nonce)
      have same := isvalid_keeps_seed env target seedBYTE (nextNonce nonce)
      rw [kept] at verdict same
      exact ih verdict same

end Loop

/-! ### What is left in the buffer -/

theorem length_soln : (ascii "SOLN").length = 4 := by decide

theorem entry_putSolution (env : Env) (buffer : Arr 256) (nonce : Arr 32) (j : Nat) :
    entry (putSolution env buffer nonce).val j =
      if j < 4 then (ascii "SOLN").getD j 0
      else if 79 ≤ j ∧ j < 95 then hexChar nonce 24 (j - 79)
      else if 95 ≤ j ∧ j < 99 then 0
      else entry buffer j := by
  have solution : ∀ i < 17, entry (btoc env nonce 24 16 (env.stack 17)).val i = hexChar nonce 24 i := by
    intro i hi
    rw [entry_btoc _ _ _ _ _ hi, if_pos (by omega)]
  have digits : ∀ i < 16, entry (btoc env nonce 24 16 (env.stack 17)).val i ≠ 0 := by
    intro i hi zero
    have range := (entry nonce (24 + i / 2)).toNat_lt
    rw [solution i (by omega), hexChar] at zero
    have isDigit : IsDigit 0 := by
      rw [← zero]
      split <;> exact isDigit_digit (by omega)
    exact absurd isDigit (by decide)
  have soln : (ascii "SOLN").take 4 ++ List.replicate (4 - (ascii "SOLN").length) 0 =
      ascii "SOLN" := by decide
  unfold putSolution
  simp only [val_bind]
  rw [entry_strncpy _ _ (by omega) digits, entry_bzero _ (by omega), strncpyLit, soln,
    entry_store _ (by rw [length_soln]; omega), entry_bzero _ (by omega), length_soln]
  by_cases head : j < 4
  · rw [if_neg (by omega), if_neg (by omega), if_pos (by omega), if_pos head, Nat.sub_zero]
  · rw [if_neg head]
    by_cases text : 79 ≤ j ∧ j < 95
    · rw [if_pos (by omega), if_pos text, solution _ (by omega)]
    · rw [if_neg (by omega), if_neg text]
      by_cases gap : 95 ≤ j ∧ j < 99
      · rw [if_pos (by omega), if_pos gap]
      · rw [if_neg (by omega), if_neg (by omega), if_neg (by omega), if_neg gap]

theorem putSolution_head (env : Env) (buffer : Arr 256) (nonce : Arr 32) :
    slice (putSolution env buffer nonce).val 0 4 = ascii "SOLN" := by
  refine slice_eq_of_entry (ascii "SOLN") 0 fun i hi => ?_
  have : i < 4 := hi
  rw [entry_putSolution, if_pos (by omega), Nat.zero_add]

theorem putSolution_digits (env : Env) (buffer : Arr 256) (nonce : Arr 32) :
    slice (putSolution env buffer nonce).val 79 16 = toHex (beBytes 8 (nonceOf nonce)) := by
  rw [beBytes_nonceOf, ← map_hexChar]
  refine List.map_congr_left fun i hi => ?_
  have := List.mem_range.mp hi
  rw [entry_putSolution, if_neg (by omega), if_pos (by omega), Nat.add_sub_cancel_left]

/-! ### The whole of `work` -/

section Work
variable (env : Env) (difficultyBYTE : Arr 32)

def targetOf : Arr 32 := (getTarget (env.stack 32) difficultyBYTE).val

theorem copyNonce_val (nonce startBYTE : Arr 32) :
    (forUp 32 nonce fun i nonce => do write nonce i (← read startBYTE i)).val = startBYTE := by
  apply entry_ext
  intro j hj
  rw [entry_forUp_write 0 (by omega) (entry startBYTE)
    (fun i _ w => by simp only [val_bind, read_val, Nat.zero_add]), if_pos (by omega), Nat.sub_zero]

theorem work_shape (fuel : Nat) (buffer : Arr 256) (seedBYTE : Arr 40) (startBYTE : Arr 32) :
    (work env fuel buffer difficultyBYTE seedBYTE startBYTE).val.map Prod.fst =
      ((searchLoop env (targetOf env difficultyBYTE) oneBYTE fuel
        (isvalid env (targetOf env difficultyBYTE) seedBYTE startBYTE).val.1 startBYTE
        (isvalid env (targetOf env difficultyBYTE) seedBYTE startBYTE).val.2).val.map Prod.fst).map
          fun nonce => (putSolution env buffer nonce).val := by
  unfold work
  simp only [val_bind, uint256Init_val, copyNonce_val, targetOf, oneBYTE]
  generalize (searchLoop env _ _ fuel _ startBYTE _).val = found
  cases found
  · rfl
  · simp only [val_bind, val_pure, Option.map_some]

theorem work_val (fuel : Nat) (buffer : Arr 256) (seedBYTE : Arr 40) (startBYTE : Arr 32) :
    (work env fuel buffer difficultyBYTE seedBYTE startBYTE).val.map Prod.fst =
      (search (Good env (targetOf env difficultyBYTE) (slice seedBYTE 0 32)) nextNonce fuel startBYTE).map
        fun nonce => (putSolution env buffer nonce).val := by
  have verdict := isvalid_eq_one env (targetOf env difficultyBYTE) seedBYTE startBYTE
  have same := isvalid_keeps_seed env (targetOf env difficultyBYTE) seedBYTE startBYTE
  rw [← searchLoop_val fuel verdict same, work_shape]

/-- `work` returns for some number of iterations exactly when the puzzle can be solved. -/
theorem work_returns_iff (buffer : Arr 256) (seedBYTE : Arr 40) (startBYTE : Arr 32) :
    (∃ fuel out, (work env fuel buffer difficultyBYTE seedBYTE startBYTE).val = some out) ↔
      Solvable env.sha256 (value (targetOf env difficultyBYTE)) (slice seedBYTE 0 32) := by
  have ends : (∃ fuel out, (work env fuel buffer difficultyBYTE seedBYTE startBYTE).val = some out) ↔
      ∃ fuel nonce, search (Good env (targetOf env difficultyBYTE) (slice seedBYTE 0 32)) nextNonce fuel
        startBYTE = some nonce := by
    refine exists_congr fun fuel => ?_
    have image := congrArg Option.isSome (work_val env difficultyBYTE fuel buffer seedBYTE startBYTE)
    rw [Option.isSome_map, Option.isSome_map] at image
    rw [← Option.isSome_iff_exists, ← Option.isSome_iff_exists, image]
  rw [ends, search_terminates]
  constructor
  · intro meets
    obtain ⟨k, hit⟩ := meets
    rw [good_iterate, ← solves_mod] at hit
    exact ⟨_, Nat.mod_lt _ (by norm_num), hit⟩
  · intro solvable
    obtain ⟨nonce, bound, hit⟩ := solvable
    -- Count upwards from the start field, around the ring, to the solution.
    have start := nonceOf_lt startBYTE
    refine ⟨2 ^ 64 - nonceOf startBYTE + nonce, ?_⟩
    rw [good_iterate, ← solves_mod, ← Nat.add_assoc, Nat.add_sub_cancel' start.le, Nat.add_mod_left,
      solves_mod]
    exact hit

/-- What `work` leaves: the first solution from `startBYTE` on, in the buffer. -/
theorem work_some {fuel : Nat} {buffer : Arr 256} {seedBYTE : Arr 40} {startBYTE : Arr 32}
    {out : Arr 256 × Arr 40}
    (returned : (work env fuel buffer difficultyBYTE seedBYTE startBYTE).val = some out) :
    ∃ nonce, out.1 = (putSolution env buffer nonce).val ∧
      Solves env.sha256 (value (targetOf env difficultyBYTE)) (slice seedBYTE 0 32) (nonceOf nonce) ∧
      ∃ k ≤ fuel, nonceOf nonce = (nonceOf startBYTE + k) % 2 ^ 64 ∧
        ∀ i < k, ¬ Solves env.sha256 (value (targetOf env difficultyBYTE)) (slice seedBYTE 0 32)
          (nonceOf startBYTE + i) := by
  have found := work_val env difficultyBYTE fuel buffer seedBYTE startBYTE
  rw [returned, Option.map_some, eq_comm, Option.map_eq_some_iff] at found
  obtain ⟨nonce, found, left⟩ := found
  obtain ⟨k, bound, rfl, hit, first⟩ := search_eq_some.mp found
  refine ⟨_, left.symm, hit, k, bound, nonceOf_nextNonce startBYTE k, ?_⟩
  intro i hi
  rw [← good_iterate]
  exact first i hi

theorem searchLoop_keeps_seed (target one : Arr 32) (fuel : Nat) {valid : Int} {nonce : Arr 32} {seedBYTE : Arr 40}
    {out : Arr 32 × Arr 40} (found : (searchLoop env target one fuel valid nonce seedBYTE).val = some out) :
    slice out.2 0 32 = slice seedBYTE 0 32 := by
  induction fuel generalizing valid nonce seedBYTE with
  | zero =>
    unfold searchLoop at found
    split at found
    · cases found
      rfl
    · cases found
  | succ fuel ih =>
    unfold searchLoop at found
    split at found
    · cases found
      rfl
    · simp only [val_bind] at found
      rw [ih found, isvalid_keeps_seed]

theorem work_keeps_seed {fuel : Nat} {buffer : Arr 256} {seedBYTE : Arr 40} {startBYTE : Arr 32}
    {out : Arr 256 × Arr 40}
    (returned : (work env fuel buffer difficultyBYTE seedBYTE startBYTE).val = some out) :
    slice out.2 0 32 = slice seedBYTE 0 32 := by
  unfold work at returned
  simp only [val_bind, uint256Init_val, copyNonce_val] at returned
  split at returned
  · cases returned
  · rename_i nonce seed found
    rw [val_bind, val_pure, Option.some.injEq] at returned
    rw [← returned, ← isvalid_keeps_seed env (targetOf env difficultyBYTE) seedBYTE startBYTE]
    exact searchLoop_keeps_seed env _ _ fuel found

/-- The verdict on a nonce number, by its place on the ring. -/
theorem isvalid_encode (target : Arr 32) (seedBYTE : Arr 40) (nonce : Nat) :
    (isvalid env target seedBYTE (encode 32 (nonce % 2 ^ 64))).val.1 = 1 ↔
      Solves env.sha256 (value target) (slice seedBYTE 0 32) nonce := by
  have number : nonceOf (encode 32 (nonce % 2 ^ 64)) = nonce % 2 ^ 64 := by
    rw [nonceOf_eq_mod, value_encode, Nat.mod_mod_of_dvd _ (by norm_num), Nat.mod_mod]
  rw [isvalid_eq_one, number, solves_mod]

/-- A nonce is some steps up the ring from every start, less than once around. -/
theorem exists_ring_step {s nonce : Nat} (start : s < 2 ^ 64) (bound : nonce < 2 ^ 64) :
    ∃ k < 2 ^ 64, (s + k) % 2 ^ 64 = nonce :=
  ⟨(nonce + (2 ^ 64 - s)) % 2 ^ 64, Nat.mod_lt _ (by norm_num), by omega⟩

/-- The search is complete and in order: it tries the 64-bit nonces from the start field on,
once around the ring, and the first that `isvalid` accepts is the one in the buffer. -/
theorem work_ring (buffer : Arr 256) (seedBYTE : Arr 40) (startBYTE : Arr 32) :
    let valid := fun nonce : Nat =>
      (isvalid env (targetOf env difficultyBYTE) seedBYTE (encode 32 nonce)).val.1 = 1
    ((∃ fuel out, (work env fuel buffer difficultyBYTE seedBYTE startBYTE).val = some out) ↔
      ∃ k < 2 ^ 64, valid ((beVal (slice startBYTE 24 8) + k) % 2 ^ 64)) ∧
    ∀ fuel out, (work env fuel buffer difficultyBYTE seedBYTE startBYTE).val = some out →
      ∃ k < 2 ^ 64, valid ((beVal (slice startBYTE 24 8) + k) % 2 ^ 64) ∧
        (∀ i < k, ¬ valid ((beVal (slice startBYTE 24 8) + i) % 2 ^ 64)) ∧
        slice out.1 79 16 = toHex (beBytes 8 ((beVal (slice startBYTE 24 8) + k) % 2 ^ 64)) ∧
        slice out.1 0 4 = ascii "SOLN" ∧
        (∀ j, 95 ≤ j → j < 99 → entry out.1 j = 0) ∧
        ∀ j, 4 ≤ j ∧ j < 79 ∨ 99 ≤ j → entry out.1 j = entry buffer j := by
  intro valid
  have accepts : ∀ nonce, valid (nonce % 2 ^ 64) ↔
      Solves env.sha256 (value (targetOf env difficultyBYTE)) (slice seedBYTE 0 32) nonce :=
    isvalid_encode env (targetOf env difficultyBYTE) seedBYTE
  have field : beVal (slice startBYTE 24 8) = nonceOf startBYTE := rfl
  rw [field]
  constructor
  · rw [work_returns_iff]
    constructor
    · intro solvable
      obtain ⟨nonce, bound, solves⟩ := solvable
      obtain ⟨k, around, rfl⟩ := exists_ring_step (nonceOf_lt startBYTE) bound
      rw [solves_mod] at solves
      exact ⟨k, around, (accepts _).mpr solves⟩
    · intro reached
      obtain ⟨k, -, hit⟩ := reached
      exact ⟨_, Nat.mod_lt _ (by norm_num), (solves_mod _ _ _ _).mpr ((accepts _).mp hit)⟩
  · intro fuel out returned
    obtain ⟨nonce, left, solves, k, -, place, first⟩ := work_some env difficultyBYTE returned
    rw [place, solves_mod] at solves
    -- One round earlier the search would have met the same nonce.
    have around : k < 2 ^ 64 := by
      by_contra far
      refine first (k - 2 ^ 64) (by omega) ?_
      rw [← solves_mod, show nonceOf startBYTE + (k - 2 ^ 64) = nonceOf startBYTE + k - 2 ^ 64 by omega,
        ← Nat.mod_eq_sub_mod (by omega), solves_mod]
      exact solves
    refine ⟨k, around, (accepts _).mpr solves, fun i hi hit => first i hi ((accepts _).mp hit), ?_, ?_, ?_, ?_⟩
    · rw [left, putSolution_digits, place]
    · rw [left, putSolution_head]
    · intro j low high
      rw [left, entry_putSolution, if_neg (by omega), if_neg (by omega), if_pos ⟨low, high⟩]
    · intro j outside
      rw [left, entry_putSolution, if_neg (by omega), if_neg (by omega), if_neg (by omega)]

end Work

/-! ### Bounds -/

theorem safe_searchLoop (env : Env) (target one : Arr 32) (fuel : Nat) (valid : Int) (nonce : Arr 32)
    (seedBYTE : Arr 40) : Safe (searchLoop env target one fuel valid nonce seedBYTE) := by
  induction fuel generalizing valid nonce seedBYTE with
  | zero =>
    unfold searchLoop
    split <;> exact safe_pure _
  | succ fuel ih =>
    unfold searchLoop
    split
    · exact safe_pure _
    · rw [safe_bind, safe_bind]
      exact ⟨safe_uint256Add _ _ _, safe_isvalid _ _ _ _, ih _ _ _⟩

/-- `btoc` is given a count of 16 bytes for the 8 that are left of the nonce. -/
theorem not_safe_btoc (env : Env) (nonce : Arr 32) (string : Arr 17) :
    ¬ Safe (btoc env nonce 24 16 string) := by
  refine not_safe_forUp (show 8 < 16 by omega) ?_
  intro string safe
  rw [safe_bind, safe_read] at safe
  omega

theorem not_safe_putSolution (env : Env) (buffer : Arr 256) (nonce : Arr 32) :
    ¬ Safe (putSolution env buffer nonce) := by
  intro safe
  simp only [putSolution, safe_bind] at safe
  exact not_safe_btoc env nonce _ safe.2.2.1

theorem safe_work (env : Env) (fuel : Nat) (buffer : Arr 256) (difficultyBYTE : Arr 32) (seedBYTE : Arr 40)
    (startBYTE : Arr 32) : Safe (work env fuel buffer difficultyBYTE seedBYTE startBYTE) ↔
      (work env fuel buffer difficultyBYTE seedBYTE startBYTE).val = none := by
  unfold work
  simp only [safe_bind, val_bind]
  generalize found : (searchLoop env _ _ fuel _ _ _).val = out
  have before : Safe (forUp 32 (uint256Init uninit).val fun i nonce => do
      write nonce i (← read startBYTE i)) := safe_forUp fun i hi s => by simp; omega
  cases out with
  | none =>
    simp only [safe_pure, val_pure, and_true, iff_true]
    exact ⟨safe_uint256Init (by omega), safe_uint256Init (by omega), safe_getTarget _ _, before,
      (safe_write _ _ _).mpr (by omega), safe_isvalid _ _ _ _, safe_searchLoop _ _ _ _ _ _ _⟩
  | some out =>
    simp only [safe_bind, val_bind, val_pure, reduceCtorEq, iff_false]
    intro safe
    obtain ⟨-, -, -, -, -, -, -, put, -⟩ := safe
    exact not_safe_putSolution _ _ _ put

end WorkServer

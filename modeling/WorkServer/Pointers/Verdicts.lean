import WorkServer.Pointers
import WorkServer.Pow.Verdict

/-!
# Verdicts on one seed buffer

`isvalid` writes its nonce into the last 8 bytes of the seed buffer and nothing else, and
overwrites these 8 bytes before it reads them: no call can tell what calls came before.
-/

namespace WorkServer
open Tracing BigEndian FlatMemory

/-! ### One call in memory -/

/-- The target and the solution lie outside the seed buffer. -/
structure Separate (target seedBYTE solutionBYTE : Nat) : Prop where
  target : target + 32 ≤ seedBYTE ∨ seedBYTE + 40 ≤ target
  solution : solutionBYTE + 32 ≤ seedBYTE ∨ seedBYTE + 40 ≤ solutionBYTE

section Call
variable {target seedBYTE solutionBYTE : Nat}

theorem isvalidAt_bytes (env : Env) (apart : Separate target seedBYTE solutionBYTE) (m : Mem) (q : Nat) :
    (isvalidAt env target seedBYTE solutionBYTE m).2 q =
      if seedBYTE + 32 ≤ q ∧ q < seedBYTE + 32 + 8 then m (solutionBYTE + (q - (seedBYTE + 32) + 24)) else m q := by
  unfold isvalidAt
  refine up_poke (fun i => m (solutionBYTE + (i + 24))) (fun i hi m' same => ?_) q
  have away := apart.solution
  rw [same (solutionBYTE + (i + 24)) (by omega), Nat.add_right_comm, ← Nat.add_assoc]

theorem isvalidAt_keeps (env : Env) (apart : Separate target seedBYTE solutionBYTE) (m : Mem) {p k : Nat}
    (outside : p + k ≤ seedBYTE + 32 ∨ seedBYTE + 40 ≤ p) :
    load (isvalidAt env target seedBYTE solutionBYTE m).2 p k = load m p k := by
  apply load_congr
  intro i hi
  rw [isvalidAt_bytes env apart, if_neg (by omega)]

theorem isvalid_digests (env : Env) (target : Arr 32) (seedBYTE : Arr 40) (solutionBYTE : Arr 32) :
    (isvalid env target seedBYTE solutionBYTE).val.1 = (sha256Compare target
      (env.sha256 (env.sha256 (isvalid env target seedBYTE solutionBYTE).val.2.toList).toList)).val := by
  simp only [isvalid, val_bind, val_pure, readRange_val, slice_toList]

theorem isvalidAt_eq (env : Env) (apart : Separate target seedBYTE solutionBYTE) (m : Mem) :
    (isvalidAt env target seedBYTE solutionBYTE m).1 =
      (isvalid env (load m target 32) (load m seedBYTE 40) (load m solutionBYTE 32)).val.1 := by
  have away := apart.target
  have seed : load (isvalidAt env target seedBYTE solutionBYTE m).2 seedBYTE 40 =
      (isvalid env (load m target 32) (load m seedBYTE 40) (load m solutionBYTE 32)).val.2 := by
    apply entry_ext
    intro j hj
    rw [entry_load _ _ hj, isvalidAt_bytes env apart, isvalid_seed]
    by_cases nonce : 32 ≤ j
    · rw [if_pos (by omega), if_pos ⟨nonce, hj⟩, entry_load _ _ (by omega)]
      congr 1
      omega
    · rw [if_neg (by omega), if_neg (by omega), entry_load _ _ hj]
  rw [isvalid_digests, ← seed, ← isvalidAt_keeps env apart m (p := target) (k := 32) (by omega)]
  rfl

end Call

/-! ### Sequences of calls -/

/-- The verdicts of a sequence of calls, each with its target and solution, on one seed array. -/
def isvalidSeq (env : Env) : List (Arr 32 × Arr 32) → Arr 40 → Traced (List Int × Arr 40)
  | [], seedBYTE => pure ([], seedBYTE)
  | (target, solutionBYTE) :: calls, seedBYTE => do
    let (verdict, seedBYTE) ← isvalid env target seedBYTE solutionBYTE
    let (verdicts, seedBYTE) ← isvalidSeq env calls seedBYTE
    return (verdict :: verdicts, seedBYTE)

theorem isvalid_congr (env : Env) (target : Arr 32) {seedBYTE seedBYTE' : Arr 40} {solutionBYTE solutionBYTE' : Arr 32}
    (seed : slice seedBYTE 0 32 = slice seedBYTE' 0 32) (nonce : slice solutionBYTE 24 8 = slice solutionBYTE' 24 8) :
    (isvalid env target seedBYTE solutionBYTE).val.1 = (isvalid env target seedBYTE' solutionBYTE').val.1 := by
  rw [isvalid_val, isvalid_val, seed, nonceOf, nonce, nonceOf]

theorem isvalidSeq_map (env : Env) (calls : List (Arr 32 × Arr 32)) (seedBYTE : Arr 40) :
    (isvalidSeq env calls seedBYTE).val.1 =
      calls.map fun call => (isvalid env call.1 seedBYTE call.2).val.1 := by
  induction calls generalizing seedBYTE with
  | nil => rfl
  | cons call calls ih =>
    obtain ⟨target, solutionBYTE⟩ := call
    have unaffected : (calls.map fun call =>
          (isvalid env call.1 (isvalid env target seedBYTE solutionBYTE).val.2 call.2).val.1) =
        calls.map fun call => (isvalid env call.1 seedBYTE call.2).val.1 := by
      apply List.map_congr_left
      intro call _
      exact isvalid_congr env call.1 (isvalid_keeps_seed env target seedBYTE solutionBYTE) rfl
    unfold isvalidSeq
    simp only [val_bind, val_pure, List.map_cons, ih, unaffected]

theorem isvalidSeq_perm (env : Env) {calls calls' : List (Arr 32 × Arr 32)} (order : calls.Perm calls')
    (seedBYTE : Arr 40) :
    (calls.zip (isvalidSeq env calls seedBYTE).val.1).Perm (calls'.zip (isvalidSeq env calls' seedBYTE).val.1) := by
  rw [isvalidSeq_map, isvalidSeq_map, List.zip_map_right, List.zip_map_right, List.zip_eq_zipWith,
    List.zip_eq_zipWith, List.zipWith_self, List.zipWith_self, List.map_map, List.map_map]
  exact order.map _

theorem score_nonceOf (digest : List BYTE → Arr 32) (seed : List BYTE) (solutionBYTE : Arr 32) :
    score digest seed (nonceOf solutionBYTE) = value (doubleDigest digest (seed ++ slice solutionBYTE 24 8)) := by
  rw [score, beBytes_nonceOf]

/-- `isvalid` compares two numbers, changes nothing that a verdict depends on, and so gives
each of a sequence of calls the verdict that it would have alone, in whatever order. -/
theorem isvalid_compares (env : Env) :
    (∀ target seedBYTE solutionBYTE,
      let verdict := (isvalid env target seedBYTE solutionBYTE).val.1
      let digest := doubleDigest env.sha256 (slice seedBYTE 0 32 ++ slice solutionBYTE 24 8)
      (verdict = 1 ↔ value digest < value target) ∧ (verdict = 0 ↔ value target = value digest) ∧
        (verdict = -1 ↔ value target < value digest)) ∧
    (∀ target seedBYTE seedBYTE' solutionBYTE solutionBYTE',
      slice seedBYTE 0 32 = slice seedBYTE' 0 32 → slice solutionBYTE 24 8 = slice solutionBYTE' 24 8 →
      (isvalid env target seedBYTE solutionBYTE).val.1 = (isvalid env target seedBYTE' solutionBYTE').val.1) ∧
    (∀ target seedBYTE solutionBYTE m, Separate target seedBYTE solutionBYTE →
      let m' := (isvalidAt env target seedBYTE solutionBYTE m).2
      (isvalidAt env target seedBYTE solutionBYTE m).1 =
          (isvalid env (load m target 32) (load m seedBYTE 40) (load m solutionBYTE 32)).val.1 ∧
        load m' target 32 = load m target 32 ∧ load m' solutionBYTE 32 = load m solutionBYTE 32 ∧
        load m' seedBYTE 32 = load m seedBYTE 32) ∧
    (∀ calls seedBYTE, (isvalidSeq env calls seedBYTE).val.1 =
      calls.map fun call => (isvalid env call.1 seedBYTE call.2).val.1) ∧
    ∀ (calls calls' : List (Arr 32 × Arr 32)) seedBYTE, calls.Perm calls' →
      (calls.zip (isvalidSeq env calls seedBYTE).val.1).Perm
        (calls'.zip (isvalidSeq env calls' seedBYTE).val.1) := by
  refine ⟨?_, ?_, ?_, isvalidSeq_map env, ?_⟩
  · intro target seedBYTE solutionBYTE
    dsimp only
    rw [isvalid_val, score_nonceOf]
    exact ⟨order_eq_one _ _, order_eq_zero _ _, order_eq_neg_one _ _⟩
  · intro target seedBYTE seedBYTE' solutionBYTE solutionBYTE' seed nonce
    exact isvalid_congr env target seed nonce
  · intro target seedBYTE solutionBYTE m apart
    have awayTarget := apart.target
    have awaySolution := apart.solution
    exact ⟨isvalidAt_eq env apart m, isvalidAt_keeps env apart m (by omega),
      isvalidAt_keeps env apart m (by omega), isvalidAt_keeps env apart m (by omega)⟩
  · intro calls calls' seedBYTE order
    exact isvalidSeq_perm env order seedBYTE

end WorkServer

import WorkServer.Pow.Codec
import WorkServer.Pow.Verdict
import WorkServer.Sha256.Stream

/-!
# Verdicts with the server's own hash

`isvalid` as the source has it, with the two contexts it hashes through. It gives what
`isvalid` gives with the standard's digest in the place of its parameter, so the verdict
is 1 exactly on the nonces that solve the puzzle of the standard's double digest.
-/

namespace WorkServer.Sha256
open BigEndian Tracing

variable {n : Nat}

/-- The calls on one context, declared as `ctx`, that hash the first `len` bytes of an array. -/
def hashArray (fuel : Nat) (ctx : Ctx) (data : Arr n) (len : Nat) (hash : Arr 32) : Traced (Option (Arr 32)) := do
  match ← update fuel (init ctx) data len with
  | none => return none
  | some ctx => return some (← final ctx hash).2

/-- `isvalid` with its contexts. The loops of `sha256_update` are given up after `fuel` iterations. -/
def isvalidCtx (env : Env) (fuel : Nat) (ctx1 ctx2 : Ctx) (target : Arr 32) (seedBYTE : Arr 40)
    (solutionBYTE : Arr 32) : Traced (Option (Int × Arr 40)) := do
  let seedBYTE ← forUp 8 seedBYTE fun i seedBYTE => do
    write seedBYTE (i + 32) (← read solutionBYTE (i + 24))
  match ← hashArray fuel ctx1 seedBYTE 40 (env.stack 32) with
  | none => return none
  | some buf =>
    match ← hashArray fuel ctx2 buf 32 (env.stack 32) with
    | none => return none
    | some buf2 => return some (← sha256Compare target buf2, seedBYTE)

theorem hashArray_val {fuel len : Nat} (ctx : Ctx) (data : Arr n) (hash : Arr 32) (counts : len < 2 ^ 32)
    (fits : len ≤ n) (enough : len ≤ fuel) : Safe (hashArray fuel ctx data len hash) ∧
      (hashArray fuel ctx data len hash).val = some (Standard.digest (slice data 0 len)) := by
  obtain ⟨safe, ctx', returned, holds⟩ := update_val data counts fits enough (holds_init ctx)
  unfold hashArray
  rw [safe_bind, val_bind, returned]
  refine ⟨⟨safe, ?_⟩, ?_⟩
  · rw [safe_bind]
    exact ⟨safe_final holds.room hash, safe_pure _⟩
  · rw [val_bind, val_pure, final_val holds, List.nil_append]

/-- The verdict of the server's own hash, whatever the contexts and the arrays of the digests held, is the
verdict in an environment whose hash is the standard's. -/
theorem isvalidCtx_val {env real : Env} (standard : real.sha256 = Standard.digest) {fuel : Nat} (enough : 40 ≤ fuel)
    (ctx1 ctx2 : Ctx) (target : Arr 32) (seedBYTE : Arr 40) (solutionBYTE : Arr 32) :
    Safe (isvalidCtx env fuel ctx1 ctx2 target seedBYTE solutionBYTE) ∧
    (isvalidCtx env fuel ctx1 ctx2 target seedBYTE solutionBYTE).val =
      some (isvalid real target seedBYTE solutionBYTE).val := by
  have plain := safe_isvalid real target seedBYTE solutionBYTE
  unfold isvalid at plain ⊢
  unfold isvalidCtx
  rw [safe_bind] at plain
  obtain ⟨placed, -⟩ := plain
  simp only [safe_bind, val_bind, val_pure, readRange_val]
  generalize (forUp 8 seedBYTE fun i seedBYTE => do
    write seedBYTE (i + 32) (← read solutionBYTE (i + 24))).val = seed
  obtain ⟨safe1, buf⟩ := hashArray_val ctx1 seed (env.stack 32) (show 40 < 2 ^ 32 by decide) (Nat.le_refl 40) enough
  rw [← standard] at buf
  obtain ⟨safe2, buf2⟩ := hashArray_val ctx2 (real.sha256 (slice seed 0 40)) (env.stack 32)
    (show 32 < 2 ^ 32 by decide) (Nat.le_refl 32) (show 32 ≤ fuel by omega)
  rw [← standard] at buf2
  simp only [safe_bind, val_bind, val_pure, safe_pure, buf, buf2, and_true]
  exact ⟨placed, safe1, safe2, safe_compareFrom _ _ 32 0 (Nat.le_refl 32)⟩

/-- `isvalid` answers 1 exactly on a nonce whose double digest, by the standard, is below the target. -/
theorem isvalidCtx_eq_one (env : Env) {fuel : Nat} (enough : 40 ≤ fuel) (ctx1 ctx2 : Ctx) (target : Arr 32)
    (seedBYTE : Arr 40) (solutionBYTE : Arr 32) :
    Safe (isvalidCtx env fuel ctx1 ctx2 target seedBYTE solutionBYTE) ∧
    ∃ verdict seed, (isvalidCtx env fuel ctx1 ctx2 target seedBYTE solutionBYTE).val = some (verdict, seed) ∧
      slice seed 0 32 = slice seedBYTE 0 32 ∧
      (verdict = 1 ↔ Solves Standard.digest (value target) (slice seedBYTE 0 32) (nonceOf solutionBYTE)) := by
  obtain ⟨real, standard⟩ : ∃ real : Env, real.sha256 = Standard.digest := ⟨{ env with sha256 := Standard.digest }, rfl⟩
  obtain ⟨safe, returned⟩ := isvalidCtx_val standard enough ctx1 ctx2 target seedBYTE solutionBYTE
  refine ⟨safe, _, _, returned, isvalid_keeps_seed real target seedBYTE solutionBYTE, ?_⟩
  rw [← standard]
  exact isvalid_eq_one real target seedBYTE solutionBYTE

/-! The first sample of `client.c`, on contexts that were in use. -/

def usedCtx : Ctx := ⟨Vector.replicate 64 0xff, 7, 9, Vector.replicate 8 1⟩

def sampleTarget : Arr 32 := encode 32 (0xffffff * 256 ^ 28)

def sampleSeed : Arr 40 := encode 40 (0x19d6689c085ae165831e934ff763ae46a218a6c172b3f1b60a8ce26f * 256 ^ 8)

def sampleNonce : Arr 32 := encode 32 0x1000000023212147

theorem isvalidCtx_eq_one_sample :
    Safe (isvalidCtx sampleEnv 40 usedCtx usedCtx sampleTarget sampleSeed sampleNonce) ∧
    ∃ seed, (isvalidCtx sampleEnv 40 usedCtx usedCtx sampleTarget sampleSeed sampleNonce).val = some (1, seed) ∧
      slice seed 0 32 = slice sampleSeed 0 32 ∧
      Solves Standard.digest (value sampleTarget) (slice sampleSeed 0 32) (nonceOf sampleNonce) := by
  obtain ⟨safe, verdict, seed, returned, kept, accepts⟩ :=
    isvalidCtx_eq_one sampleEnv (Nat.le_refl 40) usedCtx usedCtx sampleTarget sampleSeed sampleNonce
  have one : (isvalidCtx sampleEnv 40 usedCtx usedCtx sampleTarget sampleSeed sampleNonce).val.map Prod.fst =
      some 1 := by decide +kernel
  rw [returned, Option.map_some, Option.some.injEq] at one
  dsimp only at one
  subst one
  exact ⟨safe, seed, returned, kept, accepts.mp rfl⟩

end WorkServer.Sha256

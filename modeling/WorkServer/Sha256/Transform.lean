import Mathlib.Tactic.NormNum.Prime
import WorkServer.Sha256.Standard

/-!
# The block function

`sha256_transform` against the standard: its tables are the roots of the first primes,
its array of 64 words is the recursive schedule, and its rounds are the standard's.
-/

namespace WorkServer.Sha256
open BigEndian BlockHash Tracing

/-! ### Tables -/

theorem prime_of_mem_primes : ∀ p ∈ Standard.primes, p.Prime := by
  norm_num [Standard.primes]

theorem mem_primes_of_prime {p : Nat} (low : p ≤ 311) (prime : p.Prime) : p ∈ Standard.primes := by
  have sieve : (List.range 312).filter (fun q => 2 ≤ q ∧ ∀ d ∈ [2, 3, 5, 7, 11, 13, 17], d ∣ q → d = q) =
      Standard.primes := by decide +kernel
  rw [← sieve, List.mem_filter, List.mem_range, decide_eq_true_iff]
  refine ⟨by omega, prime.two_le, fun d factor divides => ?_⟩
  rcases (Nat.dvd_prime prime).mp divides with rfl | same
  · simp at factor
  · exact same

/-- The standard's table holds the primes up to 311 and nothing else. -/
theorem mem_primes_iff {p : Nat} : p ∈ Standard.primes ↔ p ≤ 311 ∧ p.Prime := by
  have low : ∀ p ∈ Standard.primes, p ≤ 311 := by decide
  constructor
  · intro listed
    exact ⟨low p listed, prime_of_mem_primes p listed⟩
  · intro prime
    exact mem_primes_of_prime prime.1 prime.2

theorem k_eq_K : ∀ t < 64, entry k t = Standard.K t := by decide +kernel

theorem init_state (ctx : Ctx) : (init ctx).state = Standard.H0 := by
  have table : #v[0x6a09e667, 0xbb67ae85, 0x3c6ef372, 0xa54ff53a, 0x510e527f, 0x9b05688c, 0x1f83d9ab, 0x5be0cd19] =
      Standard.H0 := by decide +kernel
  exact table

/-! ### Words -/

theorem rotright_eq (x : WORD) {r : WORD} (low : r.toNat < 32) (pos : 0 < r.toNat) :
    rotright x r = Standard.rotr r.toNat x := by
  have left : (32 - r).toNat = 32 - r.toNat := by
    rw [UInt32.toNat_sub_of_le _ _ (UInt32.le_iff_toNat_le.mpr (Nat.le_of_lt low))]
    rfl
  apply UInt32.toNat_inj.mp
  show (x >>> r ||| x <<< (32 - r)).toNat = (x.toBitVec.rotateRight r.toNat).toNat
  rw [BitVec.rotateRight, BitVec.rotateRightAux, BitVec.toNat_or, UInt32.toNat_or,
    UInt32.toNat_shiftRight, UInt32.toNat_shiftLeft, left, Nat.mod_eq_of_lt low,
    Nat.mod_eq_of_lt (show 32 - r.toNat < 32 by omega)]
  simp

theorem or_bytes (a b c d : BYTE) :
    a.toUInt32 <<< 24 ||| b.toUInt32 <<< 16 ||| c.toUInt32 <<< 8 ||| d.toUInt32 =
      UInt32.ofNat (beVal [a, b, c, d]) := by
  have ha := a.toNat_lt
  have hb := b.toNat_lt
  have hc := c.toNat_lt
  have hd := d.toNat_lt
  have spelt : beVal [a, b, c, d] = 2 ^ 24 * a.toNat + (2 ^ 16 * b.toNat + (2 ^ 8 * c.toNat + d.toNat)) := by
    simp [beVal_cons, Nat.mul_comm]
  have bound : 2 ^ 24 * a.toNat + (2 ^ 16 * b.toNat + (2 ^ 8 * c.toNat + d.toNat)) < 2 ^ 32 := by omega
  apply UInt32.toNat_inj.mp
  rw [spelt, UInt32.toNat_ofNat', Nat.mod_eq_of_lt bound,
    Nat.two_pow_add_eq_or_of_lt (show 2 ^ 16 * b.toNat + (2 ^ 8 * c.toNat + d.toNat) < 2 ^ 24 by omega),
    Nat.two_pow_add_eq_or_of_lt (show 2 ^ 8 * c.toNat + d.toNat < 2 ^ 16 by omega),
    Nat.two_pow_add_eq_or_of_lt hd]
  have shifted : ∀ (x : BYTE) (s : WORD), s.toNat ≤ 24 → (x.toUInt32 <<< s).toNat = 2 ^ s.toNat * x.toNat := by
    intro x s small
    have hx := x.toNat_lt
    have fits : x.toNat * 2 ^ s.toNat < 2 ^ 32 :=
      calc x.toNat * 2 ^ s.toNat ≤ x.toNat * 2 ^ 24 := by gcongr; norm_num
        _ < 2 ^ 32 := by omega
    rw [UInt32.toNat_shiftLeft, UInt8.toNat_toUInt32, Nat.mod_eq_of_lt (show s.toNat < 32 by omega), Nat.shiftLeft_eq,
      Nat.mod_eq_of_lt fits, Nat.mul_comm]
  simp only [UInt32.toNat_or, UInt8.toNat_toUInt32, Nat.or_assoc]
  rw [shifted a 24 (by decide), shifted b 16 (by decide), shifted c 8 (by decide)]
  rfl

theorem ep0_eq (x : WORD) : ep0 x = Standard.Sigma0 x := by
  unfold ep0
  simp (disch := decide) only [rotright_eq]
  rfl

theorem ep1_eq (x : WORD) : ep1 x = Standard.Sigma1 x := by
  unfold ep1
  simp (disch := decide) only [rotright_eq]
  rfl

theorem sig0_eq (x : WORD) : sig0 x = Standard.sigma0 x := by
  unfold sig0
  simp (disch := decide) only [rotright_eq]
  rfl

theorem sig1_eq (x : WORD) : sig1 x = Standard.sigma1 x := by
  unfold sig1
  simp (disch := decide) only [rotright_eq]
  rfl

/-! ### The schedule -/

variable (ctx : Ctx) (data : Arr 64)

theorem loadWord_val {i : Nat} (low : i < 16) (m : Vector WORD 64) :
    (loadWord data i m).val = (write m i (Standard.word data.toList i)).val := by
  have four : slice data (4 * i) 4 =
      [entry data (4 * i), entry data (4 * i + 1), entry data (4 * i + 2), entry data (4 * i + 3)] := rfl
  unfold Standard.word
  rw [← slice_eq_take_drop data (show 4 * i + 4 ≤ 64 by omega), four, ← or_bytes]
  rfl

theorem W_low {block : List BYTE} {t : Nat} (low : t < 16) : Standard.W block t = Standard.word block t := by
  rw [Standard.W, if_pos low]

theorem W_high {block : List BYTE} {t : Nat} (high : 16 ≤ t) :
    Standard.W block t = Standard.sigma1 (Standard.W block (t - 2)) + Standard.W block (t - 7) +
      Standard.sigma0 (Standard.W block (t - 15)) + Standard.W block (t - 16) := by
  rw [Standard.W, if_neg (by omega)]

theorem expandWord_val {block : List BYTE} {i : Nat} {m : Vector WORD 64} (high : 16 ≤ i)
    (before : ∀ t < i, entry m t = Standard.W block t) :
    (expandWord i m).val = (write m i (Standard.W block i)).val := by
  rw [W_high high, ← before (i - 2) (by omega), ← before (i - 7) (by omega), ← before (i - 15) (by omega),
    ← before (i - 16) (by omega), ← sig0_eq, ← sig1_eq]
  rfl

/-- A word written behind the ones that are right. -/
theorem schedule_grows {block : List BYTE} {i : Nat} {m : Vector WORD 64} (low : i < 64)
    (before : ∀ t < i, entry m t = Standard.W block t) :
    ∀ t < i + 1, entry (write m i (Standard.W block i)).val t = Standard.W block t := by
  intro t ht
  rw [entry_write m low]
  split
  · rename_i last
    rw [last]
  · exact before t (by omega)

theorem schedule_val : ∀ t < 64, entry (schedule data).val t = Standard.W data.toList t := by
  have loaded : ∀ t < 16, entry (forUp 16 (Vector.replicate 64 0) (loadWord data)).val t =
      Standard.W data.toList t := by
    apply forUp_inv fun i m => ∀ t < i, entry m t = Standard.W data.toList t
    · intro t none
      omega
    · intro i hi m before
      rw [loadWord_val data hi, ← W_low hi]
      exact schedule_grows (by omega) before
  unfold schedule
  rw [val_bind]
  apply forUp_inv (fun i m => ∀ t < i + 16, entry m t = Standard.W data.toList t) loaded
  intro i hi m before
  rw [expandWord_val (by omega) before, Nat.add_right_comm]
  exact schedule_grows (by omega) before

/-! ### The rounds -/

theorem round_val {i : Nat} (low : i < 64) (v : Vars) :
    (round (schedule data).val i v).val = Standard.step data.toList v i := by
  unfold Standard.step
  rw [← ep0_eq, ← ep1_eq, ← schedule_val data i low, ← k_eq_K i low]
  rfl

theorem rounds_val (v : Vars) : (forUp 64 v (round (schedule data).val)).val = Standard.rounds data.toList v := by
  apply forUp_inv (fun i w => w = (List.range i).foldl (Standard.step data.toList) v) rfl
  rintro i hi w rfl
  rw [round_val data hi, List.range_succ, List.foldl_append]
  rfl

theorem entry_addWord (i : Nat) (x : WORD) (state : Vector WORD 8) {j : Nat} (hj : j < 8) :
    entry (addWord i x state).val j = if j = i then entry state i + x else entry state j := by
  unfold addWord
  exact entry_write_of_lt state i _ hj

def addVars (v : Vars) (state : Vector WORD 8) : Vector WORD 8 :=
  (addWord 7 v.h (addWord 6 v.g (addWord 5 v.f (addWord 4 v.e (addWord 3 v.d (addWord 2 v.c
    (addWord 1 v.b (addWord 0 v.a state).val).val).val).val).val).val).val).val

theorem addVars_eq (v : Vars) (state : Vector WORD 8) :
    addVars v state = Vector.zipWith (· + ·) (Standard.words v) state := by
  apply entry_ext
  intro j hj
  rw [entry_eq_getElem (Vector.zipWith _ _ _) hj, Vector.getElem_zipWith, ← entry_eq_getElem state hj]
  unfold addVars Standard.words
  rw [entry_addWord 7 v.h _ hj, entry_addWord 6 v.g _ hj, entry_addWord 5 v.f _ hj, entry_addWord 4 v.e _ hj,
    entry_addWord 3 v.d _ hj, entry_addWord 2 v.c _ hj, entry_addWord 1 v.b _ hj, entry_addWord 0 v.a _ hj]
  interval_cases j <;> simp [entry_addWord, UInt32.add_comm]

/-- `sha256_transform` puts the standard's next state into the context and changes nothing else in it. -/
theorem transform_val :
    (transform ctx data).val = { ctx with state := Standard.compress ctx.state data.toList } := by
  have states : (transform ctx data).val =
      { ctx with state := addVars (forUp 64 (Standard.vars ctx.state) (round (schedule data).val)).val ctx.state } := by
    unfold transform addVars Standard.vars
    simp only [val_bind, read_val, val_pure]
  rw [states, rounds_val, addVars_eq]
  rfl

/-! ### Bounds -/

theorem safe_schedule : Safe (schedule data) := by
  unfold schedule
  rw [safe_bind]
  constructor
  · apply safe_forUp
    intro i hi m
    unfold loadWord
    simp only [safe_bind, safe_read, safe_write]
    omega
  · apply safe_forUp
    intro i hi m
    unfold expandWord
    simp only [safe_bind, safe_read, safe_write]
    omega

theorem safe_round {i : Nat} (low : i < 64) (m : Vector WORD 64) (v : Vars) : Safe (round m i v) := by
  unfold round
  simp only [safe_bind, safe_read, safe_pure, and_true]
  exact ⟨low, low⟩

theorem safe_addWord {i : Nat} (low : i < 8) (x : WORD) (state : Vector WORD 8) : Safe (addWord i x state) := by
  unfold addWord
  simp only [safe_bind, safe_read, safe_write]
  exact ⟨low, low⟩

theorem safe_transform : Safe (transform ctx data) := by
  unfold transform
  simp only [safe_bind, safe_read, safe_pure, safe_addWord, safe_schedule, Nat.reduceLT, true_and, and_true]
  exact safe_forUp fun i hi v => safe_round hi _ v

/-! ### The rounds as a permutation -/

/-- A round taken back: what the eight words were before it. -/
def unround (m : Vector WORD 64) (i : Nat) (v : Vars) : Vars :=
  let t1 := v.a - (ep0 v.b + maj v.b v.c v.d)
  { a := v.b, b := v.c, c := v.d, d := v.e - t1, e := v.f, f := v.g, g := v.h,
    h := t1 - (ep1 v.f + ch v.f v.g v.h + entry k i + entry m i) }

theorem round_unround (m : Vector WORD 64) (i : Nat) (v : Vars) : (round m i (unround m i v)).val = v := by
  obtain ⟨a, b, c, d, e, f, g, h⟩ := v
  unfold round unround
  simp only [val_bind, read_val, val_pure, Vars.mk.injEq]
  grind

theorem unround_round (m : Vector WORD 64) (i : Nat) (v : Vars) : unround m i (round m i v).val = v := by
  obtain ⟨a, b, c, d, e, f, g, h⟩ := v
  unfold round unround
  simp only [val_bind, read_val, val_pure, Vars.mk.injEq]
  grind

theorem round_bijective (m : Vector WORD 64) (i : Nat) : Function.Bijective fun v => (round m i v).val := by
  apply Function.bijective_iff_has_inverse.mpr
  exact ⟨unround m i, unround_round m i, round_unround m i⟩

theorem forUp_bijective {σ : Type} {body : Nat → σ → Traced σ} (n : Nat)
    (each : ∀ i < n, Function.Bijective fun s => (body i s).val) :
    Function.Bijective fun s => (forUp n s body).val := by
  induction n with
  | zero => exact Function.bijective_id
  | succ n ih =>
    have before := ih fun i hi => each i (by omega)
    exact (each n (Nat.lt_succ_self n)).comp before

theorem words_vars (H : Vector WORD 8) : Standard.words (Standard.vars H) = H := by
  apply entry_ext
  intro j hj
  unfold Standard.words Standard.vars
  interval_cases j <;> rfl

theorem vars_words (v : Vars) : Standard.vars (Standard.words v) = v := rfl

theorem zipWith_add_sub (xs ys : Vector WORD 8) : Vector.zipWith (· - ·) (Vector.zipWith (· + ·) xs ys) ys = xs := by
  apply Vector.ext
  intro j hj
  simp

/-- What `sha256_transform` adds to the state is, for every block, a permutation of the states. -/
theorem transform_permutes : Function.Bijective fun H : Vector WORD 8 =>
    Vector.zipWith (· - ·) (transform { ctx with state := H } data).val.state H := by
  have rounds : Function.Bijective (Standard.rounds data.toList) := by
    have loop := forUp_bijective 64 fun i (_ : i < 64) => round_bijective (schedule data).val i
    simpa only [rounds_val] using loop
  have into : Function.Bijective Standard.vars :=
    Function.bijective_iff_has_inverse.mpr ⟨Standard.words, words_vars, vars_words⟩
  have back : Function.Bijective Standard.words :=
    Function.bijective_iff_has_inverse.mpr ⟨Standard.vars, vars_words, words_vars⟩
  have gained : (fun H : Vector WORD 8 => Vector.zipWith (· - ·) (transform { ctx with state := H } data).val.state H) =
      Standard.words ∘ Standard.rounds data.toList ∘ Standard.vars := by
    funext H
    rw [transform_val, Function.comp_apply, Function.comp_apply]
    unfold Standard.compress
    rw [zipWith_add_sub]
  rw [gained]
  exact back.comp (rounds.comp into)

end WorkServer.Sha256

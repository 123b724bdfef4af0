import WorkServer.Lib.BigEndian
import WorkServer.Lib.HexText
import WorkServer.Arithmetic.Sum
import WorkServer.Mining

/-!
# The text codecs

`ctob` puts the bytes of a hex field at the low end of a 32-byte number; `btoc` writes
the hex form of a run of bytes. On lowercase hex each is its specification in `HexText`.
-/

namespace WorkServer
open Tracing BigEndian HexText

variable {n m : Nat}

theorem getval_digit (env : Env) {c : BYTE} (h : IsDigit c) : getval env c = digitVal c := by
  refine h.cases (P := fun c => getval env c = digitVal c) ?_
  intro k hk
  interval_cases k <;> rfl

theorem getcharacter_digit (env : Env) {k : Nat} (h : k < 16) : getcharacter env k = digit k := by
  interval_cases k <;> rfl

def pairValue (env : Env) (a b : BYTE) : BYTE :=
  UInt8.ofInt (getval env a) * 16 + UInt8.ofInt (getval env b)

theorem ofInt_natCast (k : Nat) : UInt8.ofInt (k : Int) = UInt8.ofNat k := by
  apply UInt8.toNat_inj.mp
  simp only [UInt8.ofInt, UInt8.toNat_ofNat']
  omega

theorem pairValue_digits (env : Env) {a b : BYTE} (ha : IsDigit a) (hb : IsDigit b) :
    pairValue env a b = pair a b := by
  unfold pairValue
  rw [getval_digit env ha, getval_digit env hb, ofInt_natCast, ofInt_natCast, pair]
  apply UInt8.toNat_inj.mp
  simp

theorem entry_two (v : Arr 2) (c d : BYTE) :
    entry (write (write v 0 c).val 1 d).val 0 = c ∧ entry (write (write v 0 c).val 1 d).val 1 = d := by
  simp [entry_write _ (show 0 < 2 by omega), entry_write _ (show 1 < 2 by omega)]

theorem ctobFrom_step (env : Env) (string : Arr m) (i : Nat) {j : Nat} (low : j ≤ 31) (number : Arr n) :
    (ctobFrom env string (i + 2) j number).val = (ctobFrom env string i (j + 1)
      (write number (31 - j) (pairValue env (entry string i) (entry string (i + 1)))).val).val := by
  have index : (31 - (j : Int)) = ((31 - j : Nat) : Int) := by omega
  simp only [ctobFrom, val_bind, read_val, index, writeInt_natCast, entry_two]
  rfl

/-- `k` pairs are left and `j` are done, so the next byte written is `31 - j`. -/
theorem entry_ctobFrom (env : Env) (string : Arr m) (fits : 32 ≤ n) (k j : Nat) (number : Arr n)
    (room : j + k ≤ 32) (x : Nat) : entry (ctobFrom env string (2 * k) j number).val x =
      if 32 - j - k ≤ x ∧ x < 32 - j then
        pairValue env (entry string (2 * (x + j + k - 32))) (entry string (2 * (x + j + k - 32) + 1))
      else entry number x := by
  induction k generalizing j number with
  | zero =>
    rw [if_neg (by omega)]
    rfl
  | succ k ih =>
    rw [show 2 * (k + 1) = 2 * k + 2 by omega, ctobFrom_step env string _ (by omega), ih _ _ (by omega),
      entry_write _ (by omega)]
    by_cases last : x = 31 - j
    · rw [if_neg (by omega), if_pos last, if_pos (by omega), show x + j + (k + 1) - 32 = k by omega]
    · rw [if_neg last, show x + (j + 1) + k - 32 = x + j + (k + 1) - 32 by omega]
      congr 1
      exact propext ⟨fun h => by omega, fun h => by omega⟩

theorem entry_uint256Init (u : Arr n) (fits : 32 ≤ n) (x : Nat) :
    entry (uint256Init u).val x = if x < 32 then 0 else entry u x := by
  unfold uint256Init
  rw [entry_forUp_write 0 (by omega) (fun _ => 0) (fun i _ w => by rw [Nat.zero_add])]
  congr 1
  exact propext ⟨fun h => by omega, fun h => by omega⟩

theorem entry_ctob (env : Env) (string : Arr m) {k : Nat} (number : Arr n) (fits : 32 ≤ n) (small : k ≤ 32)
    (x : Nat) : entry (ctob env string (2 * k) number).val x =
      if x < 32 - k then 0
      else if x < 32 then
        pairValue env (entry string (2 * (x + k - 32))) (entry string (2 * (x + k - 32) + 1))
      else entry number x := by
  unfold ctob
  rw [val_bind, entry_ctobFrom env string fits k 0 _ (by omega), entry_uint256Init number fits]
  simp only [Nat.sub_zero, Nat.add_zero]
  split
  · rw [if_neg (by omega), if_pos (by omega)]
  · split
    · rw [if_pos (by omega)]
    · rw [if_neg (by omega)]

/-! ### Agreement with the specification -/

theorem slice_head (v : Arr n) (off len : Nat) :
    slice v off (len + 1) = entry v off :: slice v (off + 1) len := by
  rw [Nat.add_comm, slice_add, ← List.singleton_append]
  rfl

theorem mapPairs_slice (f : BYTE → BYTE → BYTE) (string : Arr m) (off k : Nat) :
    mapPairs f (slice string off (2 * k)) =
      (List.range k).map fun i => f (entry string (off + 2 * i)) (entry string (off + 2 * i + 1)) := by
  induction k generalizing off with
  | zero => rfl
  | succ k ih =>
    rw [show 2 * (k + 1) = 2 * k + 1 + 1 by omega, slice_head, slice_head, mapPairs, ih,
      List.range_succ_eq_map, List.map_cons, List.map_map]
    refine congrArg (List.cons _) (List.map_congr_left ?_)
    intro i _
    simp only [Function.comp_apply]
    rw [show off + 1 + 1 + 2 * i = off + 2 * (i + 1) by omega]

def decoded (env : Env) : List BYTE → List BYTE := mapPairs (pairValue env)

theorem decoded_hex (env : Env) {cs : List BYTE} (hex : ∀ c ∈ cs, IsDigit c) : decoded env cs = unhex cs :=
  mapPairs_congr fun a ha b hb => pairValue_digits env (hex a ha) (hex b hb)

theorem ctob_slice (env : Env) (string : Arr m) {k : Nat} (number : Arr n) (fits : 32 ≤ n) (small : k ≤ 32) :
    slice (ctob env string (2 * k) number).val (32 - k) k = decoded env (slice string 0 (2 * k)) := by
  unfold decoded
  rw [mapPairs_slice]
  apply List.map_congr_left
  intro i hi
  have bound := List.mem_range.mp hi
  rw [entry_ctob env string number fits small, if_neg (by omega), if_pos (by omega),
    show 32 - k + i + k - 32 = i by omega, Nat.zero_add]

def hexChar (number : Arr n) (off x : Nat) : BYTE :=
  if x % 2 = 0 then digit ((entry number (off + x / 2)).toNat / 16)
  else digit ((entry number (off + x / 2)).toNat % 16)

theorem btoc_step (env : Env) (number : Arr n) (off i : Nat) (string : Arr m) {x : Nat} (fits : x < m) :
    let c0 := getcharacter env ((entry number (off + i)).toNat / 16 : Nat)
    let c1 := getcharacter env ((entry number (off + i)).toNat % 16 : Nat)
    entry (write (write string (2 * i) c0).val (2 * i + 1) c1).val x =
      if x / 2 = i then hexChar number off x else entry string x := by
  have range := (entry number (off + i)).toNat_lt
  dsimp only
  rw [entry_write_of_lt _ _ _ fits, entry_write_of_lt _ _ _ fits, getcharacter_digit env (by omega),
    getcharacter_digit env (by omega)]
  by_cases here : x / 2 = i
  · rw [if_pos here, hexChar, here]
    by_cases even : x % 2 = 0
    · rw [if_neg (by omega), if_pos (by omega), if_pos even]
    · rw [if_pos (by omega), if_neg even]
  · rw [if_neg (by omega), if_neg (by omega), if_neg here]

theorem entry_btoc (env : Env) (number : Arr n) (off numberlen : Nat) (string : Arr m) {x : Nat}
    (fits : x < m) : entry (btoc env number off numberlen string).val x =
      if x < 2 * numberlen then hexChar number off x else entry string x := by
  refine forUp_inv (fun i w => entry w x = if x < 2 * i then hexChar number off x else entry string x)
    (by rw [if_neg (by omega)]) ?_
  intro i hi w ih
  simp only [val_bind, read_val, entry_two]
  rw [btoc_step env number off i w fits, ih]
  by_cases here : x / 2 = i
  · rw [if_pos here, if_pos (by omega)]
  · rw [if_neg here]
    congr 1
    exact propext ⟨fun h => by omega, fun h => by omega⟩

theorem hexChar_succ (number : Arr n) (off x : Nat) :
    hexChar number off (x + 2) = hexChar number (off + 1) x := by
  rw [hexChar, hexChar, Nat.add_mod_right, show off + (x + 2) / 2 = off + 1 + x / 2 by omega]

theorem map_hexChar (number : Arr n) (off k : Nat) :
    (List.range (2 * k)).map (hexChar number off) = toHex (slice number off k) := by
  induction k generalizing off with
  | zero => rfl
  | succ k ih =>
    rw [show 2 * (k + 1) = 2 * k + 1 + 1 by omega, List.range_succ_eq_map, List.range_succ_eq_map, slice_head,
      toHex, ← ih]
    simp only [List.map_cons, List.map_map, hexChar, Function.comp_def]
    refine congrArg₂ List.cons (by simp) (congrArg₂ List.cons (by simp) (List.map_congr_left ?_))
    intro x _
    exact hexChar_succ number off x

theorem btoc_slice (env : Env) (number : Arr n) (off k : Nat) (string : Arr m) (fits : 2 * k ≤ m) :
    slice (btoc env number off k string).val 0 (2 * k) = toHex (slice number off k) := by
  rw [← map_hexChar]
  apply List.map_congr_left
  intro x hx
  have inside := List.mem_range.mp hx
  rw [Nat.zero_add, entry_btoc env number off k string (by omega), if_pos inside]

/-! ### The round trips -/

theorem beVal_unhex : ∀ {cs : List BYTE}, (∀ c ∈ cs, IsDigit c) → cs.length % 2 = 0 →
    beVal (unhex cs) = numeral cs
  | a :: b :: rest, hex, even => by
    have half : (unhex rest).length = rest.length / 2 := length_mapPairs pair rest
    have whole : rest.length = 2 * (rest.length / 2) := by
      simp only [List.length_cons] at even
      omega
    have ih : beVal (unhex rest) = numeral rest := beVal_unhex (fun c hc => hex c (by simp [hc])) (by omega)
    have front : numeral (a :: b :: rest) = numeral [a, b] * 16 ^ rest.length + numeral rest :=
      numeral_append [a, b] rest
    have bytes : beVal (unhex (a :: b :: rest)) =
        (pair a b).toNat * 256 ^ (unhex rest).length + beVal (unhex rest) := beVal_cons _ _
    rw [bytes, front, ih, toNat_pair (hex a (by simp)) (hex b (by simp)), numeral_pair, half]
    conv_rhs => rw [whole, pow_mul]
    norm_num
  | [], _, _ => rfl
  | [_], _, even => by simp at even

/-- `ctob` reads a hex text as a number right-aligned in 32 bytes, `btoc` writes it again, and
`ctob` reads back what `btoc` writes of any bytes. -/
theorem ctob_btoc_inverse (env : Env) :
    (∀ {m n l : Nat} (string : Arr m) (number : Arr n) (t : Arr l) (k : Nat), k ≤ 32 → 32 ≤ n →
      2 * k ≤ l → (∀ c ∈ slice string 0 (2 * k), IsDigit c) →
      beVal (slice (ctob env string (2 * k) number).val 0 32) = numeral (slice string 0 (2 * k)) ∧
      (∀ i < 32 - k, entry (ctob env string (2 * k) number).val i = 0) ∧
      slice (btoc env (ctob env string (2 * k) number).val (32 - k) k t).val 0 (2 * k) =
        slice string 0 (2 * k)) ∧
    (∀ {m n l : Nat} (source : Arr m) (off k : Nat) (string : Arr l) (number : Arr n), k ≤ 32 →
      2 * k ≤ l → 32 ≤ n →
      slice (ctob env (btoc env source off k string).val (2 * k) number).val (32 - k) k =
        slice source off k ∧
      ∀ i < 32 - k, entry (ctob env (btoc env source off k string).val (2 * k) number).val i = 0) := by
  refine ⟨?_, ?_⟩
  · intro m n l string number t k small fits room hex
    have bytes : slice (ctob env string (2 * k) number).val (32 - k) k = unhex (slice string 0 (2 * k)) := by
      rw [ctob_slice env string number fits small, decoded_hex env hex]
    have zero : ∀ i < 32 - k, entry (ctob env string (2 * k) number).val i = 0 := by
      intro i hi
      rw [entry_ctob env string number fits small, if_pos hi]
    have even : (slice string 0 (2 * k)).length % 2 = 0 := by
      rw [length_slice]
      omega
    refine ⟨?_, zero, ?_⟩
    · have clear : slice (ctob env string (2 * k) number).val 0 (32 - k) = List.replicate (32 - k) 0 := by
        refine List.eq_replicate_iff.mpr ⟨length_slice _ _ _, fun c hc => ?_⟩
        obtain ⟨i, hi, rfl⟩ := List.mem_map.mp hc
        rw [Nat.zero_add]
        exact zero i (List.mem_range.mp hi)
      have split := slice_add (ctob env string (2 * k) number).val 0 (32 - k) k
      rw [Nat.sub_add_cancel small, Nat.zero_add, clear, bytes] at split
      rw [split, beVal_append, beVal_replicate_zero, Nat.zero_mul, Nat.zero_add, beVal_unhex hex even]
    · rw [btoc_slice env _ _ _ t room, bytes, toHex_unhex hex even]
  · intro m n l source off k string number small room fits
    have text := btoc_slice env source off k string room
    refine ⟨?_, fun i hi => ?_⟩
    · rw [ctob_slice env _ number fits small, text, decoded_hex env fun c hc => isDigit_of_mem_toHex hc,
        unhex_toHex]
    · rw [entry_ctob env _ number fits small, if_pos hi]

/-- The environment of the first sample of `client.c`, with the digests that SHA-256 has for it. -/
def sampleEnv : Env where
  sha256 bytes :=
    let digits := if bytes.length = 40 then "7d7405f877b56f971151d91fd62f16ce63607dcd223466753b0753ff6f33a331"
      else "00e3607288f5abedd55141cb5a737ef3d12a7628d6fc645e79f1912193a69f3b"
    Vector.ofFn fun i => (unhex (ascii digits)).getD i 0
  fallOff _ := 0
  stack n := Vector.replicate n 0

def sampleHex : Arr 4 := Vector.ofFn fun i => (ascii "0b7f").getD i 0

theorem ctob_btoc_inverse_sample :
    slice (btoc sampleEnv (ctob sampleEnv sampleHex 4 (Vector.replicate 32 0)).val 30 2
      (Vector.replicate 4 0)).val 0 4 = slice sampleHex 0 4 ∧
    slice (ctob sampleEnv (btoc sampleEnv sampleHex 0 2 (Vector.replicate 4 0)).val 4
      (Vector.replicate 32 0)).val 30 2 = slice sampleHex 0 2 := by
  obtain ⟨reads, writes⟩ := ctob_btoc_inverse sampleEnv
  exact ⟨(reads sampleHex _ _ 2 (by decide) (by decide) (by decide) (by decide)).2.2,
    (writes sampleHex 0 2 _ _ (by decide) (by decide) (by decide)).1⟩

/-! ### Bounds -/

theorem safe_ctobFrom (env : Env) (string : Arr m) (fits : 32 ≤ n) (k j : Nat) (number : Arr n)
    (inside : 2 * k ≤ m) (room : j + k ≤ 32) : Safe (ctobFrom env string (2 * k) j number) := by
  induction k generalizing j number with
  | zero => exact safe_pure _
  | succ k ih =>
    have index : (31 - (j : Int)) = ((31 - j : Nat) : Int) := by omega
    rw [show 2 * (k + 1) = 2 * k + 2 by omega, ctobFrom]
    simp only [safe_bind, safe_read, safe_write, index, writeInt_natCast]
    exact ⟨by omega, by omega, by omega, by omega, by omega, by omega, by omega, ih _ _ (by omega) (by omega)⟩

theorem safe_ctob (env : Env) (string : Arr m) {k : Nat} (number : Arr n) (fits : 32 ≤ n) (small : k ≤ 32)
    (inside : 2 * k ≤ m) : Safe (ctob env string (2 * k) number) := by
  unfold ctob
  rw [safe_bind]
  exact ⟨safe_uint256Init fits, safe_ctobFrom env string fits k 0 _ inside (by omega)⟩

end WorkServer

import Mathlib.Data.Nat.Digits.Lemmas
import Mathlib.Tactic.Ring
import WorkServer.Lib.Traced

/-!
# Big-endian byte numerals

The number a byte list spells with its most significant byte first, the bytes of a
number, and the same for byte arrays, where `suffix v i` is the number spelled by the
bytes from index `i` on: the quantity that a loop from the last byte upwards builds.
-/

namespace BigEndian
open Tracing

def beVal (bytes : List UInt8) : Nat := Nat.ofDigits 256 (bytes.reverse.map UInt8.toNat)

@[simp] theorem beVal_nil : beVal [] = 0 := rfl

theorem beVal_append (xs ys : List UInt8) :
    beVal (xs ++ ys) = beVal xs * 256 ^ ys.length + beVal ys := by
  unfold beVal
  simp only [List.reverse_append, List.map_append, Nat.ofDigits_append, List.length_map,
    List.length_reverse]
  ring

theorem beVal_singleton (b : UInt8) : beVal [b] = b.toNat := by simp [beVal]

theorem beVal_cons (b : UInt8) (bs : List UInt8) :
    beVal (b :: bs) = b.toNat * 256 ^ bs.length + beVal bs := by
  rw [← List.singleton_append, beVal_append, beVal_singleton]

theorem beVal_lt (bytes : List UInt8) : beVal bytes < 256 ^ bytes.length := by
  have digits : ∀ d ∈ bytes.reverse.map UInt8.toNat, d < 256 := by
    intro d hd
    obtain ⟨b, -, rfl⟩ := List.mem_map.mp hd
    exact b.toNat_lt
  simpa [beVal] using Nat.ofDigits_lt_base_pow_length (by norm_num) digits

theorem beVal_replicate_zero (k : Nat) : beVal (List.replicate k 0) = 0 := by
  simp [beVal, Nat.ofDigits_replicate_zero]

/-- The last `k` bytes of the big-endian form of `N`. -/
def beBytes : Nat → Nat → List UInt8
  | 0, _ => []
  | k + 1, N => beBytes k (N / 256) ++ [UInt8.ofNat N]

@[simp] theorem length_beBytes (k N : Nat) : (beBytes k N).length = k := by
  induction k generalizing N with
  | zero => rfl
  | succ k ih => simp [beBytes, ih]

theorem beVal_beBytes (k N : Nat) : beVal (beBytes k N) = N % 256 ^ k := by
  induction k generalizing N with
  | zero => simp [beBytes, Nat.mod_one]
  | succ k ih =>
    have low := Nat.mod_mul (a := 256) (b := 256 ^ k) (x := N)
    unfold beBytes
    rw [beVal_append, ih, beVal_singleton, UInt8.toNat_ofNat', pow_succ' 256 k, low,
      List.length_singleton, pow_one]
    omega

theorem beBytes_beVal (bytes : List UInt8) : beBytes bytes.length (beVal bytes) = bytes := by
  induction bytes using List.reverseRecOn with
  | nil => rfl
  | append_singleton bs b ih =>
    have low := b.toNat_lt
    rw [beVal_append, beVal_singleton, List.length_append, List.length_singleton, beBytes, pow_one]
    rw [show (beVal bs * 256 + b.toNat) / 256 = beVal bs by omega, ih]
    congr 2
    apply UInt8.toNat_inj.mp
    rw [UInt8.toNat_ofNat']
    omega

theorem beVal_inj {xs ys : List UInt8} (same : xs.length = ys.length) (equal : beVal xs = beVal ys) :
    xs = ys := by
  rw [← beBytes_beVal xs, same, equal, beBytes_beVal]

theorem beBytes_mod (k N : Nat) : beBytes k (N % 256 ^ k) = beBytes k N := by
  apply beVal_inj (by simp)
  rw [beVal_beBytes, beVal_beBytes, Nat.mod_mod]

theorem getD_beBytes (k N : Nat) {j : Nat} (h : j < k) :
    (beBytes k N).getD j 0 = UInt8.ofNat (N / 256 ^ (k - 1 - j)) := by
  induction k generalizing N with
  | zero => omega
  | succ k ih =>
    unfold beBytes
    rw [List.getD_eq_getElem?_getD, List.getElem?_append, length_beBytes]
    rcases Nat.lt_or_eq_of_le (Nat.le_of_lt_succ h) with before | rfl
    · rw [if_pos before, ← List.getD_eq_getElem?_getD, ih _ before, Nat.div_div_eq_div_mul, ← pow_succ',
        show k - 1 - j + 1 = k + 1 - 1 - j by omega]
    · simp

theorem byte_pow (k : Nat) : (256 : Nat) ^ k = 2 ^ (8 * k) := by
  rw [pow_mul]
  norm_num

/-! ### Byte arrays -/

variable {n : Nat}

def suffix (v : Vector UInt8 n) (i : Nat) : Nat := beVal (v.toList.drop i)

def value (v : Vector UInt8 n) : Nat := suffix v 0

theorem suffix_end (v : Vector UInt8 n) : suffix v n = 0 := by
  unfold suffix
  rw [List.drop_eq_nil_of_le (by simp), beVal_nil]

theorem suffix_step (v : Vector UInt8 n) {i : Nat} (h : i < n) :
    suffix v i = (entry v i).toNat * 256 ^ (n - 1 - i) + suffix v (i + 1) := by
  rw [suffix, List.drop_eq_getElem_cons (by simpa using h), beVal_cons, entry_eq_getElem v h]
  simp [suffix, Nat.sub_add_eq, Nat.sub_right_comm n i 1]

theorem suffix_lt (v : Vector UInt8 n) (i : Nat) : suffix v i < 256 ^ (n - i) := by
  simpa [suffix] using beVal_lt (v.toList.drop i)

theorem value_lt (v : Vector UInt8 n) : value v < 256 ^ n := suffix_lt v 0

theorem value_eq_beVal (v : Vector UInt8 n) : value v = beVal v.toList := rfl

/-- The `n`-byte array that holds `N` modulo `256 ^ n`. -/
def encode (n N : Nat) : Vector UInt8 n := ⟨(beBytes n N).toArray, by simp⟩

theorem toList_encode (n N : Nat) : (encode n N).toList = beBytes n N := rfl

theorem value_encode (n N : Nat) : value (encode n N) = N % 256 ^ n := by
  rw [value_eq_beVal, toList_encode, beVal_beBytes]

theorem encode_value (v : Vector UInt8 n) : encode n (value v) = v := by
  have bytes := beBytes_beVal v.toList
  rw [Vector.length_toList] at bytes
  exact Vector.toList_inj.mp bytes

theorem eq_encode {v : Vector UInt8 n} {N : Nat} (spelt : value v = N) : v = encode n N := by
  rw [← spelt, encode_value]

theorem suffix_eq_mod (v : Vector UInt8 n) (i : Nat) :
    suffix v i = value v % 256 ^ (n - i) := by
  have split := beVal_append (v.toList.take i) (v.toList.drop i)
  rw [List.take_append_drop] at split
  have len : (v.toList.drop i).length = n - i := by simp
  rw [value_eq_beVal, split, len]
  rw [Nat.mul_comm, Nat.mul_add_mod]
  exact (Nat.mod_eq_of_lt (suffix_lt v i)).symm

theorem suffix_congr {v w : Vector UInt8 n} (i : Nat)
    (same : ∀ j, i ≤ j → j < n → entry v j = entry w j) : suffix v i = suffix w i := by
  rcases Nat.le_total n i with past | inside
  · rw [suffix, suffix, List.drop_eq_nil_of_le (by simpa using past),
      List.drop_eq_nil_of_le (by simpa using past)]
  · induction hk : n - i generalizing i with
    | zero =>
      obtain rfl : i = n := by omega
      rw [suffix_end, suffix_end]
    | succ k ih =>
      rw [suffix_step v (by omega), suffix_step w (by omega), same i (Nat.le_refl i) (by omega),
        ih (i + 1) (fun j low => same j (by omega)) (by omega) (by omega)]

theorem suffix_write (v : Vector UInt8 n) {i : Nat} (h : i < n) (x : UInt8) :
    suffix (write v i x).val i = x.toNat * 256 ^ (n - 1 - i) + suffix v (i + 1) := by
  rw [suffix_step _ h, entry_write v h, if_pos rfl]
  congr 1
  apply suffix_congr
  intro j low _
  rw [entry_write v h, if_neg (by omega)]

/-- Arrays with the same bytes before index `i` differ by their tails. -/
theorem value_add_suffix {v w : Vector UInt8 n} {i : Nat} (h : i ≤ n)
    (same : ∀ j < i, entry v j = entry w j) : value v + suffix w i = value w + suffix v i := by
  induction i with
  | zero => exact Nat.add_comm (value v) (value w)
  | succ i ih =>
    have before := ih (by omega) fun j hj => same j (by omega)
    rw [suffix_step v h, suffix_step w h, same i (Nat.lt_succ_self i)] at before
    omega

theorem toNat_entry (v : Vector UInt8 n) {i : Nat} (h : i < n) :
    (entry v i).toNat = value v / 256 ^ (n - 1 - i) % 256 := by
  have low := suffix_lt v (i + 1)
  have whole := suffix_eq_mod v i
  rw [suffix_step v h] at whole
  have exponent : n - i = (n - 1 - i) + 1 := by omega
  rw [show n - (i + 1) = n - 1 - i by omega] at low
  rw [exponent, Nat.pow_succ] at whole
  have quotient := Nat.mod_mul_right_div_self (value v) (256 ^ (n - 1 - i)) 256
  rw [← whole, Nat.mul_comm, Nat.mul_add_div (by positivity), Nat.div_eq_of_lt low, Nat.add_zero] at quotient
  exact quotient

theorem value_replicate_zero (n : Nat) : value (Vector.replicate n (0 : UInt8)) = 0 := by
  rw [value_eq_beVal, Vector.toList_replicate, beVal_replicate_zero]

theorem encode_zero (n : Nat) : encode n 0 = Vector.replicate n 0 :=
  (eq_encode (value_replicate_zero n)).symm

theorem suffix_eq_zero (v : Vector UInt8 n) (i : Nat) :
    suffix v i = 0 ↔ ∀ j, i ≤ j → j < n → entry v j = 0 := by
  constructor
  · intro zero j low hj
    rw [suffix_eq_mod] at zero
    have whole : 256 ^ (n - 1 - j) * 256 ∣ value v := by
      rw [← pow_succ]
      exact (pow_dvd_pow 256 (by omega)).trans (Nat.dvd_of_mod_eq_zero zero)
    apply UInt8.toNat_inj.mp
    rw [toNat_entry v hj]
    exact Nat.mod_eq_zero_of_dvd (Nat.dvd_div_of_mul_dvd whole)
  · intro zero
    rw [suffix_congr (w := Vector.replicate n 0), suffix_eq_mod, value_replicate_zero, Nat.zero_mod]
    intro j low hj
    rw [zero j low hj, entry_replicate 0 hj]

theorem value_eq_zero (v : Vector UInt8 n) : value v = 0 ↔ ∀ i < n, entry v i = 0 := by
  unfold value
  simp only [suffix_eq_zero, Nat.zero_le, true_imp_iff]

theorem value_eq_suffix (v : Vector UInt8 n) {i : Nat} (h : i ≤ n) (zero : ∀ j < i, entry v j = 0) :
    value v = suffix v i := by
  induction i with
  | zero => rfl
  | succ i ih =>
    rw [ih (by omega) fun j hj => zero j (by omega), suffix_step v (by omega), zero i (Nat.lt_succ_self i)]
    simp

theorem testBit_value (v : Vector UInt8 n) {p : Nat} (h : p < 8 * n) :
    (value v).testBit p = (entry v (n - 1 - p / 8)).toNat.testBit (p % 8) := by
  rw [toNat_entry v (by omega), show n - 1 - (n - 1 - p / 8) = p / 8 by omega,
    byte_pow (p / 8), show (256 : Nat) = 2 ^ 8 by norm_num, Nat.testBit_mod_two_pow, Nat.testBit_div_two_pow]
  simp [Nat.mod_lt, Nat.mod_add_div]

end BigEndian

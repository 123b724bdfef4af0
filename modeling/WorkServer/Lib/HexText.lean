import Mathlib.Data.Nat.Digits.Lemmas

/-!
# Lowercase hexadecimal text

Bytes as pairs of the digits `0`–`9` and `a`–`f`, over ASCII codes.
-/

namespace HexText

def IsDigit (c : UInt8) : Prop := 48 ≤ c.toNat ∧ c.toNat ≤ 57 ∨ 97 ≤ c.toNat ∧ c.toNat ≤ 102

instance (c : UInt8) : Decidable (IsDigit c) := inferInstanceAs (Decidable (_ ∨ _))

-- Over the characters of the text, not over all 256 bytes.
instance (cs : List UInt8) : Decidable (∀ c ∈ cs, IsDigit c) := List.decidableBAll IsDigit cs

def digitVal (c : UInt8) : Nat := if c.toNat ≤ 57 then c.toNat - 48 else c.toNat - 87

def digit (k : Nat) : UInt8 := if k < 10 then UInt8.ofNat (48 + k) else UInt8.ofNat (87 + k)

theorem toNat_digit {k : Nat} (h : k < 16) : (digit k).toNat = if k < 10 then 48 + k else 87 + k := by
  unfold digit
  split <;> exact UInt8.toNat_ofNat_of_lt' (by simp [UInt8.size]; omega)

theorem isDigit_digit {k : Nat} (h : k < 16) : IsDigit (digit k) := by
  unfold IsDigit
  rw [toNat_digit h]
  split <;> omega

theorem digitVal_digit {k : Nat} (h : k < 16) : digitVal (digit k) = k := by
  unfold digitVal
  rw [toNat_digit h]
  split <;> split <;> omega

theorem digitVal_lt {c : UInt8} (h : IsDigit c) : digitVal c < 16 := by
  unfold digitVal
  rcases h with ⟨lo, hi⟩ | ⟨lo, hi⟩ <;> split <;> omega

theorem digit_digitVal {c : UInt8} (h : IsDigit c) : digit (digitVal c) = c := by
  apply UInt8.toNat_inj.mp
  rw [toNat_digit (digitVal_lt h), digitVal]
  rcases h with ⟨lo, hi⟩ | ⟨lo, hi⟩ <;> split <;> split <;> omega

theorem IsDigit.cases {c : UInt8} (h : IsDigit c) {P : UInt8 → Prop} (all : ∀ k < 16, P (digit k)) : P c := by
  rw [← digit_digitVal h]
  exact all _ (digitVal_lt h)

/-- The byte a pair of digits spells. -/
def pair (a b : UInt8) : UInt8 := UInt8.ofNat (digitVal a * 16 + digitVal b)

theorem pair_digits (b : UInt8) : pair (digit (b.toNat / 16)) (digit (b.toNat % 16)) = b := by
  have range := b.toNat_lt
  unfold pair
  rw [digitVal_digit (by omega), digitVal_digit (by omega), Nat.div_add_mod', UInt8.ofNat_toNat]

theorem toNat_pair {a b : UInt8} (ha : IsDigit a) (hb : IsDigit b) :
    (pair a b).toNat = digitVal a * 16 + digitVal b := by
  have high := digitVal_lt ha
  have low := digitVal_lt hb
  exact UInt8.toNat_ofNat_of_lt' (by simp [UInt8.size]; omega)

def mapPairs (f : UInt8 → UInt8 → UInt8) : List UInt8 → List UInt8
  | a :: b :: rest => f a b :: mapPairs f rest
  | _ => []

theorem mapPairs_congr {f g : UInt8 → UInt8 → UInt8} :
    ∀ {cs : List UInt8}, (∀ a ∈ cs, ∀ b ∈ cs, f a b = g a b) → mapPairs f cs = mapPairs g cs
  | a :: b :: rest, same => by
    rw [mapPairs, mapPairs, same a (by simp) b (by simp)]
    congr 1
    exact mapPairs_congr fun x hx y hy => same x (by simp [hx]) y (by simp [hy])
  | [_], _ => rfl
  | [], _ => rfl

theorem length_mapPairs (f : UInt8 → UInt8 → UInt8) :
    ∀ cs : List UInt8, (mapPairs f cs).length = cs.length / 2
  | a :: b :: rest => by
    have ih := length_mapPairs f rest
    unfold mapPairs
    simp only [List.length_cons]
    omega
  | [_] => by simp [mapPairs]
  | [] => by simp [mapPairs]

def unhex : List UInt8 → List UInt8 := mapPairs pair

def toHex : List UInt8 → List UInt8
  | [] => []
  | b :: rest => digit (b.toNat / 16) :: digit (b.toNat % 16) :: toHex rest

theorem unhex_toHex (bytes : List UInt8) : unhex (toHex bytes) = bytes := by
  induction bytes with
  | nil => rfl
  | cons b rest ih => exact congrArg₂ List.cons (pair_digits b) ih

/-- Hex text of whole bytes is the hex form of the bytes it spells. -/
theorem toHex_unhex : ∀ {cs : List UInt8}, (∀ c ∈ cs, IsDigit c) → cs.length % 2 = 0 → toHex (unhex cs) = cs
  | a :: b :: rest, hex, even => by
    have ha := hex a (by simp)
    have hb := hex b (by simp)
    have high := digitVal_lt ha
    have low := digitVal_lt hb
    have ih : toHex (unhex rest) = rest :=
      toHex_unhex (fun c hc => hex c (by simp [hc])) (by simp only [List.length_cons] at even; omega)
    show digit ((pair a b).toNat / 16) :: digit ((pair a b).toNat % 16) :: toHex (unhex rest) = _
    rw [ih, toNat_pair ha hb, show (digitVal a * 16 + digitVal b) / 16 = digitVal a by omega,
      show (digitVal a * 16 + digitVal b) % 16 = digitVal b by omega, digit_digitVal ha, digit_digitVal hb]
  | [], _, _ => rfl
  | [_], _, even => by simp at even

theorem length_toHex (bytes : List UInt8) : (toHex bytes).length = 2 * bytes.length := by
  induction bytes with
  | nil => rfl
  | cons b rest ih => rw [toHex, List.length_cons, List.length_cons, List.length_cons, ih]; omega

theorem isDigit_of_mem_toHex {bytes : List UInt8} {c : UInt8} (h : c ∈ toHex bytes) : IsDigit c := by
  induction bytes with
  | nil => cases h
  | cons b rest ih =>
    have range := b.toNat_lt
    rcases List.mem_cons.mp h with rfl | h
    · exact isDigit_digit (by omega)
    · rcases List.mem_cons.mp h with rfl | h
      · exact isDigit_digit (by omega)
      · exact ih h

/-! ### Hex numerals -/

/-- The number that a hex text spells, its most significant digit first. -/
def numeral (cs : List UInt8) : Nat := Nat.ofDigits 16 (cs.reverse.map digitVal)

theorem numeral_append (xs ys : List UInt8) :
    numeral (xs ++ ys) = numeral xs * 16 ^ ys.length + numeral ys := by
  unfold numeral
  simp only [List.reverse_append, List.map_append, Nat.ofDigits_append, List.length_map,
    List.length_reverse]
  rw [Nat.mul_comm, Nat.add_comm]

theorem numeral_pair (a b : UInt8) : numeral [a, b] = digitVal a * 16 + digitVal b := by
  simp [numeral, Nat.ofDigits_cons]
  omega

end HexText

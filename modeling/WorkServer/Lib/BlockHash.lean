import Mathlib.Data.List.Infix
import Mathlib.Data.List.Induction
import Mathlib.Tactic.Common

/-!
# Iterated block functions

A function of states and blocks, run over the blocks of a message from a first state.
`push` takes the message one item at a time and keeps the items of a block that is not
full yet. `pad` brings a message to a whole number of blocks, the last of which ends
with a field for its length; it is then no suffix of another padded message, and two
messages with one result give two inputs with one result of the block function.
-/

namespace BlockHash

/-! ### Blocks -/

section Blocks
variable {α : Type} {n : Nat}

/-- The whole blocks of a list, from its front. -/
def blocks (n : Nat) (xs : List α) : List (List α) :=
  (List.range (xs.length / n)).map fun i => (xs.drop (n * i)).take n

/-- What the whole blocks leave over. -/
def rest (n : Nat) (xs : List α) : List α := xs.drop (n * (xs.length / n))

theorem length_rest (xs : List α) : (rest n xs).length = xs.length % n := by
  have whole := Nat.div_add_mod xs.length n
  rw [rest, List.length_drop]
  omega

theorem rest_of_lt {xs : List α} (short : xs.length < n) : rest n xs = xs := by
  rw [rest, Nat.div_eq_of_lt short, Nat.mul_zero, List.drop_zero]

theorem blocks_of_lt {xs : List α} (short : xs.length < n) : blocks n xs = [] := by
  rw [blocks, Nat.div_eq_of_lt short]
  rfl

theorem blocks_append (pos : 0 < n) {xs : List α} (whole : xs.length = n) (ys : List α) :
    blocks n (xs ++ ys) = xs :: blocks n ys := by
  unfold blocks
  rw [List.length_append, whole, Nat.add_div_left _ pos, List.range_succ_eq_map, List.map_cons, List.map_map]
  congr 1
  · simp [← whole]
  · refine List.map_congr_left fun i _ => ?_
    rw [Function.comp_apply, Nat.mul_succ, Nat.add_comm, ← whole, ← List.drop_drop, List.drop_left]

theorem rest_append (pos : 0 < n) {xs : List α} (whole : xs.length = n) (ys : List α) :
    rest n (xs ++ ys) = rest n ys := by
  unfold rest
  rw [List.length_append, whole, Nat.add_div_left _ pos, Nat.mul_succ, Nat.add_comm, ← List.drop_drop,
    List.drop_left' whole]

/-- The induction on lists by whole blocks. -/
theorem block_induction (pos : 0 < n) {P : List α → Prop} (short : ∀ xs, xs.length < n → P xs)
    (long : ∀ b xs, b.length = n → P xs → P (b ++ xs)) (xs : List α) : P xs := by
  induction hk : xs.length using Nat.strong_induction_on generalizing xs with
  | _ k ih =>
    rcases Nat.lt_or_ge xs.length n with few | many
    · exact short xs few
    · have smaller : (xs.drop n).length < k := by
        rw [List.length_drop]
        omega
      have step := long (xs.take n) (xs.drop n) (List.length_take_of_le many) (ih _ smaller _ rfl)
      rwa [List.take_append_drop] at step

theorem flatten_blocks (pos : 0 < n) (xs : List α) : (blocks n xs).flatten ++ rest n xs = xs := by
  induction xs using block_induction pos with
  | short xs few => rw [blocks_of_lt few, rest_of_lt few, List.flatten_nil, List.nil_append]
  | long b xs whole ih =>
    rw [blocks_append pos whole, rest_append pos whole, List.flatten_cons, List.append_assoc, ih]

theorem length_of_mem_blocks (pos : 0 < n) (xs : List α) : ∀ b ∈ blocks n xs, b.length = n := by
  induction xs using block_induction pos with
  | short xs few => simp [blocks_of_lt few]
  | long b xs whole ih =>
    rw [blocks_append pos whole]
    intro c hc
    rcases List.mem_cons.mp hc with rfl | old
    · exact whole
    · exact ih c old

theorem flatten_blocks_of_dvd {xs : List α} (whole : n ∣ xs.length) : (blocks n xs).flatten = xs := by
  rcases Nat.eq_zero_or_pos n with rfl | pos
  · obtain rfl : xs = [] := List.length_eq_zero_iff.mp (Nat.eq_zero_of_zero_dvd whole)
    simp [blocks]
  · have whole_only : rest n xs = [] := by
      apply List.length_eq_zero_iff.mp
      rw [length_rest, Nat.mod_eq_zero_of_dvd whole]
    have joined := flatten_blocks pos xs
    rwa [whole_only, List.append_nil] at joined

end Blocks

/-! ### One item at a time -/

section Push
variable {σ α : Type} (f : σ → List α → σ) (n : Nat)

/-- One more item for the state and the items kept for the next block. -/
def push : σ × List α → α → σ × List α
  | (s, kept), x =>
    if (kept ++ [x]).length = n then (f s (kept ++ [x]), []) else (s, kept ++ [x])

def chain (s : σ) (xs : List α) : σ := (blocks n xs).foldl f s

variable {f n} {s : σ}

theorem push_few (kept xs : List α) (few : (kept ++ xs).length < n) :
    xs.foldl (push f n) (s, kept) = (s, kept ++ xs) := by
  induction xs generalizing kept with
  | nil => rw [List.append_nil, List.foldl_nil]
  | cons x xs ih =>
    rw [List.append_cons] at few ⊢
    have room : (kept ++ [x]).length ≠ n := by
      rw [List.length_append] at few
      omega
    rw [List.foldl_cons, push, if_neg room, ih _ few]

theorem push_block {b : List α} (pos : 0 < n) (whole : b.length = n) :
    b.foldl (push f n) (s, []) = (f s b, []) := by
  induction b using List.reverseRecOn with
  | nil => simp only [List.length_nil] at whole; omega
  | append_singleton xs x _ =>
    have few : ([] ++ xs).length < n := by
      simp only [List.length_append, List.length_singleton] at whole
      rw [List.nil_append]
      omega
    rw [List.foldl_append, push_few [] xs few, List.nil_append, List.foldl_cons, List.foldl_nil, push,
      if_pos whole]

/-- However many items have come, the state is that of the whole blocks and the rest is kept. -/
theorem push_eq_chain (pos : 0 < n) (xs : List α) :
    xs.foldl (push f n) (s, []) = (chain f n s xs, rest n xs) := by
  unfold chain
  induction xs using block_induction pos generalizing s with
  | short xs few =>
    rw [push_few [] xs (by simpa using few), blocks_of_lt few, rest_of_lt few, List.nil_append, List.foldl_nil]
  | long b xs whole ih =>
    rw [List.foldl_append, push_block pos whole, ih, blocks_append pos whole, rest_append pos whole,
      List.foldl_cons]

theorem chain_of_lt {xs : List α} (short : xs.length < n) : chain f n s xs = s := by
  rw [chain, blocks_of_lt short, List.foldl_nil]

theorem chain_cons {b : List α} (pos : 0 < n) (whole : b.length = n) (xs : List α) :
    chain f n s (b ++ xs) = chain f n (f s b) xs := by
  unfold chain
  rw [blocks_append pos whole, List.foldl_cons]

theorem chain_block {b : List α} (pos : 0 < n) (whole : b.length = n) : chain f n s b = f s b := by
  have one := chain_cons (f := f) (s := s) pos whole []
  rwa [List.append_nil, chain_of_lt (s := f s b) pos] at one

/-- The whole blocks of a message can be taken before the rest of it is known. -/
theorem chain_append (pos : 0 < n) (xs ys : List α) :
    chain f n s (xs ++ ys) = chain f n (chain f n s xs) (rest n xs ++ ys) := by
  induction xs using block_induction pos generalizing s with
  | short xs few => rw [rest_of_lt few, chain_of_lt few]
  | long b xs whole ih =>
    rw [List.append_assoc, chain_cons pos whole, chain_cons pos whole, ih, rest_append pos whole]

end Push

/-! ### Padding -/

section Padding
variable {α : Type} (n w : Nat) (mark zero : α) (field : Nat → List α)

/-- The least number of items that brings `len` items, a mark and a field of `w` items to whole blocks. -/
def gap (len : Nat) : Nat := (n - (len + 1 + w) % n) % n

def pad (xs : List α) : List α :=
  xs ++ [mark] ++ List.replicate (gap n w xs.length) zero ++ field xs.length

variable {n w mark zero field}

theorem dvd_gap (pos : 0 < n) (len : Nat) : n ∣ len + 1 + gap n w len + w := by
  have small := Nat.mod_lt (len + 1 + w) pos
  have whole := Nat.div_add_mod (len + 1 + w) n
  unfold gap
  rcases Nat.eq_zero_or_pos ((len + 1 + w) % n) with exact_ | partly
  · rw [exact_, Nat.sub_zero, Nat.mod_self]
    exact Nat.dvd_of_mod_eq_zero exact_
  · rw [Nat.mod_eq_of_lt (show n - (len + 1 + w) % n < n by omega)]
    refine ⟨(len + 1 + w) / n + 1, ?_⟩
    rw [Nat.mul_succ]
    omega

theorem length_pad (width : ∀ len, (field len).length = w) (xs : List α) :
    (pad n w mark zero field xs).length = xs.length + 1 + gap n w xs.length + w := by
  simp only [pad, List.length_append, List.length_singleton, List.length_replicate, width]

theorem dvd_length_pad (pos : 0 < n) (width : ∀ len, (field len).length = w) (xs : List α) :
    n ∣ (pad n w mark zero field xs).length := by
  rw [length_pad width]
  exact dvd_gap pos xs.length

/-- The field at the end of a padded message fixes where the message begins and ends in it. -/
theorem eq_of_pad_suffix (width : ∀ len, (field len).length = w) {xs ys : List α}
    (lengths : field xs.length = field ys.length → xs.length = ys.length)
    (ends : pad n w mark zero field xs <:+ pad n w mark zero field ys) : xs = ys := by
  have fields : field xs.length = field ys.length := by
    have tail := List.suffix_append (xs ++ [mark] ++ List.replicate (gap n w xs.length) zero) (field xs.length)
    have other := List.suffix_append (ys ++ [mark] ++ List.replicate (gap n w ys.length) zero) (field ys.length)
    refine List.IsSuffix.eq_of_length (List.suffix_of_suffix_length_le (tail.trans ends) other ?_) ?_
    · rw [width, width]
    · rw [width, width]
  have same := lengths fields
  have whole : pad n w mark zero field xs = pad n w mark zero field ys := by
    refine List.IsSuffix.eq_of_length ends ?_
    rw [length_pad width, length_pad width, same]
  have fronts := congrArg (List.take xs.length) whole
  unfold pad at fronts
  simp only [List.append_assoc] at fronts
  rwa [List.take_left, same, List.take_left] at fronts

theorem eq_of_pad_blocks_suffix (pos : 0 < n) (width : ∀ len, (field len).length = w) {xs ys : List α}
    (lengths : field xs.length = field ys.length → xs.length = ys.length)
    (ends : blocks n (pad n w mark zero field xs) <:+ blocks n (pad n w mark zero field ys)) : xs = ys := by
  have flat := ends.flatten
  rw [flatten_blocks_of_dvd (dvd_length_pad pos width xs), flatten_blocks_of_dvd (dvd_length_pad pos width ys)] at flat
  exact eq_of_pad_suffix width lengths flat

end Padding

/-! ### Collisions -/

section Collisions
variable {σ β : Type} {f : σ → β → σ} {s : σ}

/-- Two different pairs of a state and a block with one result, each met in a run of the block
function: from `s`, over the blocks before it. -/
structure Collision (f : σ → β → σ) (s : σ) (bs cs : List β) where
  us : List β
  vs : List β
  b : β
  c : β
  us_prefix : us ++ [b] <+: bs
  vs_prefix : vs ++ [c] <+: cs
  differ : us.foldl f s ≠ vs.foldl f s ∨ b ≠ c
  equal : f (us.foldl f s) b = f (vs.foldl f s) c

/-- Two runs that end in one state have met a collision, unless one is the end of the other. -/
theorem collision_of_foldl {bs cs : List β} (same : bs.foldl f s = cs.foldl f s) (left : ¬ bs <:+ cs)
    (right : ¬ cs <:+ bs) : Nonempty (Collision f s bs cs) := by
  induction bs using List.reverseRecOn generalizing cs with
  | nil => exact absurd (List.nil_suffix) left
  | append_singleton bs b ih =>
    rcases List.eq_nil_or_concat cs with rfl | ⟨cs, c, rfl⟩
    · exact absurd (List.nil_suffix) right
    · rw [List.concat_eq_append] at *
      have last : f (bs.foldl f s) b = f (cs.foldl f s) c := by
        simpa only [List.foldl_append, List.foldl_cons, List.foldl_nil] using same
      by_cases states : bs.foldl f s = cs.foldl f s
      · by_cases blocks : b = c
        · subst blocks
          rw [List.suffix_append_self_iff] at left right
          obtain ⟨met⟩ := ih states left right
          exact ⟨{ met with
            us_prefix := met.us_prefix.trans (List.prefix_append bs [b])
            vs_prefix := met.vs_prefix.trans (List.prefix_append cs [b]) }⟩
        · exact ⟨⟨bs, cs, b, c, List.prefix_rfl, List.prefix_rfl, Or.inr blocks, last⟩⟩
      · exact ⟨⟨bs, cs, b, c, List.prefix_rfl, List.prefix_rfl, Or.inl states, last⟩⟩

end Collisions

end BlockHash

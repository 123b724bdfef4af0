import WorkServer.Sha256.Transform

/-!
# Contexts and the bytes they have taken

Between two calls a context stands for the bytes it has taken since `sha256_init`: its
state is that of their whole blocks, its buffer keeps the rest of them, and its count
is their length. `sha256_update` adds the bytes it is given, in whatever pieces they
come, and `sha256_final` leaves the standard's digest of all of them.
-/

namespace WorkServer.Sha256
open BigEndian BlockHash Tracing Standard

variable {n : Nat} {ctx : Ctx} {message : List BYTE}

/-- The bytes of the block that is being filled. -/
def kept (ctx : Ctx) : List BYTE := slice ctx.data 0 ctx.datalen.toNat

/-- The bits counted so far, those of the block that is being filled included. -/
def bits (ctx : Ctx) : UInt64 := ctx.bitlen + (ctx.datalen * 8).toUInt64

structure Holds (ctx : Ctx) (message : List BYTE) : Prop where
  room : ctx.datalen.toNat < 64
  absorbed : message.foldl (push compress 64) (H0, []) = (ctx.state, kept ctx)
  counted : bits ctx = UInt64.ofNat (8 * message.length)

theorem holds_init (ctx : Ctx) : Holds (init ctx) [] where
  room := Nat.zero_lt_succ 63
  absorbed := by rw [List.foldl_nil, init_state]; rfl
  counted := rfl

theorem Holds.state_eq (holds : Holds ctx message) : ctx.state = chain compress 64 H0 message := by
  have absorbed := holds.absorbed
  rw [push_eq_chain (by decide)] at absorbed
  exact (congrArg Prod.fst absorbed).symm

theorem Holds.kept_eq (holds : Holds ctx message) : kept ctx = rest 64 message := by
  have absorbed := holds.absorbed
  rw [push_eq_chain (by decide)] at absorbed
  exact (congrArg Prod.snd absorbed).symm

theorem Holds.datalen_eq (holds : Holds ctx message) : ctx.datalen.toNat = message.length % 64 := by
  rw [← length_rest, ← holds.kept_eq, kept, length_slice]

/-! ### One byte -/

theorem toNat_datalen_succ (room : ctx.datalen.toNat < 64) : (ctx.datalen + 1).toNat = ctx.datalen.toNat + 1 := by
  rw [UInt32.toNat_add]
  exact Nat.mod_eq_of_lt (show ctx.datalen.toNat + 1 < 2 ^ 32 by omega)

theorem slice_write_end (data : Arr 64) {d : Nat} (room : d < 64) (x : BYTE) :
    slice (write data d x).val 0 (d + 1) = slice data 0 d ++ [x] := by
  rw [slice_succ]
  congr 1
  · apply slice_congr
    intro i hi
    rw [entry_write data room, if_neg (by omega)]
  · rw [Nat.zero_add, entry_write data room, if_pos rfl]

theorem updateByte_few (few : ctx.datalen.toNat + 1 < 64) (x : BYTE) :
    (updateByte ctx x).val =
      { ctx with data := (write ctx.data ctx.datalen.toNat x).val, datalen := ctx.datalen + 1 } := by
  have more : ctx.datalen + 1 ≠ 64 := by
    intro full
    have succ := @toNat_datalen_succ ctx (by omega)
    rw [full] at succ
    exact absurd succ (by simp; omega)
  unfold updateByte
  simp only [val_bind, val_ite, val_pure]
  rw [if_neg more]

theorem updateByte_full (full : ctx.datalen.toNat + 1 = 64) (x : BYTE) :
    (updateByte ctx x).val =
      { data := (write ctx.data ctx.datalen.toNat x).val
        datalen := 0
        bitlen := ctx.bitlen + 512
        state := compress ctx.state (kept ctx ++ [x]) } := by
  have ends : ctx.datalen + 1 = 64 := by
    apply UInt32.toNat_inj.mp
    rw [toNat_datalen_succ (by omega), full]
    rfl
  have block : (write ctx.data ctx.datalen.toNat x).val.toList = kept ctx ++ [x] := by
    have filled := slice_write_end ctx.data (show ctx.datalen.toNat < 64 by omega) x
    rwa [full, slice_toList] at filled
  unfold updateByte
  simp only [val_bind, val_ite, val_pure]
  rw [if_pos ends, transform_val, block]

theorem room_updateByte (room : ctx.datalen.toNat < 64) (x : BYTE) : (updateByte ctx x).val.datalen.toNat < 64 := by
  rcases Nat.lt_or_eq_of_le (show ctx.datalen.toNat + 1 ≤ 64 by omega) with few | full
  · rw [updateByte_few few x]
    show (ctx.datalen + 1).toNat < 64
    rw [toNat_datalen_succ room]
    exact few
  · rw [updateByte_full full x]
    exact Nat.zero_lt_succ 63

theorem holds_updateByte (holds : Holds ctx message) (x : BYTE) : Holds (updateByte ctx x).val (message ++ [x]) := by
  have room := holds.room
  have length : (kept ctx ++ [x]).length = ctx.datalen.toNat + 1 := by simp [kept]
  have eight : UInt64.ofNat (8 * (message ++ [x]).length) = bits ctx + 8 := by
    rw [holds.counted, List.length_append, List.length_singleton, Nat.mul_succ, UInt64.ofNat_add]
    rfl
  rcases Nat.lt_or_eq_of_le (show ctx.datalen.toNat + 1 ≤ 64 by omega) with few | full
  · rw [updateByte_few few x]
    have succ := toNat_datalen_succ room
    refine ⟨updateByte_few few x ▸ room_updateByte room x, ?_, ?_⟩
    · rw [List.foldl_append, holds.absorbed, List.foldl_cons, List.foldl_nil, push, length, if_neg (by omega)]
      unfold kept
      rw [succ, slice_write_end ctx.data room x]
    · have longer : ((ctx.datalen + 1) * 8).toUInt64 = (ctx.datalen * 8).toUInt64 + 8 := by
        apply UInt64.toNat_inj.mp
        rw [UInt64.toNat_add, UInt32.toNat_toUInt64, UInt32.toNat_toUInt64, UInt32.toNat_mul, UInt32.toNat_mul, succ]
        simp only [UInt32.reduceToNat, UInt64.reduceToNat]
        omega
      rw [eight]
      unfold bits
      rw [longer, UInt64.add_assoc]
  · rw [updateByte_full full x]
    refine ⟨Nat.zero_lt_succ 63, ?_, ?_⟩
    · rw [List.foldl_append, holds.absorbed, List.foldl_cons, List.foldl_nil, push, length, if_pos full]
      rfl
    · rw [eight]
      unfold bits
      rw [show ctx.datalen = 63 from UInt32.toNat_inj.mp (Nat.succ.inj full)]
      rw [show ((0 : WORD) * 8).toUInt64 = 0 by decide, show ((63 : WORD) * 8).toUInt64 = 504 by decide,
        UInt64.add_zero, UInt64.add_assoc, show (504 : UInt64) + 8 = 512 by decide]

theorem safe_updateByte (room : ctx.datalen.toNat < 64) (x : BYTE) : Safe (updateByte ctx x) := by
  unfold updateByte
  simp only [safe_bind, safe_write]
  refine ⟨room, ?_⟩
  split
  · rw [safe_bind]
    exact ⟨safe_transform _ _, safe_pure _⟩
  · exact safe_pure _

/-! ### `sha256_update` -/

variable (data : Arr n) {len : Nat}

/-- The invariant rule of the loop from byte `i` on, for a property of the context and the bytes it has
taken. The loop gets to the length if it can count to it. -/
theorem updateLoop_inv (P : List BYTE → Ctx → Prop) (counts : len < 2 ^ 32) (fits : len ≤ n)
    (step : ∀ message ctx x, P message ctx → Safe (updateByte ctx x) ∧ P (message ++ [x]) (updateByte ctx x).val)
    (fuel : Nat) (i : WORD) (start : i.toNat ≤ len) (enough : len - i.toNat ≤ fuel) (before : P message ctx) :
    Safe (updateLoop data len fuel i ctx) ∧ ∃ ctx', (updateLoop data len fuel i ctx).val = some ctx' ∧
      P (message ++ slice data i.toNat (len - i.toNat)) ctx' := by
  induction fuel generalizing i ctx message with
  | zero =>
    have none : len - i.toNat = 0 := by omega
    unfold updateLoop
    rw [if_neg (by omega), none]
    exact ⟨safe_pure _, ctx, rfl, by simpa [slice] using before⟩
  | succ fuel ih =>
    unfold updateLoop
    split
    · rename_i more
      have next : (i + 1).toNat = i.toNat + 1 := by
        rw [UInt32.toNat_add]
        exact Nat.mod_eq_of_lt (show i.toNat + 1 < 2 ^ 32 by omega)
      obtain ⟨safeByte, taken⟩ := step message ctx (entry data i.toNat) before
      obtain ⟨safe, ctx', returned, after⟩ := ih (i + 1) (by omega) (by omega) taken
      have bytes : slice data i.toNat (len - i.toNat) =
          entry data i.toNat :: slice data (i.toNat + 1) (len - (i.toNat + 1)) := by
        rw [show len - i.toNat = 1 + (len - (i.toNat + 1)) by omega, slice_add]
        rfl
      rw [safe_bind, safe_bind, val_bind, val_bind, read_val, safe_read, bytes, List.append_cons]
      rw [next] at after
      exact ⟨⟨by omega, safeByte, safe⟩, ctx', returned, after⟩
    · rename_i done
      have none : len - i.toNat = 0 := by omega
      rw [none]
      exact ⟨safe_pure _, ctx, rfl, by simpa [slice] using before⟩

theorem update_inv (P : List BYTE → Ctx → Prop) (counts : len < 2 ^ 32) (fits : len ≤ n)
    (step : ∀ message ctx x, P message ctx → Safe (updateByte ctx x) ∧ P (message ++ [x]) (updateByte ctx x).val)
    {fuel : Nat} (enough : len ≤ fuel) (before : P [] ctx) : Safe (update fuel ctx data len) ∧
      ∃ ctx', (update fuel ctx data len).val = some ctx' ∧ P (slice data 0 len) ctx' :=
  updateLoop_inv data P counts fits step fuel 0 (Nat.zero_le len) enough before

theorem update_val (counts : len < 2 ^ 32) (fits : len ≤ n) {fuel : Nat} (enough : len ≤ fuel)
    (holds : Holds ctx message) : Safe (update fuel ctx data len) ∧
      ∃ ctx', (update fuel ctx data len).val = some ctx' ∧ Holds ctx' (message ++ slice data 0 len) := by
  refine update_inv data (fun bytes ctx => Holds ctx (message ++ bytes)) counts fits ?_ enough ?_
  · intro bytes ctx x holds
    rw [← List.append_assoc]
    exact ⟨safe_updateByte holds.room x, holds_updateByte holds x⟩
  · rwa [List.append_nil]

/-- The loop returns after as many iterations as there are bytes left, unless its counter is too short for them. -/
theorem updateLoop_isSome (fuel : Nat) (i : WORD) (ctx : Ctx) (start : i.toNat ≤ len) :
    (updateLoop data len fuel i ctx).val.isSome ↔ len < 2 ^ 32 ∧ len ≤ fuel + i.toNat := by
  induction fuel generalizing i ctx with
  | zero =>
    have short := i.toNat_lt
    unfold updateLoop
    split
    · simp; omega
    · simp; omega
  | succ fuel ih =>
    have short := i.toNat_lt
    unfold updateLoop
    split
    · rename_i more
      rw [val_bind, val_bind]
      have next : (i + 1).toNat = (i.toNat + 1) % 2 ^ 32 := UInt32.toNat_add i 1
      rw [ih (i + 1) _ (by omega)]
      -- The counter wraps only if the length is past every counter.
      omega
    · rename_i done
      simp; omega

/-- `sha256_update` returns exactly when its 32-bit counter can get to the length, which has 64 bits. -/
theorem update_returns_iff (ctx : Ctx) (data : Arr n) (len : Nat) :
    (∃ fuel ctx', (update fuel ctx data len).val = some ctx') ↔ len < 2 ^ 32 := by
  have returns : ∀ fuel, (∃ ctx', (update fuel ctx data len).val = some ctx') ↔ len < 2 ^ 32 ∧ len ≤ fuel := by
    intro fuel
    rw [← Option.isSome_iff_exists]
    exact updateLoop_isSome data fuel 0 ctx (Nat.zero_le len)
  constructor
  · intro returned
    obtain ⟨fuel, returned⟩ := returned
    exact ((returns fuel).mp returned).1
  · intro counts
    exact ⟨len, (returns len).mpr ⟨counts, Nat.le_refl len⟩⟩

/-! ### `sha256_final` -/

theorem toUInt8_shiftRight (x : UInt64) {i : Nat} (low : i < 8) :
    (x >>> UInt64.ofNat (8 * i)).toUInt8 = UInt8.ofNat (x.toNat / 256 ^ i) := by
  apply UInt8.toNat_inj.mp
  rw [UInt64.toNat_toUInt8, UInt64.toNat_shiftRight, UInt64.toNat_ofNat', UInt8.toNat_ofNat',
    Nat.mod_eq_of_lt (show 8 * i < 2 ^ 64 by omega), Nat.mod_eq_of_lt (show 8 * i < 64 by omega), Nat.shiftRight_eq_div_pow,
    Nat.pow_mul]

theorem toList_putLength (block : Arr 64) (bitlen : UInt64) :
    (putLength block bitlen).val.toList = slice block 0 56 ++ beBytes 8 bitlen.toNat := by
  have entries : ∀ j < 64, entry (putLength block bitlen).val j =
      if 64 ≤ j + 8 then (beBytes 8 bitlen.toNat).getD (j - 56) 0 else entry block j := by
    unfold putLength
    refine forUp_inv (fun i w => ∀ j < 64, entry w j =
      if 64 ≤ j + i then (beBytes 8 bitlen.toNat).getD (j - 56) 0 else entry block j) ?_ ?_
    · intro j hj
      rw [if_neg (by omega)]
    · intro i hi w before j hj
      rw [entry_write w (by omega), before j hj]
      by_cases here : j = 63 - i
      · rw [if_pos here, if_pos (by omega), getD_beBytes 8 _ (by omega), toUInt8_shiftRight bitlen hi]
        rw [show 8 - 1 - (j - 56) = i by omega]
      · rw [if_neg here]
        congr 1
        exact propext ⟨fun h => by omega, fun h => by omega⟩
  have front : slice (putLength block bitlen).val 0 56 = slice block 0 56 := by
    apply slice_congr
    intro j hj
    rw [entries (0 + j) (by omega), if_neg (by omega)]
  have field : slice (putLength block bitlen).val 56 8 = beBytes 8 bitlen.toNat := by
    have spelt := slice_eq_of_entry (v := (putLength block bitlen).val) (beBytes 8 bitlen.toNat) 0 fun j hj => by
      rw [length_beBytes] at hj
      rw [entries (56 + j) (by omega), if_pos (by omega), Nat.add_sub_cancel_left]
    rwa [length_beBytes] at spelt
  rw [← slice_toList, ← front, ← field]
  exact slice_add _ 0 56 8

/-- The buffer after the mark and the zeros up to `stop`. -/
def marked (ctx : Ctx) (stop : Nat) : Arr 64 :=
  (fill (write ctx.data ctx.datalen.toNat 0x80).val (ctx.datalen + 1) stop).val

theorem slice_marked {stop : Nat} (below : ctx.datalen.toNat < stop) (fits : stop ≤ 64) :
    slice (marked ctx stop) 0 stop =
      kept ctx ++ [0x80] ++ List.replicate (stop - (ctx.datalen.toNat + 1)) 0x00 := by
  have succ := @toNat_datalen_succ ctx (by omega)
  have entries : ∀ j, entry (marked ctx stop) j =
      if ctx.datalen.toNat + 1 ≤ j ∧ j < stop then 0x00 else if j = ctx.datalen.toNat then 0x80 else entry ctx.data j := by
    intro j
    unfold marked fill
    rw [succ, entry_forUp_write _ (by omega) (fun _ => 0x00) (fun i _ w => rfl), entry_write ctx.data (by omega)]
    congr 1
    exact propext ⟨fun h => by omega, fun h => by omega⟩
  have zeros : slice (marked ctx stop) (ctx.datalen.toNat + 1) (stop - (ctx.datalen.toNat + 1)) =
      List.replicate (stop - (ctx.datalen.toNat + 1)) 0x00 := by
    refine List.eq_replicate_iff.mpr ⟨length_slice _ _ _, fun x hx => ?_⟩
    obtain ⟨i, hi, rfl⟩ := List.mem_map.mp hx
    rw [List.mem_range] at hi
    rw [entries, if_pos (by omega)]
  have front : slice (marked ctx stop) 0 ctx.datalen.toNat = kept ctx := by
    apply slice_congr
    intro j hj
    rw [entries, if_neg (by omega), if_neg (by omega)]
  have parts := slice_add (marked ctx stop) 0 (ctx.datalen.toNat + 1) (stop - (ctx.datalen.toNat + 1))
  rwa [Nat.add_sub_cancel' below, slice_succ, Nat.zero_add, Nat.zero_add, front, zeros, entries, if_neg (by omega),
    if_pos rfl] at parts

/-- The padding up to the length field: what is left to be hashed is one block, its first 56 bytes in the buffer. -/
theorem padData_val (room : ctx.datalen.toNat < 64) (field : List BYTE) (width : field.length = 8) :
    (padData ctx).val.datalen = ctx.datalen ∧ (padData ctx).val.bitlen = ctx.bitlen ∧
    compress (padData ctx).val.state (slice (padData ctx).val.data 0 56 ++ field) =
      chain compress 64 ctx.state
        (kept ctx ++ [0x80] ++ List.replicate (gap 64 8 ctx.datalen.toNat) 0x00 ++ field) := by
  unfold gap
  rcases Nat.lt_or_ge ctx.datalen.toNat 56 with short | long
  · have val : (padData ctx).val = { ctx with data := marked ctx 56 } := by
      unfold padData
      rw [if_pos (UInt32.lt_iff_toNat_lt.mpr short)]
      rfl
    rw [val, slice_marked short (by omega)]
    refine ⟨rfl, rfl, ?_⟩
    rw [show (64 - (ctx.datalen.toNat + 1 + 8) % 64) % 64 = 56 - (ctx.datalen.toNat + 1) by omega]
    symm
    apply chain_block (by omega)
    simp [kept, width]
    omega
  · have val : (padData ctx).val =
        { ctx with data := (bzero (marked ctx 64) 0 56).val, state := compress ctx.state (marked ctx 64).toList } := by
      unfold padData
      have past : ¬ ctx.datalen < 56 := UInt32.not_lt.mpr (UInt32.le_iff_toNat_le.mpr long)
      rw [if_neg past]
      simp only [val_bind, val_pure, transform_val]
      rfl
    have cleared : slice (bzero (marked ctx 64) 0 56).val 0 56 = List.replicate 56 0x00 := by
      refine List.eq_replicate_iff.mpr ⟨length_slice _ _ _, fun x hx => ?_⟩
      obtain ⟨i, hi, rfl⟩ := List.mem_map.mp hx
      rw [List.mem_range] at hi
      rw [entry_bzero _ (by omega), if_pos (by omega)]
    have block := slice_marked room (Nat.le_refl 64)
    rw [slice_toList] at block
    have zeros : (64 - (ctx.datalen.toNat + 1 + 8) % 64) % 64 = 64 - (ctx.datalen.toNat + 1) + 56 := by omega
    rw [val, cleared, zeros, List.replicate_add, ← List.append_assoc, ← block, List.append_assoc _ _ field]
    refine ⟨rfl, rfl, ?_⟩
    rw [chain_cons (by omega) (by simp), chain_block (by omega) (by simp [width])]

theorem chain_padded (holds : Holds ctx message) :
    chain compress 64 H0 (padded message) =
      chain compress 64 ctx.state (kept ctx ++ [0x80] ++ List.replicate (gap 64 8 ctx.datalen.toNat) 0x00 ++
        lengthField message.length) := by
  have gaps : gap 64 8 message.length = gap 64 8 ctx.datalen.toNat := by
    rw [holds.datalen_eq]
    unfold gap
    omega
  unfold padded pad
  rw [gaps, List.append_assoc, List.append_assoc, chain_append (by decide), ← holds.state_eq, ← holds.kept_eq]
  simp only [List.append_assoc]

theorem digestByte (w : WORD) {i : Nat} (low : i < 4) :
    (w >>> (24 - UInt32.ofNat i * 8) &&& 0x000000ff).toUInt8 = (beBytes 4 w.toNat).getD i 0 := by
  have amount : (24 - UInt32.ofNat i * 8 : WORD).toNat = 8 * (4 - 1 - i) := by
    interval_cases i <;> rfl
  rw [getD_beBytes 4 _ low]
  apply UInt8.toNat_inj.mp
  rw [UInt32.toNat_toUInt8, UInt32.toNat_and, UInt32.toNat_shiftRight, amount, UInt8.toNat_ofNat',
    Nat.mod_eq_of_lt (show 8 * (4 - 1 - i) < 32 by omega), Nat.shiftRight_eq_div_pow, Nat.pow_mul]
  show (_ &&& (2 ^ 8 - 1)) % 2 ^ 8 = _
  rw [Nat.and_two_pow_sub_one_eq_mod, Nat.mod_mod]

theorem entry_bytes (state : Vector WORD 8) {p : Nat} (hp : p < 32) :
    entry (bytes state) p = (beBytes 4 (entry state (p / 4)).toNat).getD (p % 4) 0 := by
  unfold bytes
  rw [entry_ofFn _ hp]

/-- The bytes `i + 4 * j` are written with `i` in the outer loop and `j` in the inner one. -/
theorem putDigest_val (state : Vector WORD 8) (hash : Arr 32) : (putDigest state hash).val = bytes state := by
  have written : ∀ p < 32, p % 4 < 4 → entry (putDigest state hash).val p = entry (bytes state) p := by
    unfold putDigest
    apply forUp_inv fun i w => ∀ p < 32, p % 4 < i → entry w p = entry (bytes state) p
    · intro p _ none
      omega
    · intro i hi w before
      have row : ∀ p < 32, p % 4 < i ∨ p % 4 = i ∧ p / 4 < 8 → entry (forUp 8 w fun j hash => do
          write hash (i + 4 * j) ((← read state j) >>> (24 - UInt32.ofNat i * 8) &&& 0x000000ff).toUInt8).val p =
            entry (bytes state) p := by
        refine forUp_inv (fun j w => ∀ p < 32, p % 4 < i ∨ p % 4 = i ∧ p / 4 < j →
          entry w p = entry (bytes state) p) ?_ ?_
        · intro p hp done
          exact before p hp (by omega)
        · intro j hj w before p hp done
          rw [val_bind, read_val, digestByte _ hi, entry_write w (by omega)]
          split
          · rename_i here
            rw [entry_bytes state hp, show p / 4 = j by omega, show p % 4 = i by omega]
          · exact before p hp (by omega)
      intro p hp done
      exact row p hp (by omega)
  apply entry_ext
  intro p hp
  exact written p hp (by omega)

/-- `sha256_final` writes the digest of the bytes that the context has taken, over whatever the
array held. -/
theorem final_val (holds : Holds ctx message) (hash : Arr 32) :
    (final ctx hash).val.2 = digest message := by
  have count : (bits ctx).toNat = 8 * message.length % 256 ^ 8 := by
    rw [holds.counted, UInt64.toNat_ofNat']
    rfl
  obtain ⟨datalen, bitlen, block⟩ := padData_val holds.room (lengthField message.length) (length_beBytes 8 _)
  have field : beBytes 8 ((padData ctx).val.bitlen + ((padData ctx).val.datalen * 8).toUInt64).toNat =
      lengthField message.length := by
    rw [datalen, bitlen]
    show beBytes 8 (bits ctx).toNat = _
    rw [count, beBytes_mod, lengthField]
  unfold final digest
  simp only [val_bind, val_pure, transform_val, putDigest_val, toList_putLength]
  rw [field, block, chain_padded holds]

theorem final_room (room : ctx.datalen.toNat < 64) (hash : Arr n) : (final ctx hash).val.1.datalen.toNat < 64 := by
  obtain ⟨datalen, -, -⟩ := padData_val room (lengthField 0) (length_beBytes 8 _)
  unfold final
  simp only [val_bind, val_pure, transform_val]
  rwa [datalen]

theorem safe_fill (block : Arr 64) {i : WORD} {stop : Nat} (fits : stop ≤ 64) : Safe (fill block i stop) :=
  safe_forUp fun j hj w => by simp; omega

theorem safe_putLength (block : Arr 64) (bitlen : UInt64) : Safe (putLength block bitlen) :=
  safe_forUp fun i hi w => by simp; omega

theorem safe_putDigest (state : Vector WORD 8) (hash : Arr 32) : Safe (putDigest state hash) := by
  refine safe_forUp fun i hi w => safe_forUp fun j hj w => ?_
  simp only [safe_bind, safe_read, safe_write]
  omega

theorem safe_padData (room : ctx.datalen.toNat < 64) : Safe (padData ctx) := by
  unfold padData
  split
  · simp only [safe_bind, safe_write, safe_pure, and_true]
    exact ⟨room, safe_fill _ (by decide)⟩
  · simp only [safe_bind, safe_write, safe_pure, safe_transform, and_true, true_and]
    exact ⟨room, safe_fill _ (by decide), safe_bzero (by decide)⟩

theorem not_safe_padData (full : ¬ ctx.datalen.toNat < 64) : ¬ Safe (padData ctx) := by
  unfold padData
  split
  · rename_i less
    exact absurd (UInt32.lt_iff_toNat_lt.mp less) (by simp; omega)
  · rw [safe_bind, safe_write]
    exact fun safe => full safe.1

theorem safe_final (room : ctx.datalen.toNat < 64) (hash : Arr 32) : Safe (final ctx hash) := by
  unfold final
  simp only [safe_bind, safe_pure, safe_putLength, safe_transform, safe_putDigest, and_true]
  exact safe_padData room

end WorkServer.Sha256

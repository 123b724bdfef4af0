import WorkServer.Sha256.Session

/-!
# Collisions

Two messages with one digest have made `sha256_transform` give one state for two
different pairs of a state and a block, both met while the messages were hashed: the
length at the end of a message leaves no other way.
-/

namespace WorkServer.Sha256
open BigEndian BlockHash Tracing Standard

theorem bytes_inj {H H' : Vector WORD 8} (same : bytes H = bytes H') : H = H' := by
  apply entry_ext
  intro j hj
  have word : beBytes 4 (entry H j).toNat = beBytes 4 (entry H' j).toNat := by
    apply List.ext_getElem
    · rw [length_beBytes, length_beBytes]
    · intro i h₁ h₂
      rw [length_beBytes] at h₁
      have byte := congrArg (entry · (i + 4 * j)) same
      simp only [entry_bytes _ (show i + 4 * j < 32 by omega), show (i + 4 * j) / 4 = j by omega,
        show (i + 4 * j) % 4 = i by omega] at byte
      simpa [List.getD_eq_getElem?_getD, h₁] using byte
  have value := congrArg beVal word
  rw [beVal_beBytes, beVal_beBytes, show 256 ^ 4 = 2 ^ 32 by norm_num, Nat.mod_eq_of_lt (entry H j).toNat_lt,
    Nat.mod_eq_of_lt (entry H' j).toNat_lt] at value
  exact UInt32.toNat_inj.mp value

theorem lengthField_inj {a b : Nat} (ha : a < 2 ^ 61) (hb : b < 2 ^ 61) (same : lengthField a = lengthField b) : a = b := by
  have value := congrArg beVal same
  unfold lengthField at value
  rw [beVal_beBytes, beVal_beBytes, Nat.mod_eq_of_lt (by omega), Nat.mod_eq_of_lt (by omega)] at value
  omega

/-- The blocks that a message is hashed in. -/
def paddedBlocks (message : List BYTE) : List (Arr 64) :=
  (blocks 64 (padded message)).map fun b => Vector.ofFn fun i => b.getD i 0

theorem map_toList_paddedBlocks (message : List BYTE) :
    (paddedBlocks message).map Vector.toList = blocks 64 (padded message) := by
  unfold paddedBlocks
  rw [List.map_map]
  refine (List.map_congr_left fun b hb => ?_).trans (List.map_id _)
  have whole := length_of_mem_blocks (show 0 < 64 by decide) _ b hb
  apply List.ext_getElem
  · simp [whole]
  · intro i h₁ h₂
    simp [List.getD_eq_getElem?_getD, show i < b.length from h₂]

theorem paddedBlocks_suffix {m m' : List BYTE} (short : m.length < 2 ^ 61) (short' : m'.length < 2 ^ 61)
    (ends : paddedBlocks m <:+ paddedBlocks m') : m = m' := by
  have lists := ends.map Vector.toList
  rw [map_toList_paddedBlocks, map_toList_paddedBlocks] at lists
  exact eq_of_pad_blocks_suffix (by decide) (fun len => length_beBytes 8 _) (lengthField_inj short short') lists

/-- The state that `sha256_transform` makes of a state and a block. -/
def nextState (ctx : Ctx) (H : Vector WORD 8) (block : Arr 64) : Vector WORD 8 :=
  (transform { ctx with state := H } block).val.state

theorem digest_eq_foldl (ctx : Ctx) (message : List BYTE) :
    digest message = bytes ((paddedBlocks message).foldl (nextState ctx) (init ctx).state) := by
  have step : nextState ctx = fun H block => compress H block.toList := by
    funext H block
    rw [nextState, transform_val]
  rw [digest, chain, ← map_toList_paddedBlocks, List.foldl_map, step, init_state]

/-- Two different messages either leave different digests, or they have shown a collision of
`sha256_transform`, however they were cut into pieces and whatever the contexts held before. -/
theorem digests_differ_or_collide (ctx ctx' : Ctx) (pieces pieces' : List Piece) (hash hash' : Arr 32)
    (short : (joined pieces).length < 2 ^ 61) (short' : (joined pieces').length < 2 ^ 61)
    (differ : joined pieces ≠ joined pieces') :
    (session (hashing pieces hash) ctx).val ≠ (session (hashing pieces' hash') ctx').val ∨
    Nonempty (Collision (nextState ctx) (init ctx).state (paddedBlocks (joined pieces)) (paddedBlocks (joined pieces'))) := by
  rw [or_iff_not_imp_left, not_not, session_hashing, session_hashing]
  intro same
  have digests := List.singleton_inj.mp same
  rw [digest_eq_foldl ctx, digest_eq_foldl ctx] at digests
  apply collision_of_foldl (bytes_inj digests)
  · exact fun ends => differ (paddedBlocks_suffix short short' ends)
  · exact fun ends => differ (paddedBlocks_suffix short' short ends).symm

/-- Two messages of two blocks each, in two pieces and in three. -/
theorem digests_differ_or_collide_sample :
    let ctx : Ctx := ⟨Vector.replicate 64 0, 0, 0, Vector.replicate 8 0⟩
    let used : Ctx := ⟨Vector.replicate 64 0xff, 7, 9, Vector.replicate 8 1⟩
    let pieces : List Piece := [⟨70, Vector.replicate 70 0x61, 70, by decide, by decide⟩,
      ⟨16, Vector.replicate 16 0x62, 10, by decide, by decide⟩]
    let pieces' : List Piece := [⟨40, Vector.replicate 40 0x61, 40, by decide, by decide⟩,
      ⟨40, Vector.replicate 40 0x61, 30, by decide, by decide⟩, ⟨16, Vector.replicate 16 0x62, 11, by decide, by decide⟩]
    let hash : Arr 32 := Vector.replicate 32 0
    (session (hashing pieces hash) ctx).val ≠ (session (hashing pieces' hash) used).val ∨
    Nonempty (Collision (nextState ctx) (init ctx).state (paddedBlocks (joined pieces)) (paddedBlocks (joined pieces'))) := by
  intro ctx used pieces pieces' hash
  exact digests_differ_or_collide ctx used pieces pieces' hash hash (by decide +kernel) (by decide +kernel)
    (by decide +kernel)

end WorkServer.Sha256

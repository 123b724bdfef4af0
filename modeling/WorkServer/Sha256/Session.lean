import WorkServer.Sha256.Stream

/-!
# Sessions

Any calls on one context, in any order. What `sha256_final` leaves is the digest of the
bytes handed over since the last `sha256_init`, unless another `sha256_final` came
between; and the calls stay within their arrays exactly on a context whose count leaves
room in its buffer, as every `sha256_init` makes it.
-/

namespace WorkServer.Sha256
open BigEndian BlockHash Tracing Standard

/-- The array and the length of one call of `sha256_update`. -/
structure Piece where
  size : Nat
  data : Arr size
  len : Nat
  fits : len ≤ size
  counts : len < 2 ^ 32

def Piece.bytes (piece : Piece) : List BYTE := slice piece.data 0 piece.len

inductive Call where
  | init
  | update (piece : Piece)
  | final (hash : Arr 32)

/-- One call, with the array that it leaves if it leaves one. -/
def call (ctx : Ctx) : Call → Traced (Ctx × Option (Arr 32))
  | .init => pure (init ctx, none)
  | .update piece => do
    -- As many iterations as there are bytes are enough for a piece.
    let ctx' ← update piece.len ctx piece.data piece.len
    return (ctx'.getD ctx, none)
  | .final hash => do
    let (ctx, hash) ← final ctx hash
    return (ctx, some hash)

/-- The arrays that the calls of a session leave, in order. -/
def session : List Call → Ctx → Traced (List (Arr 32))
  | [], _ => pure []
  | c :: calls, ctx => do
    let (ctx, hash) ← call ctx c
    let hashes ← session calls ctx
    return hash.toList ++ hashes

theorem call_init (ctx : Ctx) : (call ctx .init).val = (init ctx, none) := rfl

/-! ### What a session is for -/

/-- The message a context is taking: none before `sha256_init` and after `sha256_final`. -/
def takes (message : Option (List BYTE)) : Call → Option (List BYTE)
  | .init => some []
  | .update piece => message.map (· ++ piece.bytes)
  | .final _ => none

/-- What is promised of the arrays that a session leaves: nothing of one that ends no message. -/
def promised : List Call → Option (List BYTE) → List (Option (Arr 32))
  | [], _ => []
  | .final hash :: calls, message => message.map digest :: promised calls (takes message (.final hash))
  | c :: calls, message => promised calls (takes message c)

/-- A context that takes a message, or that only has room. -/
def Ready (message : Option (List BYTE)) (ctx : Ctx) : Prop :=
  ctx.datalen.toNat < 64 ∧ ∀ m, message = some m → Holds ctx m

variable {message : Option (List BYTE)} {ctx : Ctx}

theorem ready_init (ctx : Ctx) : Ready (some []) (init ctx) := by
  refine ⟨(holds_init ctx).room, fun m opened => ?_⟩
  obtain rfl := Option.some.inj opened
  exact holds_init ctx

theorem ready_updateByte {bytes : List BYTE} (ready : Ready (message.map (· ++ bytes)) ctx) (x : BYTE) :
    Safe (updateByte ctx x) ∧ Ready (message.map (· ++ (bytes ++ [x]))) (updateByte ctx x).val := by
  obtain ⟨room, holds⟩ := ready
  refine ⟨safe_updateByte room x, room_updateByte room x, fun m opened => ?_⟩
  obtain ⟨m, rfl, rfl⟩ := Option.map_eq_some_iff.mp opened
  rw [← List.append_assoc]
  exact holds_updateByte (holds (m ++ bytes) rfl) x

theorem ready_update (ready : Ready message ctx) (piece : Piece) :
    Safe (update piece.len ctx piece.data piece.len) ∧
      ∃ ctx', (update piece.len ctx piece.data piece.len).val = some ctx' ∧ Ready (takes message (.update piece)) ctx' := by
  refine update_inv piece.data (fun bytes ctx => Ready (message.map (· ++ bytes)) ctx) piece.counts
    piece.fits (fun bytes ctx x ready => ready_updateByte ready x) (Nat.le_refl _) ?_
  simpa using ready

theorem ready_call (ready : Ready message ctx) (c : Call) :
    Safe (call ctx c) ∧ Ready (takes message c) (call ctx c).val.1 := by
  cases c with
  | init => exact ⟨safe_pure _, ready_init ctx⟩
  | update piece =>
    obtain ⟨safe, ctx', returned, after⟩ := ready_update ready piece
    unfold call
    rw [safe_bind, val_bind, returned]
    exact ⟨⟨safe, safe_pure _⟩, after⟩
  | final hash =>
    unfold call
    rw [safe_bind]
    refine ⟨⟨safe_final ready.1 hash, safe_pure _⟩, final_room ready.1 hash, fun m opened => ?_⟩
    cases opened

/-! ### Whole sessions -/

theorem session_cons_val (c : Call) (calls : List Call) (ctx : Ctx) : (session (c :: calls) ctx).val =
    (call ctx c).val.2.toList ++ (session calls (call ctx c).val.1).val := by
  rw [session, val_bind, val_bind, val_pure]

theorem safe_session_cons (c : Call) (calls : List Call) (ctx : Ctx) : Safe (session (c :: calls) ctx) ↔
    Safe (call ctx c) ∧ Safe (session calls (call ctx c).val.1) := by
  rw [session, safe_bind, safe_bind]
  simp only [safe_pure, and_true]

theorem session_kept (calls : List Call) (ready : Ready message ctx) : Safe (session calls ctx) ∧
    List.Forall₂ (fun want hash => ∀ d, want = some d → hash = d) (promised calls message) (session calls ctx).val := by
  induction calls generalizing message ctx with
  | nil => exact ⟨safe_pure _, List.Forall₂.nil⟩
  | cons c calls ih =>
    obtain ⟨safe, next⟩ := ready_call ready c
    obtain ⟨safeRest, kept⟩ := ih next
    rw [safe_session_cons, session_cons_val]
    refine ⟨⟨safe, safeRest⟩, ?_⟩
    cases c with
    | init => exact kept
    | update piece => exact kept
    | final hash =>
      refine List.Forall₂.cons (fun d want => ?_) kept
      obtain ⟨m, opened, rfl⟩ := Option.map_eq_some_iff.mp want
      exact final_val (ready.2 m opened) hash

/-- From `sha256_init` on, on a context that held anything before it, a session stays within its arrays
and every array it leaves is the digest that was promised. -/
theorem session_digests (ctx : Ctx) (calls : List Call) : Safe (session (.init :: calls) ctx) ∧
    List.Forall₂ (fun want hash => ∀ d, want = some d → hash = d) (promised (.init :: calls) none)
      (session (.init :: calls) ctx).val := by
  obtain ⟨safe, kept⟩ := session_kept calls (ready_init ctx)
  rw [safe_session_cons, session_cons_val, call_init]
  exact ⟨⟨safe_pure _, safe⟩, kept⟩

/-- The calls stay within their arrays, in any order, exactly on a context with room in its buffer. -/
theorem session_safe_iff (ctx : Ctx) : (∀ calls, Safe (session calls ctx)) ↔ ctx.datalen.toNat < 64 := by
  constructor
  · intro safe
    by_contra full
    have ends := safe [.final (Vector.replicate 32 0)]
    rw [safe_session_cons, call, safe_bind, final, safe_bind] at ends
    exact not_safe_padData full ends.1.1.1
  · intro room calls
    have ready : Ready none ctx := ⟨room, fun m opened => by cases opened⟩
    exact (session_kept calls ready).1

/-! ### Messages and digests -/

def hashing (pieces : List Piece) (hash : Arr 32) : List Call := .init :: pieces.map .update ++ [.final hash]

def joined (pieces : List Piece) : List BYTE := pieces.flatMap Piece.bytes

theorem promised_hashing (pieces : List Piece) (hash : Arr 32) (message : List BYTE) :
    promised (pieces.map .update ++ [.final hash]) (some message) = [some (digest (message ++ joined pieces))] := by
  induction pieces generalizing message with
  | nil => simp [promised, joined]
  | cons piece pieces ih =>
    have rest := ih (message ++ piece.bytes)
    rw [List.append_assoc] at rest
    exact rest

theorem session_hashing (ctx : Ctx) (pieces : List Piece) (hash : Arr 32) :
    (session (hashing pieces hash) ctx).val = [digest (joined pieces)] := by
  have kept := (session_kept (pieces.map .update ++ [.final hash]) (ready_init ctx)).2
  rw [promised_hashing, List.nil_append] at kept
  obtain ⟨d, ds, wanted, rest, left⟩ := List.forall₂_cons_left_iff.mp kept
  obtain rfl := List.forall₂_nil_left_iff.mp rest
  have opened : (session (hashing pieces hash) ctx).val = (session (pieces.map .update ++ [.final hash]) (init ctx)).val :=
    session_cons_val _ _ _
  rw [opened, left, wanted _ rfl]

end WorkServer.Sha256

import WorkServer.Threads.Slots

/-!
# The client count

`client_num` counts the handler threads that have not passed the one decrement of
`work_function`, which stands on the exit after an empty message. The exits after a failed
`read` or `write` leave without it, so each of them loses one client for good.
-/

namespace WorkServer
open Tracing Runs

/-- Not past `client_num--`. -/
def Handler.counted : Handler → Bool
  | .departed | .exited => false
  | _ => true

def Handler.live : Handler → Bool
  | .exited | .aborted => false
  | _ => true

def Handler.closing : Handler → Bool
  | .hungUp | .departed | .failing | .flagFailed => true
  | _ => false

def Handler.hasAborted : Handler → Bool
  | .aborted => true
  | _ => false

/-- On the way out after a failed `read` or `write`. -/
def Handler.broken : Handler → Bool
  | .refused true | .flagFailed | .failing | .aborted => true
  | _ => false

def Action.fails : Action → Bool
  | .readFails | .writeFails => true
  | _ => false

def Event.fails : Event → Bool
  | .handler _ action => action.fails
  | _ => false

/-- The increments of `client_num` that `main` has made for no handler. -/
def Acceptor.pending : Acceptor → Nat
  | .accepting | .accepted _ => 0
  | _ => 1

theorem Handler.Step.client {env : Env} {work_num : Int} {h h' : Handler} {a : Action} {e : Effect}
    (step : Handler.Step env work_num h a e h') :
    (h'.counted.toNat : Int) = h.counted.toNat + e.client_num ∧
      (a.fails = false → h.broken = false → h'.broken = false) := by
  cases step with
  | receive firstFour m =>
    rcases afterRead_val env firstFour m with same | ⟨bytes, same⟩ | same <;> rw [same] <;>
      exact ⟨rfl, fun _ _ => rfl⟩
  | test buffer =>
    rw [afterTest_val]
    split <;> exact ⟨rfl, fun _ _ => rfl⟩
  | release failed =>
    cases failed with
    | false => exact ⟨rfl, fun _ _ => rfl⟩
    | true => exact ⟨rfl, fun _ sound => absurd sound (by decide)⟩
  | readFails => exact ⟨rfl, fun succeeds => absurd succeeds (by decide)⟩
  | writeFails bytes => exact ⟨rfl, fun succeeds => absurd succeeds (by decide)⟩
  | refuseFails buffer => exact ⟨rfl, fun succeeds => absurd succeeds (by decide)⟩
  | flagFails buffer => exact ⟨rfl, fun succeeds => absurd succeeds (by decide)⟩
  | flagRelease => exact ⟨rfl, fun _ sound => absurd sound (by decide)⟩
  | abort => exact ⟨rfl, fun _ sound => absurd sound (by decide)⟩
  | _ => exact ⟨rfl, fun _ _ => rfl⟩

/-! ### Every run -/

structure ClientInvariant (es : List Event) (s : State) : Prop where
  count : s.client_num = s.main.pending + s.handlers.countP Handler.counted
  sound : (∀ e ∈ es, e.fails = false) → ∀ h ∈ s.handlers, h.broken = false

theorem clientInvariant_start (n : Nat) : ClientInvariant [] (start n) where
  count := by simp [start, List.countP_replicate, Handler.counted, Acceptor.pending]
  sound _ h hh := by rw [List.eq_of_mem_replicate hh]; rfl

theorem clientInvariant_step {env : Env} {es : List Event} {s s' : State} {e : Event}
    (inv : ClientInvariant es s) (step : Step env s e s') : ClientInvariant (es ++ [e]) s' := by
  obtain ⟨count, sound⟩ := inv
  have before : (∀ f ∈ es ++ [e], f.fails = false) → (∀ f ∈ es, f.fails = false) ∧ e.fails = false :=
    fun all => ⟨fun f hf => all f (by simp [hf]), all e (by simp)⟩
  cases step with
  | accept ok here => exact ⟨by rw [here] at count; exact count, fun all => sound (before all).1⟩
  | count ok here =>
    refine ⟨?_, fun all => sound (before all).1⟩
    rw [here] at count
    cases ok <;> simp [count, Acceptor.pending, Int.add_comm]
  | test here =>
    refine ⟨?_, fun all => sound (before all).1⟩
    rw [here] at count
    simp only [count]
    split <;> rfl
  | undo here =>
    refine ⟨?_, fun all => sound (before all).1⟩
    rw [here] at count
    simp [count, Acceptor.pending]
  | spawn here =>
    rw [here] at count
    refine ⟨?_, fun all h hh => ?_⟩
    · simp [count, Acceptor.pending, Handler.counted, Int.add_comm]
    · rcases List.mem_append.mp hh with old | new
      · exact sound (before all).1 h old
      · rw [List.mem_singleton.mp new]
        rfl
  | spawnFails here => exact ⟨by rw [here] at count; exact count, fun all => sound (before all).1⟩
  | handler i h h' a effect _ here moved =>
    obtain ⟨client, stays⟩ := moved.client
    have counts := countP_move (b := h') Handler.counted here
    refine ⟨?_, fun all => ?_⟩
    · simp only [count]
      omega
    · have old := sound (before all).1
      exact forall_mem_move old (stays (before all).2 (old h (List.mem_of_getElem? here)))
  | take job rest _ _ _ => exact ⟨count, fun all => sound (before all).1⟩
  | solve job fuel buffer left seed _ _ _ => exact ⟨count, fun all => sound (before all).1⟩
  | pop buffer _ _ => exact ⟨count, fun all => sound (before all).1⟩
  | release buffer _ _ => exact ⟨count, fun all => sound (before all).1⟩
  | write buffer _ _ => exact ⟨count, fun all => sound (before all).1⟩

theorem clientInvariant_run {env : Env} {n : Nat} {es : List Event} {s : State}
    (run : Run (Step env) (start n) es s) : ClientInvariant es s :=
  run.history (clientInvariant_start n) fun _ _ _ _ => clientInvariant_step

theorem client_num_settled {env : Env} {n : Nat} {es : List Event} {s : State}
    (run : Run (Step env) (start n) es s) (waiting : s.main = .accepting)
    (settled : ∀ h ∈ s.handlers, h.closing = false) :
    s.client_num = s.handlers.countP Handler.live + s.handlers.countP Handler.hasAborted := by
  have count := (clientInvariant_run run).count
  have split : s.handlers.countP Handler.counted =
      s.handlers.countP Handler.live + s.handlers.countP Handler.hasAborted := by
    refine countP_split fun h hh => ?_
    have open_ := settled h hh
    cases h <;> first | rfl | exact absurd open_ (by decide)
  rw [count, waiting, split]
  simp [Acceptor.pending]

/-- As long as no `read` or `write` fails the count is exact and no client is refused early.
After a failure it is exact just when no thread has left through an error exit. -/
theorem client_num_exact {env : Env} {n : Nat} {es : List Event} {s : State}
    (run : Run (Step env) (start n) es s) :
    ((∀ e ∈ es, e.fails = false) → s.main = .accepting → (∀ h ∈ s.handlers, h.closing = false) →
      s.client_num = s.handlers.countP Handler.live) ∧
    ((∀ e ∈ es, e.fails = false) → s.main = .testing → MAX_CLIENTS ≤ s.client_num →
      MAX_CLIENTS - 1 ≤ (s.handlers.countP Handler.live : Int)) ∧
    (s.main = .accepting → (∀ h ∈ s.handlers, h.closing = false) →
      (s.client_num = s.handlers.countP Handler.live ↔ ∀ h ∈ s.handlers, h.hasAborted = false)) := by
  have inv := clientInvariant_run run
  have exact_iff : s.main = .accepting → (∀ h ∈ s.handlers, h.closing = false) →
      (s.client_num = s.handlers.countP Handler.live ↔ ∀ h ∈ s.handlers, h.hasAborted = false) := by
    intro waiting settled
    have leaked : s.handlers.countP Handler.hasAborted = 0 ↔ ∀ h ∈ s.handlers, h.hasAborted = false := by
      simp [List.countP_eq_zero]
    rw [client_num_settled run waiting settled, ← leaked]
    omega
  refine ⟨fun succeeds waiting settled => (exact_iff waiting settled).mpr fun h hh => ?_,
    fun succeeds testing full => ?_, exact_iff⟩
  · have sound := inv.sound succeeds h hh
    cases h <;> first | rfl | exact absurd sound (by decide)
  · have count := inv.count
    rw [testing] at count
    have live : s.handlers.countP Handler.counted ≤ s.handlers.countP Handler.live := by
      refine List.countP_mono_left fun h hh counted => ?_
      have sound := inv.sound succeeds h hh
      cases h <;> first | rfl | exact absurd sound (by decide) | cases counted
    simp only [Acceptor.pending] at count
    omega

theorem visit : ∃ es, (∀ e ∈ es, e.fails = false) ∧
    Run (Step sampleEnv) (start 1) es { start 1 with client_num := 0, handlers := [.exited] } := by
  have hungUp : afterRead sampleEnv (Vector.replicate 5 0) ⟨[], by decide⟩ = .hungUp := by
    unfold afterRead
    rw [if_pos (by rw [entry_buffer _ (by omega)]; rfl)]
  have received := @Handler.Step.receive sampleEnv 0 (Vector.replicate 5 0) ⟨[], by decide⟩
  rw [hungUp] at received
  refine ⟨_, ?_, Run.snoc (Run.snoc (Run.single
    (Step.handler (start 1) 0 _ _ _ _ (by decide) rfl received))
    (Step.handler _ 0 _ _ _ _ (by decide) rfl .depart))
    (Step.handler _ 0 _ _ _ _ (by decide) rfl .exit)⟩
  simp [Event.fails, Action.fails]

theorem client_num_exact_sample : ∃ es s, Run (Step sampleEnv) (start 1) es s ∧
    (∀ e ∈ es, e.fails = false) ∧ s.client_num = 0 ∧ s.client_num = s.handlers.countP Handler.live := by
  obtain ⟨es, succeeds, run⟩ := visit
  exact ⟨es, _, run, succeeds, rfl, (client_num_exact run).1 succeeds rfl (by simp [Handler.closing])⟩

/-- One client whose `read` fails: nobody is connected, and the count is 1. -/
theorem client_leaks : ¬ ∀ (env : Env) (n : Nat) (es : List Event) (s : State),
    Run (Step env) (start n) es s → s.main = .accepting → (∀ h ∈ s.handlers, h.closing = false) →
    s.client_num = s.handlers.countP Handler.live := by
  intro claimed
  have accepted : Run (Step sampleEnv) (start 0) _ _ := Run.single (Step.accept (start 0) true rfl)
  have counted := Run.snoc accepted (Step.count _ true rfl)
  have tested := Run.snoc counted (Step.test _ rfl)
  have spawned := Run.snoc tested (Step.spawn _ rfl)
  have failed := Run.snoc spawned (Step.handler _ 0 _ _ _ _ (by decide) rfl .readFails)
  have left := Run.snoc failed (Step.handler _ 0 _ _ _ _ (by decide) rfl .abort)
  have count := claimed sampleEnv 0 _ _ left rfl (by simp [start, Handler.closing])
  exact absurd count (by decide)

end WorkServer

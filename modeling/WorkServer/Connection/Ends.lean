import WorkServer.Connection.Exchange
import WorkServer.Threads.Liveness

/-!
# The end of a connection

However the streams are cut, no run of a connection goes on forever. Where the sockets have
room for what the client writes and for the replies, none comes to a halt in which each side
waits for the other: a connection halts when both sides have left it, or while the thread
searches for a nonce that does not exist. Without that room both can wait in `write`.
-/

namespace WorkServer.Connection
open Tracing CString Runs

variable {env : Env}

/-! ### Closed sockets -/

theorem isOpen_le {h h' : Handler} {a : Action} (step : ThreadStep env (fun _ => True) h a h') :
    (isOpen h').toNat ≤ (isOpen h).toNat := by
  cases was : isOpen h with
  | false => rw [(thread_closed step was).1]
  | true => exact Bool.toNat_le _

/-- At the end of the stream a thread hangs up. -/
theorem thread_end {h h' : Handler} {m : Message} (step : ThreadStep env (fun _ => True) h (.received m) h')
    (nothing : m.bytes = []) : h = .reading ∧ h' = .hungUp := by
  obtain ⟨work_num, e, -, moved⟩ := step
  cases moved with
  | receive firstFour => exact ⟨rfl, by rw [afterRead_eq, if_pos (text_end nothing)]⟩

/-! ### Every run is finite -/

/-- The steps that a client can cause with the messages it has still to write. -/
def budget (messages : List (List BYTE)) : Nat := 6 * messages.flatten.length + 2 * messages.length

def Client.rank : Client → Nat
  | .sending message rest => budget (message :: rest)
  | .waiting rest => budget rest + 1
  | .gone => 0

theorem rank_next (messages : List (List BYTE)) : (Client.next messages).rank = budget messages := by
  cases messages <;> rfl

/-- A bound on the steps to come. Each byte under way to the thread may be a message of its own. -/
def State.rank (s : State) : Nat :=
  s.client.rank + 6 * s.up.length + s.handler.rank + (isOpen s.handler).toNat

theorem Step.rank {s t : State} {e : Event} (step : Step env s e t) : t.rank + 1 ≤ s.rank := by
  cases step with
  | send message rest sending =>
    simp only [State.rank, sending, Client.rank, budget, List.flatten_cons, List.length_append, List.length_cons]
    omega
  | sendFails message rest sending =>
    simp only [State.rank, sending, Client.rank, budget, List.length_cons]
    omega
  | get rest m left waiting _ _ =>
    simp only [State.rank, waiting, rank_next]
    simp only [Client.rank]
    omega
  | readFails rest waiting =>
    simp only [State.rank, waiting, Client.rank]
    omega
  | receive m left h cut ends moved =>
    by_cases nothing : m.bytes = []
    · obtain ⟨reading, hungUp⟩ := thread_end moved nothing
      obtain ⟨empty, -⟩ := ends nothing
      rw [empty, nothing, List.nil_append] at cut
      simp only [State.rank, reading, hungUp, empty, ← cut, Handler.rank, isOpen, Bool.toNat_true, Bool.toNat_false]
      omega
    · have some : 0 < m.bytes.length := List.length_pos_iff.mpr nothing
      have monotone := isOpen_le moved
      obtain ⟨work_num, e, -, step⟩ := moved
      have spent := step.rank
      simp only [Action.reads, List.length_singleton] at spent
      simp only [State.rank, cut, List.length_append]
      omega
  | reply bytes h moved =>
    have monotone := isOpen_le moved
    obtain ⟨work_num, e, -, step⟩ := moved
    have spent := step.rank
    simp only [Action.reads, List.length_nil] at spent
    simp only [State.rank]
    omega
  | run a h silent _ moved =>
    have monotone := isOpen_le moved
    obtain ⟨work_num, e, -, step⟩ := moved
    have spent := step.rank
    rw [silent, List.length_nil] at spent
    simp only [State.rank]
    omega

/-- No run is longer than the bytes and the messages of the client allow, however its reads cut them
and whatever fails. -/
theorem run_bounded {messages : List (List BYTE)} {es : List Event} {s : State}
    (run : Run (Step env) (start messages) es s) :
    es.length ≤ 6 * messages.flatten.length + 2 * messages.length + 3 := by
  have spent : es.length + s.rank ≤ (start messages).rank := by
    refine run.history (P := fun es s => es.length + s.rank ≤ (start messages).rank) (by simp) ?_
    intro es s e t before step
    have one := step.rank
    rw [List.length_append, List.length_singleton]
    omega
  have first : (start messages).rank = budget messages + 2 + 1 := by
    simp only [State.rank, start, rank_next, Handler.rank, isOpen, Bool.toNat_true, List.length_nil]
  rw [first, budget] at spent
  omega

/-- A client that sends a PING, up to the end of its thread. -/
theorem left_run (env : Env) : ∃ es, Run (Step env) (start [ping.bytes]) es
    ⟨.gone, [], .exited, [], [ascii "PONG\r\n"]⟩ := by
  obtain ⟨es, -, run⟩ := ping_run env
  have hungUp : ThreadStep env (fun _ => True) .reading (.received ⟨[], by simp⟩) .hungUp := by
    have received := @Handler.Step.receive env 0 (Vector.replicate 5 0) ⟨[], by simp⟩
    rw [afterRead_eq, if_pos (text_end rfl)] at received
    exact ⟨0, _, fun _ => trivial, received⟩
  have departed : ThreadStep env (fun _ => True) .hungUp .runs .departed := ⟨0, _, fun _ => trivial, .depart⟩
  have exited : ThreadStep env (fun _ => True) .departed .runs .exited := ⟨0, _, fun _ => trivial, .exit⟩
  have whole : Run (Step env) (start [ping.bytes]) es ⟨.gone, [], .reading, [], [ascii "PONG\r\n"]⟩ :=
    run.mono fun _ _ _ step => step.1
  exact ⟨_, ((whole.snoc (.receive _ ⟨[], by simp⟩ [] _ rfl (fun _ => ⟨rfl, rfl⟩) hungUp)).snoc
    (.run _ .runs _ rfl rfl departed)).snoc (.run _ .runs _ rfl rfl exited)⟩

theorem run_bounded_sample : ∃ es s, Run (Step sampleEnv) (start [ping.bytes]) es s ∧ s.handler = .exited ∧
    es.length ≤ 41 := by
  obtain ⟨es, run⟩ := left_run sampleEnv
  exact ⟨es, _, run, rfl, run_bounded run⟩

/-! ### Who owes the next step -/

/-- The thread has answered all it has read. -/
def resting : Handler → Bool
  | .reading | .refused false => true
  | _ => false

/-- A thread comes to rest by writing, and in no other way. -/
theorem thread_rests {h h' : Handler} {a : Action} (step : ThreadStep env (fun _ => True) h a h')
    (rests : resting h' = true) : (∃ bytes, a = .wrote bytes) ∨ resting h = true ∧ a.reads = [] ∧ a.writes = [] := by
  obtain ⟨work_num, e, -, moved⟩ := step
  cases moved with
  | receive firstFour m =>
    rcases afterRead_val env firstFour m with same | ⟨bytes, same⟩ | same <;> rw [same] at rests <;> cases rests
  | test buffer =>
    rw [afterTest_val] at rests
    split at rests <;> cases rests
  | release failed =>
    cases failed with
    | false => exact Or.inr ⟨rfl, rfl, rfl⟩
    | true => cases rests
  | write bytes | refuse buffer | flag buffer => exact Or.inl ⟨_, rfl⟩
  | _ => cases rests

theorem step_of_thread (s : State) {a : Action} {h : Handler} (silent : a.reads = [])
    (moved : ThreadStep env (fun _ => True) s.handler a h) : ∃ t, Step env s (.serves a) t := by
  cases a with
  | received m => cases silent
  | wrote bytes => exact ⟨_, .reply s bytes h moved⟩
  | readFails | writeFails | runs => exact ⟨_, .run s _ h rfl rfl moved⟩

def Client.pending : Client → List (List BYTE)
  | .sending message rest => message :: rest
  | .waiting rest => rest
  | .gone => []

theorem pending_next (messages : List (List BYTE)) : (Client.next messages).pending = messages := by
  cases messages <;> rfl

/-- While the client waits, something is under way to one side, or the thread has it in hand. -/
structure Owing (s : State) : Prop where
  full : ∀ message ∈ s.client.pending, message ≠ []
  owes : ∀ rest, s.client = .waiting rest → resting s.handler = true → s.up ≠ [] ∨ s.down ≠ []

theorem owing_step {s t : State} {e : Event} {acts : List Action}
    (thread : Run (ThreadStep env fun _ => True) .reading acts s.handler) (inv : Owing s) (step : Step env s e t) :
    Owing t := by
  obtain ⟨full, owes⟩ := inv
  cases step with
  | send message rest sending =>
    rw [sending] at full
    refine ⟨fun other later => full other (List.mem_cons_of_mem _ later), fun _ _ _ => Or.inl ?_⟩
    exact List.append_ne_nil_of_right_ne_nil _ (full message List.mem_cons_self)
  | sendFails message rest _ => exact ⟨fun _ none => (List.not_mem_nil none).elim, fun _ gone => by cases gone⟩
  | readFails rest _ => exact ⟨fun _ none => (List.not_mem_nil none).elim, fun _ gone => by cases gone⟩
  | get rest m left waiting _ _ =>
    rw [waiting] at full
    refine ⟨fun message later => full message ?_, fun _ waits => ?_⟩
    · rwa [pending_next] at later
    · cases rest <;> cases waits
  | receive m left h _ _ moved =>
    refine ⟨full, fun rest _ rests => ?_⟩
    obtain ⟨_, none⟩ | ⟨-, none, -⟩ := thread_rests moved rests <;> cases none
  | reply bytes h moved =>
    exact ⟨full, fun _ _ _ => Or.inr (List.append_ne_nil_of_right_ne_nil _ (wrote_ne_nil thread moved))⟩
  | run a h _ silent moved =>
    refine ⟨full, fun rest waiting rests => ?_⟩
    obtain ⟨_, rfl⟩ | ⟨before, -⟩ := thread_rests moved rests
    · cases silent
    · exact owes rest waiting before

theorem owing_run {messages : List (List BYTE)} {es : List Event} {s : State}
    (full : ∀ message ∈ messages, message ≠ []) (run : Run (Step env) (start messages) es s) : Owing s := by
  refine (run.history (P := fun es s => Run (Step env) (start messages) es s ∧ Owing s) ⟨Run.nil, ?_, ?_⟩ ?_).2
  · intro message listed
    exact full message (pending_next messages ▸ listed)
  · intro rest waits
    cases messages <;> cases waits
  · intro es s e t before step
    obtain ⟨run, inv⟩ := before
    exact ⟨run.snoc step, owing_step (served_run run) inv step⟩

/-! ### What is under way -/

def bytesRead (acts : List Action) : Nat := ((acts.flatMap Action.reads).map fun m => m.bytes.length).sum

def bytesWritten (acts : List Action) : Nat := (acts.flatMap Action.writes).flatten.length

/-- What the client had to write was read by the thread, is under way, or is to come. What is under
way to the client was written by the thread. -/
structure Conserved (total read written : Nat) (s : State) : Prop where
  sent : read + s.up.length + s.client.pending.flatten.length ≤ total
  wrote : s.down.length ≤ written

theorem conserved_step {total read written : Nat} {s t : State} {e : Event} (inv : Conserved total read written s)
    (step : Step env s e t) :
    Conserved total (read + bytesRead e.served) (written + bytesWritten e.served) t := by
  obtain ⟨sent, wrote⟩ := inv
  cases step with
  | send message rest sending =>
    rw [sending, Client.pending, List.flatten_cons, List.length_append] at sent
    refine ⟨?_, wrote⟩
    show read + (s.up ++ message).length + rest.flatten.length ≤ total
    rw [List.length_append]
    omega
  | sendFails _ _ _ | readFails _ _ => exact ⟨Nat.le_trans (Nat.le_add_right _ _) sent, wrote⟩
  | get rest m left waiting cut _ =>
    rw [waiting, Client.pending] at sent
    rw [cut, List.length_append] at wrote
    refine ⟨?_, Nat.le_of_add_left_le wrote⟩
    show read + s.up.length + (Client.next rest).pending.flatten.length ≤ total
    rwa [pending_next]
  | receive m left h cut _ _ =>
    rw [cut, List.length_append] at sent
    refine ⟨?_, wrote⟩
    show read + (m.bytes.length + 0) + left.length + s.client.pending.flatten.length ≤ total
    omega
  | reply bytes h _ =>
    refine ⟨sent, ?_⟩
    show (s.down ++ bytes).length ≤ written + (bytes ++ []).length
    rw [List.length_append, List.append_nil]
    omega
  | run a h silent mute _ =>
    have none : bytesRead [a] = 0 ∧ bytesWritten [a] = 0 := by simp [bytesRead, bytesWritten, silent, mute]
    rw [Event.served, none.1, none.2]
    exact ⟨sent, wrote⟩

theorem conserved_run {messages : List (List BYTE)} {es : List Event} {s : State}
    (run : Run (Step env) (start messages) es s) :
    Conserved messages.flatten.length (bytesRead (served es)) (bytesWritten (served es)) s := by
  refine run.history (P := fun es s =>
    Conserved messages.flatten.length (bytesRead (served es)) (bytesWritten (served es)) s) ⟨?_, Nat.zero_le _⟩ ?_
  · show 0 + 0 + (Client.next messages).pending.flatten.length ≤ messages.flatten.length
    rw [pending_next, Nat.zero_add]
  · intro es s e t inv step
    have moved := conserved_step inv step
    simpa [served, bytesRead, bytesWritten] using moved

theorem length_answers {tested : Int → Prop} {rs : List Message} {ws : List (List BYTE)}
    (answered : List.Forall₂ (Answers env tested) rs ws) :
    ws.flatten.length ≤ 80 * (rs.map fun m => m.bytes.length).sum := by
  induction answered with
  | nil => exact Nat.zero_le _
  | cons first _ ih =>
    have one := length_answer first
    rw [List.flatten_cons, List.length_append, List.map_cons, List.sum_cons]
    omega

/-- At most all that the client has to write is ever under way to the thread, and at most 80 times as
much to the client. -/
theorem room_run {messages : List (List BYTE)} {es : List Event} {s : State}
    (run : Run (Step env) (start messages) es s) :
    s.up.length ≤ messages.flatten.length ∧ s.down.length ≤ 80 * messages.flatten.length := by
  obtain ⟨sent, wrote⟩ := conserved_run run
  obtain ⟨answered, pending, split, -, answers⟩ := (talk_run ⟨0, trivial⟩ (served_run run)).split
  have replies := length_answers answers
  unfold bytesRead at sent
  unfold bytesWritten at wrote
  rw [split, List.map_append, List.sum_append] at sent
  exact ⟨by omega, by omega⟩

/-- A `write` waits until what it writes finds room: at most `upRoom` bytes are under way to the
thread and `downRoom` bytes to the client. -/
def RoomStep (env : Env) (upRoom downRoom : Nat) (s : State) (e : Event) (t : State) : Prop :=
  Step env s e t ∧ t.up.length ≤ upRoom ∧ t.down.length ≤ downRoom

/-- With room for all that the client has to write and 80 times as much for the replies, no `write` waits. -/
theorem roomStep_iff {messages : List (List BYTE)} {upRoom downRoom : Nat} {es : List Event} {s t : State} {e : Event}
    (upFits : messages.flatten.length ≤ upRoom) (downFits : 80 * messages.flatten.length ≤ downRoom)
    (run : Run (Step env) (start messages) es s) : RoomStep env upRoom downRoom s e t ↔ Step env s e t := by
  refine ⟨fun taken => taken.1, fun step => ?_⟩
  obtain ⟨up, down⟩ := room_run (run.snoc step)
  exact ⟨step, Nat.le_trans up upFits, Nat.le_trans down downFits⟩

theorem roomy_run {messages : List (List BYTE)} {upRoom downRoom : Nat} {es : List Event} {s : State}
    (upFits : messages.flatten.length ≤ upRoom) (downFits : 80 * messages.flatten.length ≤ downRoom)
    (run : Run (Step env) (start messages) es s) : Run (RoomStep env upRoom downRoom) (start messages) es s := by
  refine (run.history (P := fun es s =>
    Run (Step env) (start messages) es s ∧ Run (RoomStep env upRoom downRoom) (start messages) es s)
    ⟨Run.nil, Run.nil⟩ ?_).2
  intro es s e t before step
  exact ⟨before.1.snoc step, before.2.snoc ((roomStep_iff upFits downFits before.1).mpr step)⟩

/-! ### Where a connection halts -/

theorem thread_admissible {acts : List Action} {h : Handler} (run : Run (ThreadStep env fun _ => True) .reading acts h) :
    h.Admissible env := by
  refine run.invariant (P := Handler.Admissible env) True.intro ?_
  intro h a h' _ step
  obtain ⟨work_num, e, -, moved⟩ := step
  exact moved.admissible

/-- A thread that takes a step has not left, and does not search in vain. -/
theorem live_of_step {h h' : Handler} {a : Action} (admissible : h.Admissible env)
    (step : ThreadStep env (fun _ => True) h a h') : h.live = true ∧ ¬ h.Endless env := by
  obtain ⟨work_num, e, -, moved⟩ := step
  cases moved with
  | mine fuel fields buffer bytes returned =>
    refine ⟨rfl, fun endless => (minedReply_iff admissible).mpr endless ⟨fuel, bytes, returned⟩⟩
  | _ =>
    refine ⟨rfl, fun endless => ?_⟩
    obtain ⟨_, working, -⟩ := endless
    cases working

/-- A `read` can take the first byte of what is under way. -/
theorem exists_cut {stream : List BYTE} (some : stream ≠ []) :
    ∃ (m : Message) (left : List BYTE), m.bytes ≠ [] ∧ stream = m.bytes ++ left := by
  obtain ⟨byte, left, rfl⟩ := List.exists_cons_of_ne_nil some
  have one : [byte].length ≤ 255 := by simp
  exact ⟨⟨[byte], one⟩, left, List.cons_ne_nil _ _, rfl⟩

theorem thread_halts {s : State} (admissible : s.handler.Admissible env)
    (halted : ∀ a t, a.fails = false → ¬ Step env s (.serves a) t) :
    s.handler.live = false ∨ s.handler.Endless env ∨ s.handler = .reading ∧ s.up = [] ∧ s.client ≠ .gone := by
  cases live : s.handler.live with
  | false => exact Or.inl rfl
  | true =>
    refine Or.inr ?_
    by_cases reading : s.handler = .reading
    · have received (m : Message) : ThreadStep env (fun _ => True) s.handler (.received m)
          (afterRead env (Vector.replicate 5 0) m) := by
        rw [reading]
        exact ⟨0, _, fun _ => trivial, .receive _ m⟩
      have drained : s.up = [] := by
        by_contra some
        obtain ⟨m, left, begun, cut⟩ := exists_cut some
        exact halted _ _ rfl (.receive s m left _ cut (fun none => absurd none begun) (received m))
      refine Or.inr ⟨reading, drained, fun gone => ?_⟩
      exact halted _ _ rfl (.receive s ⟨[], by simp⟩ [] _ drained (fun _ => ⟨drained, gone⟩) (received _))
    · refine Or.inl ?_
      cases inside : s.handler.inWork with
      | false =>
        obtain ⟨a, e, h, succeeds, silent, moved⟩ := Handler.Step.goes_on env 0 live reading inside
        obtain ⟨t, step⟩ := step_of_thread s silent ⟨0, e, fun _ => trivial, moved⟩
        exact (halted a t succeeds step).elim
      | true =>
        obtain ⟨fields, buffer, working⟩ : ∃ fields buffer, s.handler = .working fields buffer := by
          cases at_work : s.handler <;> rw [at_work] at inside <;> first | exact ⟨_, _, rfl⟩ | cases inside
        rw [working] at admissible ⊢
        refine (minedReply_iff admissible).mp fun returns => ?_
        obtain ⟨fuel, bytes, returned⟩ := returns
        have mined : ThreadStep env (fun _ => True) s.handler .runs (.worked bytes) := by
          rw [working]
          exact ⟨0, _, fun _ => trivial, .mine fuel fields buffer bytes returned⟩
        exact halted .runs _ rfl (.run s _ _ rfl rfl mined)

theorem get_iff (env : Env) {s : State} {rest : List (List BYTE)} (waiting : s.client = .waiting rest) :
    (∃ m t, Step env s (.gets m) t) ↔ s.down ≠ [] ∨ isOpen s.handler = false := by
  constructor
  · intro taken
    obtain ⟨m, t, step⟩ := taken
    cases step with
    | get _ left _ _ cut ends =>
      by_cases nothing : m.bytes = []
      · exact Or.inr (ends nothing).2
      · exact Or.inl fun empty => nothing (read_end empty cut).1
  · intro ready
    by_cases empty : s.down = []
    · have closed := ready.resolve_left fun some => some empty
      exact ⟨⟨[], by simp⟩, _, .get s rest _ [] waiting empty fun _ => ⟨empty, closed⟩⟩
    · obtain ⟨m, left, begun, cut⟩ := exists_cut empty
      exact ⟨m, _, .get s rest m left waiting cut fun none => absurd none begun⟩

theorem live_of_isOpen {h : Handler} (opened : isOpen h = true) : h.live = true := by
  cases h <;> first | rfl | cases opened

theorem step_halts_iff {messages : List (List BYTE)} {es : List Event} {s : State}
    (full : ∀ message ∈ messages, message ≠ []) (run : Run (Step env) (start messages) es s) :
    (¬ ∃ e t, e.fails = false ∧ Step env s e t) ↔
      (s.client = .gone ∧ s.handler.live = false) ∨
        s.handler.Endless env ∧ (s.client = .gone ∨ ∃ rest, s.client = .waiting rest ∧ s.down = []) := by
  have admissible := thread_admissible (served_run run)
  constructor
  · intro halted
    have thread := thread_halts admissible fun a t succeeds step => halted ⟨.serves a, t, succeeds, step⟩
    cases client : s.client with
    | sending message rest => exact (halted ⟨_, _, rfl, .send s message rest client⟩).elim
    | waiting rest =>
      have ⟨empty, opened⟩ : s.down = [] ∧ isOpen s.handler = true := by
        by_contra ready
        obtain ⟨m, t, step⟩ := (get_iff env client).mpr (show s.down ≠ [] ∨ isOpen s.handler = false by
          simpa only [not_and_or, Bool.not_eq_true] using ready)
        exact halted ⟨_, t, rfl, step⟩
      obtain left | endless | ⟨reading, drained, -⟩ := thread
      · rw [live_of_isOpen opened] at left
        cases left
      · exact Or.inr ⟨endless, Or.inr ⟨rest, rfl, empty⟩⟩
      · obtain some | some := (owing_run full run).owes rest client (reading ▸ rfl)
        · exact absurd drained some
        · exact absurd empty some
    | gone =>
      obtain left | endless | ⟨-, -, here⟩ := thread
      · exact Or.inl ⟨rfl, left⟩
      · exact Or.inr ⟨endless, Or.inl rfl⟩
      · exact absurd client here
  · intro ended taken
    obtain ⟨e, t, succeeds, step⟩ := taken
    have unmoved (a : Action) (h : Handler) (moved : ThreadStep env (fun _ => True) s.handler a h) : False := by
      obtain ⟨live, ends⟩ := live_of_step admissible moved
      obtain ⟨-, left⟩ | ⟨endless, -⟩ := ended
      · rw [left] at live
        cases live
      · exact ends endless
    have waits : s.client = .gone ∨ ∃ rest, s.client = .waiting rest ∧ s.down = [] ∧ isOpen s.handler = true := by
      obtain ⟨gone, -⟩ | ⟨⟨buffer, working, -⟩, gone | ⟨rest, waiting, empty⟩⟩ := ended
      · exact Or.inl gone
      · exact Or.inl gone
      · exact Or.inr ⟨rest, waiting, empty, working ▸ rfl⟩
    cases step with
    | send message rest sending =>
      rw [sending] at waits
      obtain gone | ⟨_, waiting, -⟩ := waits
      · cases gone
      · cases waiting
    | get rest m left waiting cut ends =>
      have ready := (get_iff env waiting).mp ⟨m, _, .get s rest m left waiting cut ends⟩
      obtain gone | ⟨_, -, empty, opened⟩ := waits
      · rw [waiting] at gone
        cases gone
      · rw [opened] at ready
        exact ready.elim (fun some => some empty) Bool.noConfusion
    | sendFails message rest _ => cases succeeds
    | readFails rest _ => cases succeeds
    | receive m left h _ _ moved => exact unmoved _ h moved
    | reply bytes h moved => exact unmoved _ h moved
    | run a h _ _ moved => exact unmoved _ h moved

/-- Where what is under way finds room, a connection that can only fail is one that both sides have
left, or one whose thread searches for a nonce that does not exist, however its reads cut the streams. -/
theorem halts_iff {messages : List (List BYTE)} {upRoom downRoom : Nat} {es : List Event} {s : State}
    (full : ∀ message ∈ messages, message ≠ []) (upFits : messages.flatten.length ≤ upRoom)
    (downFits : 80 * messages.flatten.length ≤ downRoom)
    (run : Run (RoomStep env upRoom downRoom) (start messages) es s) :
    (¬ ∃ e t, e.fails = false ∧ RoomStep env upRoom downRoom s e t) ↔
      (s.client = .gone ∧ s.handler.live = false) ∨
        s.handler.Endless env ∧ (s.client = .gone ∨ ∃ rest, s.client = .waiting rest ∧ s.down = []) := by
  have free : Run (Step env) (start messages) es s := run.mono fun _ _ _ step => step.1
  simp only [roomStep_iff upFits downFits free]
  exact step_halts_iff full free

theorem halts_iff_sample : ∃ es, ∃ s : State, Run (RoomStep sampleEnv 6 480) (start [ping.bytes]) es s ∧
    s.printed = [ascii "PONG\r\n"] ∧ ¬ ∃ e t, e.fails = false ∧ RoomStep sampleEnv 6 480 s e t := by
  obtain ⟨es, run⟩ := left_run sampleEnv
  have roomy : Run (RoomStep sampleEnv 6 480) (start [ping.bytes]) es _ := roomy_run (by decide) (by decide) run
  exact ⟨es, _, roomy, rfl, (halts_iff (by decide) (by decide) (by decide) roomy).mpr (Or.inl ⟨rfl, rfl⟩)⟩

end WorkServer.Connection

import WorkServer.Connection
import WorkServer.Threads.Replies
import WorkServer.Threads.Solo

/-!
# The exchanges of a connection

Where every `read` takes what one `write` has put under way, the client and its thread keep
in step: each message has its reply before the next one is written. What the client prints
is then one answer for each of its messages, in their order, and any such answers can be
printed.
-/

namespace WorkServer.Connection
open Tracing CString Runs

variable {env : Env}

/-! ### The length of a reply -/

theorem reply_ne_nil {m : Message} {bytes : List BYTE} (reply : Reply env m bytes) : bytes ≠ [] := by
  cases reply with
  | unknown fronted =>
    rw [unknownReply_val]
    exact List.append_ne_nil_of_right_ne_nil _ (List.cons_ne_nil _ _)
  | refused work => decide
  | plain kind branch =>
    have error : kind ≠ .ping → kind ≠ .soln → kind ≠ .abrt → (plainReply env kind m.buffer).val ≠ [] := by
      intro ping soln abrt none
      obtain ⟨reply, front, same⟩ := plainReply_error m.buffer ping soln abrt
      rw [same env] at none
      rw [none] at front
      exact absurd front (by decide)
    cases kind with
    | ping =>
      rw [plainReply, pingReply_val]
      decide
    | abrt =>
      rw [plainReply, abrtReply_val]
      decide
    | soln =>
      have len := (classify_eq_soln.mp branch).2
      rw [plainReply, solnReply_val env m.buffer (by rw [text_buffer]; omega)]
      split <;> decide
    | pong | okay | erro | unknown => exact error (by decide) (by decide) (by decide)
  | mined mined =>
    obtain ⟨-, k, rfl, -⟩ := mined
    rw [solution, List.append_assoc]
    exact List.append_ne_nil_of_left_ne_nil (by decide) _

theorem length_plainReply {kind : Plain} {m : Message} (long : kind = .soln → 95 ≤ m.text.length) :
    (plainReply env kind m.buffer).val.length ≤ 80 := by
  cases kind with
  | ping =>
    rw [plainReply, pingReply_val]
    decide
  | abrt =>
    rw [plainReply, abrtReply_val]
    decide
  | soln =>
    rw [plainReply, solnReply_val env m.buffer (by rw [text_buffer]; exact long rfl)]
    split
    · decide
    · rw [length_padded (by decide)]
  | unknown =>
    rw [plainReply, unknownReply_val, List.length_append, List.length_cons, length_slice]
    decide
  | pong | okay | erro =>
    exact Nat.le_of_eq ((congrArg List.length (freshReply_val m.buffer (by decide) (by decide))).trans
      (length_padded (by decide)))

/-- A read of one byte is answered with 80, and only a longer one with more. -/
theorem length_answer {tested : Int → Prop} {m : Message} {bytes : List BYTE} (answers : Answers env tested m bytes) :
    bytes.length ≤ 80 * m.bytes.length := by
  have text : m.text.length ≤ m.bytes.length := (List.takeWhile_prefix _).length_le
  have begun : 0 < m.text.length := List.length_pos_iff.mpr answers.begun
  cases answers.reply with
  | unknown fronted =>
    have len : (plainReply env .unknown m.buffer).val.length ≤ 80 := length_plainReply (fun other => by cases other)
    rw [plainReply] at len
    omega
  | refused work =>
    have len : (ascii "ERRO \r\n").length = 7 := by decide
    omega
  | plain kind branch =>
    have len : (plainReply env kind m.buffer).val.length ≤ 80 := by
      refine length_plainReply fun soln => ?_
      subst soln
      have := (classify_eq_soln.mp branch).2
      omega
    omega
  | mined mined =>
    obtain ⟨⟨-, whole⟩, k, rfl, -⟩ := mined
    rw [length_solution (by omega)]
    omega

/-! ### Steps of the thread -/

theorem thread_closed {h h' : Handler} {a : Action} (step : ThreadStep env (fun _ => True) h a h')
    (closed : isOpen h = false) : isOpen h' = false ∧ a.reads = [] ∧ a.writes = [] := by
  obtain ⟨work_num, e, -, moved⟩ := step
  cases moved with
  | flagRelease | depart | exit | abort => exact ⟨rfl, rfl, rfl⟩
  | _ => cases closed

theorem idle_thread {h h' : Handler} {a : Action} (step : ThreadStep env (fun _ => True) h a h') (idle : h.Idle) :
    a.writes = [] ∧ ((a.reads = [] ∧ h'.Idle) ∨ ∃ m, a.reads = [m] ∧ h'.Busy env (fun _ => True) m) := by
  obtain ⟨work_num, e, -, moved⟩ := step
  exact moved.idle ⟨0, trivial⟩ idle

theorem busy_thread {h h' : Handler} {a : Action} {m : Message} (step : ThreadStep env (fun _ => True) h a h')
    (busy : h.Busy env (fun _ => True) m) : (a.reads = [] ∧ a.writes = [] ∧ h'.Busy env (fun _ => True) m) ∨
      ∃ bytes, a.reads = [] ∧ a.writes = [bytes] ∧ Answers env (fun _ => True) m bytes ∧ h'.Idle := by
  obtain ⟨work_num, e, reads, moved⟩ := step
  exact moved.busy reads busy

theorem wrote_ne_nil {acts : List Action} {h h' : Handler} {bytes : List BYTE}
    (run : Run (ThreadStep env fun _ => True) .reading acts h)
    (step : ThreadStep env (fun _ => True) h (.wrote bytes) h') : bytes ≠ [] := by
  have talk := talk_run ⟨0, trivial⟩ run
  generalize acts.flatMap Action.reads = rs at talk
  cases talk with
  | idle idle _ => cases (idle_thread step idle).1
  | busy m busy _ =>
    obtain ⟨-, wrote, -⟩ | ⟨reply, -, wrote, answers, -⟩ := busy_thread step busy
    · cases wrote
    · cases wrote
      exact reply_ne_nil answers.reply

theorem broken_of_idle {h : Handler} (idle : h.Idle) (closed : isOpen h = false) : h.broken = true := by
  cases idle with
  | failing | aborted => rfl
  | reading | refused => cases closed

theorem broken_of_busy {h : Handler} {m : Message} (busy : h.Busy env (fun _ => True) m) (closed : isOpen h = false) :
    h.broken = true ∨ m.text = [] := by
  cases busy with
  | hungUp empty | departed empty | exited empty => exact Or.inr empty
  | failing | aborted => exact Or.inl rfl
  | _ => cases closed

theorem text_end {m : Message} (nothing : m.bytes = []) : m.text = [] := by
  rw [Message.text, nothing]
  rfl

/-- A `read` of an empty stream is at its end. -/
theorem read_end {stream left : List BYTE} {m : Message} (empty : stream = []) (cut : stream = m.bytes ++ left) :
    m.bytes = [] ∧ left = [] :=
  List.append_eq_nil_iff.mp (cut.symm.trans empty)

theorem head_of_text_nil {m : Message} (begun : m.bytes ≠ []) (empty : m.text = []) : m.bytes.head? = some 0 := by
  obtain ⟨byte, left, spelt⟩ := List.exists_cons_of_ne_nil begun
  rw [Message.text, spelt] at empty
  rw [spelt, List.head?_cons]
  by_contra nonzero
  rw [List.takeWhile_cons_of_pos (by simpa using nonzero)] at empty
  cases empty

/-! ### Whole reads -/

/-- Every `read` takes all that is under way. -/
def WholeStep (env : Env) (s : State) (e : Event) (t : State) : Prop :=
  Step env s e t ∧ (∀ m, e = .gets m → t.down = []) ∧ ∀ m, e = .serves (.received m) → t.up = []

/-- The client has printed an answer to its message. -/
def Heard (env : Env) (message shown : List BYTE) : Prop :=
  ∃ m reply : Message, m.bytes = message ∧ Answers env (fun _ => True) m reply.bytes ∧ shown = reply.text

/-! ### Every answer can be printed -/

theorem sound_thread {acts : List Action} {h h' : Handler} (run : Run (ThreadStep env fun _ => True) h acts h')
    (sound : h'.broken = false) : ∀ a ∈ acts, a.fails = false := by
  induction run with
  | nil => exact fun _ none => (List.not_mem_nil none).elim
  | @snoc acts h₁ h₂ a _ last ih =>
    obtain ⟨before, succeeds⟩ : h₁.broken = false ∧ a.fails = false := by
      obtain ⟨work_num, e, -, moved⟩ := last
      cases moved with
      | release failed => cases failed <;> first | exact ⟨rfl, rfl⟩ | cases sound
      | _ => first | exact ⟨rfl, rfl⟩ | cases sound
    intro b listed
    obtain old | new := List.mem_append.mp listed
    · exact ih before b old
    · rw [List.mem_singleton.mp new]
      exact succeeds

/-- A turn of the thread on the message that is under way. -/
theorem turn_on {client : Client} {printed : List (List BYTE)} {m : Message} {acts : List Action} {h : Handler}
    (begun : m.bytes ≠ []) (run : Run (ThreadStep env fun _ => True) .reading acts h)
    (one : acts.flatMap Action.reads <+: [m]) :
    Run (WholeStep env) ⟨client, m.bytes, .reading, [], printed⟩ (acts.map .serves)
      ⟨client, if acts.flatMap Action.reads = [] then m.bytes else [], h, (acts.flatMap Action.writes).flatten,
        printed⟩ := by
  induction run with
  | nil => exact Run.nil
  | @snoc acts h₁ h₂ a _ last ih =>
    rw [List.flatMap_append, List.flatMap_singleton] at one ⊢
    have before := ih ((List.prefix_append _ _).trans one)
    rw [List.map_append, List.map_singleton, List.flatMap_append, List.flatMap_singleton, List.flatten_append]
    refine before.snoc ?_
    cases a with
    | received r =>
      obtain ⟨none, rfl⟩ : acts.flatMap Action.reads = [] ∧ r = m := by
        have len := one.length_le
        simp only [Action.reads, List.length_append, List.length_singleton] at len
        have none : acts.flatMap Action.reads = [] := List.length_eq_zero_iff.mp (by omega)
        rw [none] at one
        exact ⟨none, List.head_eq_of_cons_eq (one.eq_of_length rfl)⟩
      rw [none, if_pos rfl, List.nil_append, if_neg (show (Action.received r).reads ≠ [] from List.cons_ne_nil _ _)]
      simp only [Action.writes, List.flatten_nil, List.append_nil]
      exact ⟨.receive _ r [] h₂ (List.append_nil _).symm (fun nothing => absurd nothing begun) last,
        fun _ other => (by cases other), fun _ _ => rfl⟩
    | wrote bytes =>
      simp only [Action.reads, Action.writes, List.append_nil, List.flatten_singleton]
      exact ⟨.reply _ bytes h₂ last, fun _ other => (by cases other), fun _ other => (by cases other)⟩
    | readFails | writeFails | runs =>
      simp only [Action.reads, Action.writes, List.append_nil, List.flatten_nil]
      exact ⟨.run _ _ h₂ rfl rfl last, fun _ other => (by cases other), fun _ other => (by cases other)⟩

theorem exchange (rest printed : List (List BYTE)) {message shown : List BYTE} (heard : Heard env message shown) :
    ∃ es, (∀ e ∈ es, e.fails = false) ∧ Run (WholeStep env) ⟨.sending message rest, [], .reading, [], printed⟩ es
      ⟨.next rest, [], .reading, [], printed ++ [shown]⟩ := by
  obtain ⟨m, reply, rfl, answers, rfl⟩ := heard
  have begun : m.bytes ≠ [] := fun nothing => answers.begun (text_end nothing)
  have some : reply.bytes ≠ [] := reply_ne_nil answers.reply
  obtain ⟨fuel, work_num, firstFour, buffer, -, answered⟩ := answers
  obtain ⟨acts, own, read, wrote⟩ := @turn_run env (work_num - 1) m reply.bytes
    ⟨fuel, work_num, firstFour, buffer, by omega, answered⟩
  have thread : Run (ThreadStep env fun _ => True) .reading acts .reading := by
    refine own.mono fun h a h' step => ?_
    obtain ⟨e, moved⟩ := step
    exact ⟨_, e, fun _ => trivial, moved⟩
  have served : Run (WholeStep env) ⟨.waiting rest, m.bytes, .reading, [], printed⟩ _ _ :=
    turn_on begun thread (read ▸ List.prefix_rfl)
  rw [read, wrote, if_neg (List.cons_ne_nil _ _), List.flatten_singleton] at served
  have sent : WholeStep env ⟨.sending m.bytes rest, [], .reading, [], printed⟩ (.sends m.bytes)
      ⟨.waiting rest, m.bytes, .reading, [], printed⟩ :=
    ⟨.send ⟨.sending m.bytes rest, [], .reading, [], printed⟩ m.bytes rest rfl, fun _ other => (by cases other),
      fun _ other => (by cases other)⟩
  have got : WholeStep env ⟨.waiting rest, [], .reading, reply.bytes, printed⟩ (.gets reply)
      ⟨.next rest, [], .reading, [], printed ++ [reply.text]⟩ :=
    ⟨.get _ rest reply [] rfl (List.append_nil _).symm (fun nothing => absurd nothing some), fun _ _ => rfl,
      fun _ other => (by cases other)⟩
  refine ⟨_, ?_, ((Run.single sent).append served).snoc got⟩
  intro e listed
  simp only [List.mem_append, List.mem_singleton, List.mem_map] at listed
  obtain (rfl | ⟨a, acted, rfl⟩) | rfl := listed
  · rfl
  · exact sound_thread thread rfl a acted
  · rfl

theorem exchanges_run {messages shown : List (List BYTE)} (heard : List.Forall₂ (Heard env) messages shown)
    (printed : List (List BYTE)) : ∃ es, (∀ e ∈ es, e.fails = false) ∧
      Run (WholeStep env) ⟨.next messages, [], .reading, [], printed⟩ es ⟨.gone, [], .reading, [], printed ++ shown⟩ := by
  induction heard generalizing printed with
  | nil => exact ⟨[], fun _ none => (List.not_mem_nil none).elim, by rw [List.append_nil]; exact Run.nil⟩
  | @cons message shown rest later first _ ih =>
    obtain ⟨es, sound, run⟩ := exchange rest printed first
    obtain ⟨fs, sound', run'⟩ := ih (printed ++ [shown])
    refine ⟨es ++ fs, fun e listed => ?_, ?_⟩
    · exact (List.mem_append.mp listed).elim (sound e) (sound' e)
    · rw [List.append_assoc] at run'
      exact run.append run'

theorem heard_ping (env : Env) : Heard env ping.bytes (ascii "PONG\r\n") :=
  ⟨ping, ⟨ascii "PONG\r\n", by decide⟩, rfl,
    ⟨0, 0, Vector.replicate 5 0, ping.buffer, trivial, turn_ping env 0 _ (by decide)⟩, by decide⟩

theorem ping_run (env : Env) : ∃ es, (∀ e ∈ es, e.fails = false) ∧
    Run (WholeStep env) (start [ping.bytes]) es ⟨.gone, [], .reading, [], [ascii "PONG\r\n"]⟩ :=
  exchanges_run (.cons (heard_ping env) .nil) []

/-! ### The phases of an exchange -/

/-- What was printed is an answer for each of the first messages, and nothing after that. -/
def InStep (env : Env) (messages printed : List (List BYTE)) (flawed : Prop) : Prop :=
  ∃ answered silent, printed = answered ++ List.replicate silent [] ∧
    List.Forall₂ (Heard env) (messages.take answered.length) answered ∧ (silent ≠ 0 → flawed)

inductive Phase (env : Env) (messages : List (List BYTE)) (flawed : Prop) (s : State) : Prop where
  | sending {done todo : List (List BYTE)} (split : messages = done ++ todo)
    (heard : List.Forall₂ (Heard env) done s.printed) (client : s.client = .next todo) (up : s.up = [])
    (down : s.down = []) (idle : s.handler.Idle)
  | asked {done todo : List (List BYTE)} {message : List BYTE} (split : messages = done ++ message :: todo)
    (heard : List.Forall₂ (Heard env) done s.printed) (client : s.client = .waiting todo) (up : s.up = message)
    (down : s.down = []) (idle : s.handler.Idle)
  | busy {done todo : List (List BYTE)} {m : Message} (split : messages = done ++ m.bytes :: todo)
    (heard : List.Forall₂ (Heard env) done s.printed) (client : s.client = .waiting todo) (up : s.up = [])
    (down : s.down = []) (begun : m.bytes ≠ []) (busy : s.handler.Busy env (fun _ => True) m)
  | told {done todo : List (List BYTE)} {m : Message} (split : messages = done ++ m.bytes :: todo)
    (heard : List.Forall₂ (Heard env) done s.printed) (client : s.client = .waiting todo) (up : s.up = [])
    (answers : Answers env (fun _ => True) m s.down) (idle : s.handler.Idle)
  /-- The thread has closed the connection before the client did. -/
  | shut (printed : InStep env messages s.printed flawed) (down : s.down = []) (closed : isOpen s.handler = false)
    (why : flawed)
  | deaf (printed : InStep env messages s.printed flawed) (client : s.client = .gone)

section Phase
variable {messages : List (List BYTE)} {flawed : Prop} {s t : State} {e : Event}

theorem inStep_of_heard {done todo printed : List (List BYTE)} (split : messages = done ++ todo)
    (heard : List.Forall₂ (Heard env) done printed) : InStep env messages printed flawed := by
  refine ⟨printed, 0, (List.append_nil printed).symm, ?_, fun some => absurd rfl some⟩
  rwa [split, ← heard.length_eq, List.take_left']
  rfl

theorem InStep.silent {printed : List (List BYTE)} (inStep : InStep env messages printed flawed) (why : flawed) :
    InStep env messages (printed ++ [[]]) flawed := by
  obtain ⟨answered, silent, rfl, heard, -⟩ := inStep
  refine ⟨answered, silent + 1, ?_, heard, fun _ => why⟩
  rw [List.replicate_succ', List.append_assoc]

theorem Phase.inStep (phase : Phase env messages flawed s) : InStep env messages s.printed flawed := by
  cases phase with
  | sending split heard | asked split heard | busy split heard | told split heard => exact inStep_of_heard split heard
  | shut printed | deaf printed => exact printed

theorem next_ne_waiting {todo rest : List (List BYTE)} : Client.next todo ≠ .waiting rest := by
  cases todo <;> exact Client.noConfusion

/-! ### One step from each phase -/

theorem sending_step {done todo : List (List BYTE)} (split : messages = done ++ todo)
    (heard : List.Forall₂ (Heard env) done s.printed) (client : s.client = .next todo) (up : s.up = [])
    (down : s.down = []) (idle : s.handler.Idle) (step : Step env s e t) : Phase env messages flawed t := by
  cases step with
  | send message rest sending =>
    rw [sending] at client
    cases todo with
    | nil => cases client
    | cons first later =>
      obtain ⟨rfl, rfl⟩ := Client.sending.inj client
      exact .asked split heard rfl (by rw [up, List.nil_append]) down idle
  | sendFails message rest _ => exact .deaf (inStep_of_heard split heard) rfl
  | get rest m left waiting _ _ => exact absurd (client.symm.trans waiting) next_ne_waiting
  | readFails rest waiting => exact absurd (client.symm.trans waiting) next_ne_waiting
  | receive m left h cut ends _ =>
    -- Nothing is under way, so this is the end of the stream.
    exact .deaf (inStep_of_heard split heard) (ends (read_end up cut).1).2
  | reply bytes h moved => cases (idle_thread moved idle).1
  | run a h silent _ moved =>
    obtain ⟨-, ⟨-, idle⟩ | ⟨m, read, -⟩⟩ := idle_thread moved idle
    · exact .sending split heard client up down idle
    · rw [silent] at read
      cases read

theorem asked_step {done todo : List (List BYTE)} {message : List BYTE} (split : messages = done ++ message :: todo)
    (heard : List.Forall₂ (Heard env) done s.printed) (client : s.client = .waiting todo) (up : s.up = message)
    (down : s.down = []) (idle : s.handler.Idle) (broken : s.handler.broken = true → flawed)
    (step : WholeStep env s e t) : Phase env messages flawed t := by
  obtain ⟨step, -, whole⟩ := step
  cases step with
  | send _ _ sending | sendFails _ _ sending =>
    rw [client] at sending
    cases sending
  | get rest m left _ cut ends =>
    -- A reply to nothing: the thread has closed the connection.
    obtain ⟨nothing, rfl⟩ := read_end down cut
    have why := broken (broken_of_idle idle (ends nothing).2)
    refine .shut ?_ rfl (ends nothing).2 why
    rw [text_end nothing]
    exact (inStep_of_heard split heard).silent why
  | readFails rest _ => exact .deaf (inStep_of_heard split heard) rfl
  | receive m left h cut ends moved =>
    obtain rfl : left = [] := whole m rfl
    rw [List.append_nil, up] at cut
    have begun : m.bytes ≠ [] := by
      intro nothing
      rw [client] at ends
      cases (ends nothing).2
    obtain ⟨-, ⟨read, -⟩ | ⟨m', read, busy⟩⟩ := idle_thread moved idle
    · cases read
    · obtain rfl : m = m' := List.head_eq_of_cons_eq read
      exact .busy (cut ▸ split) heard client rfl down begun busy
  | reply bytes h moved => cases (idle_thread moved idle).1
  | run a h silent _ moved =>
    obtain ⟨-, ⟨-, idle⟩ | ⟨m, read, -⟩⟩ := idle_thread moved idle
    · exact .asked split heard client up down idle
    · rw [silent] at read
      cases read

theorem busy_step {done todo : List (List BYTE)} {m : Message} (split : messages = done ++ m.bytes :: todo)
    (heard : List.Forall₂ (Heard env) done s.printed) (client : s.client = .waiting todo) (up : s.up = [])
    (down : s.down = []) (begun : m.bytes ≠ []) (busy : s.handler.Busy env (fun _ => True) m)
    (broken : s.handler.broken = true → flawed) (nul : (∃ message ∈ messages, message.head? = some 0) → flawed)
    (step : Step env s e t) : Phase env messages flawed t := by
  cases step with
  | send _ _ sending | sendFails _ _ sending =>
    rw [client] at sending
    cases sending
  | get rest r left _ cut ends =>
    obtain ⟨nothing, rfl⟩ := read_end down cut
    have closed := (ends nothing).2
    have why : flawed := by
      obtain sick | empty := broken_of_busy busy closed
      · exact broken sick
      · exact nul ⟨m.bytes, by simp [split], head_of_text_nil begun empty⟩
    refine .shut ?_ rfl closed why
    rw [text_end nothing]
    exact (inStep_of_heard split heard).silent why
  | readFails rest _ => exact .deaf (inStep_of_heard split heard) rfl
  | receive r left h _ _ moved =>
    obtain ⟨read, -⟩ | ⟨bytes, read, -⟩ := busy_thread moved busy <;> cases read
  | reply bytes h moved =>
    obtain ⟨-, wrote, -⟩ | ⟨bytes', -, wrote, answers, idle⟩ := busy_thread moved busy
    · cases wrote
    · obtain rfl : bytes = bytes' := List.head_eq_of_cons_eq wrote
      refine .told split heard client up ?_ idle
      rwa [down, List.nil_append]
  | run a h _ silent moved =>
    obtain ⟨-, -, busy⟩ | ⟨bytes, -, wrote, -⟩ := busy_thread moved busy
    · exact .busy split heard client up down begun busy
    · rw [silent] at wrote
      cases wrote

theorem told_step {done todo : List (List BYTE)} {m : Message} (split : messages = done ++ m.bytes :: todo)
    (heard : List.Forall₂ (Heard env) done s.printed) (client : s.client = .waiting todo) (up : s.up = [])
    (answers : Answers env (fun _ => True) m s.down) (idle : s.handler.Idle) (step : WholeStep env s e t) :
    Phase env messages flawed t := by
  obtain ⟨step, whole, -⟩ := step
  cases step with
  | send _ _ sending | sendFails _ _ sending =>
    rw [client] at sending
    cases sending
  | get rest r left waiting cut _ =>
    obtain rfl : left = [] := whole r rfl
    obtain rfl : todo = rest := Client.waiting.inj (client.symm.trans waiting)
    rw [List.append_nil] at cut
    rw [cut] at answers
    have split' : messages = (done ++ [m.bytes]) ++ todo := by rw [split, List.append_assoc, List.singleton_append]
    exact .sending split' (List.rel_append heard (.cons ⟨m, r, rfl, answers, rfl⟩ .nil)) rfl up rfl idle
  | readFails rest _ => exact .deaf (inStep_of_heard split heard) rfl
  | receive r left h cut ends _ =>
    rw [client] at ends
    cases (ends (read_end up cut).1).2
  | reply bytes h moved => cases (idle_thread moved idle).1
  | run a h silent _ moved =>
    obtain ⟨-, ⟨-, idle⟩ | ⟨m, read, -⟩⟩ := idle_thread moved idle
    · exact .told split heard client up answers idle
    · rw [silent] at read
      cases read

theorem shut_step (printed : InStep env messages s.printed flawed) (down : s.down = [])
    (closed : isOpen s.handler = false) (why : flawed) (step : Step env s e t) : Phase env messages flawed t := by
  cases step with
  | send message rest _ => exact .shut printed down closed why
  | sendFails message rest _ => exact .deaf printed rfl
  | get rest m left _ cut _ =>
    obtain ⟨nothing, rfl⟩ := read_end down cut
    refine .shut ?_ rfl closed why
    rw [text_end nothing]
    exact printed.silent why
  | readFails rest _ => exact .deaf printed rfl
  | receive m left h _ _ moved => cases (thread_closed moved closed).2.1
  | reply bytes h moved => cases (thread_closed moved closed).2.2
  | run a h _ _ moved => exact .shut printed down (thread_closed moved closed).1 why

theorem deaf_step (printed : InStep env messages s.printed flawed) (client : s.client = .gone)
    (step : Step env s e t) : Phase env messages flawed t := by
  cases step with
  | send message rest here | sendFails message rest here | readFails rest here =>
    rw [client] at here
    cases here
  | get rest m left here _ _ =>
    rw [client] at here
    cases here
  | receive m left h _ _ _ => exact .deaf printed client
  | reply bytes h _ => exact .deaf printed client
  | run a h _ _ _ => exact .deaf printed client

theorem phase_step (broken : s.handler.broken = true → flawed)
    (nul : (∃ message ∈ messages, message.head? = some 0) → flawed) (phase : Phase env messages flawed s)
    (step : WholeStep env s e t) : Phase env messages flawed t := by
  cases phase with
  | sending split heard client up down idle => exact sending_step split heard client up down idle step.1
  | asked split heard client up down idle => exact asked_step split heard client up down idle broken step
  | busy split heard client up down begun busy =>
    exact busy_step split heard client up down begun busy broken nul step.1
  | told split heard client up answers idle => exact told_step split heard client up answers idle step
  | shut printed down closed why => exact shut_step printed down closed why step.1
  | deaf printed client => exact deaf_step printed client step.1

end Phase

/-! ### Every run -/

/-- Something failed, or a message begins with a NUL, at which the thread hangs up. -/
def Flawed (messages : List (List BYTE)) (es : List Event) : Prop :=
  (∃ e ∈ es, e.fails = true) ∨ ∃ message ∈ messages, message.head? = some 0

theorem Flawed.snoc {messages : List (List BYTE)} {es : List Event} (e : Event) (flawed : Flawed messages es) :
    Flawed messages (es ++ [e]) := by
  obtain ⟨f, listed, fails⟩ | nul := flawed
  · exact Or.inl ⟨f, List.mem_append_left _ listed, fails⟩
  · exact Or.inr nul

theorem broken_step {s t : State} {e : Event} (step : Step env s e t) (broken : t.handler.broken = true) :
    s.handler.broken = true ∨ e.fails = true := by
  obtain ⟨-, same⟩ | ⟨a, rfl, work_num, effect, -, moved⟩ := step.thread
  · rw [same] at broken
    exact Or.inl broken
  · by_contra sound
    obtain ⟨before, succeeds⟩ := not_or.mp sound
    have after := moved.client.2 (Bool.not_eq_true _ ▸ succeeds) (Bool.not_eq_true _ ▸ before)
    rw [after] at broken
    cases broken

theorem phase_run {messages : List (List BYTE)} {es : List Event} {s : State}
    (run : Run (WholeStep env) (start messages) es s) : Phase env messages (Flawed messages es) s := by
  refine (run.history (P := fun es s => ∀ flawed, (Flawed messages es → flawed) →
    Phase env messages flawed s ∧ (s.handler.broken = true → flawed)) ?_ ?_ _ id).1
  · intro flawed _
    exact ⟨.sending (List.nil_append _).symm .nil rfl rfl rfl .reading, fun broken => by cases broken⟩
  · intro es s e t before step flawed why
    obtain ⟨phase, broken⟩ := before flawed fun flaw => why (flaw.snoc e)
    refine ⟨phase_step broken (fun nul => why (Or.inr nul)) phase step, fun after => ?_⟩
    obtain old | fails := broken_step step.1 after
    · exact broken old
    · exact why (Or.inl ⟨e, by simp, fails⟩)

/-- Whatever fails, what the client prints is an answer to each of its first messages, in their order, and
after those nothing: and that only if something fails, or a message begins with a NUL. -/
theorem replies_in_step {messages : List (List BYTE)} {es : List Event} {s : State}
    (run : Run (WholeStep env) (start messages) es s) : InStep env messages s.printed (Flawed messages es) :=
  (phase_run run).inStep

theorem replies_in_step_sample : ∃ (es : List Event) (s : State), s.printed = [ascii "PONG\r\n"] ∧
    InStep sampleEnv [ping.bytes] s.printed (Flawed [ping.bytes] es) := by
  obtain ⟨es, -, run⟩ := ping_run sampleEnv
  exact ⟨es, _, rfl, replies_in_step run⟩

/-- The exchanges that the client has not finished. -/
def Client.exchanges : Client → Nat
  | .sending _ rest | .waiting rest => rest.length + 1
  | .gone => 0

theorem exchanges_next (messages : List (List BYTE)) : (Client.next messages).exchanges = messages.length := by
  cases messages <;> rfl

theorem printed_length {messages : List (List BYTE)} {es : List Event} {s : State}
    (run : Run (Step env) (start messages) es s) (sound : ∀ e ∈ es, e.fails = false) :
    s.printed.length + s.client.exchanges = messages.length := by
  refine run.history
    (P := fun es s => (∀ e ∈ es, e.fails = false) → s.printed.length + s.client.exchanges = messages.length) ?_ ?_ sound
  · intro _
    rw [start, exchanges_next, List.length_nil, Nat.zero_add]
  · intro es s e t before step sound
    have count := before fun f hf => sound f (List.mem_append_left _ hf)
    have last : e.fails = false := sound e (by simp)
    cases step with
    | send message rest sending => simpa only [sending, Client.exchanges] using count
    | get rest m left waiting _ _ =>
      simp only [waiting, Client.exchanges] at count
      rw [exchanges_next, List.length_append, List.length_singleton]
      omega
    | sendFails message rest _ => cases last
    | readFails rest _ => cases last
    | receive m left h _ _ _ => exact count
    | reply bytes h _ => exact count
    | run a h _ _ _ => exact count

theorem printed_heard {messages : List (List BYTE)} {es : List Event} {s : State}
    (begun : ∀ message ∈ messages, message.head? ≠ some 0) (run : Run (WholeStep env) (start messages) es s)
    (sound : ∀ e ∈ es, e.fails = false) (gone : s.client = .gone) : List.Forall₂ (Heard env) messages s.printed := by
  have count := printed_length (run.mono fun _ _ _ step => step.1) sound
  rw [gone] at count
  obtain ⟨answered, silent, same, heard, why⟩ := replies_in_step run
  obtain rfl : silent = 0 := by
    by_contra some
    obtain ⟨e, listed, fails⟩ | ⟨message, listed, nul⟩ := why some
    · rw [sound e listed] at fails
      cases fails
    · exact begun message listed nul
  rw [List.replicate_zero, List.append_nil] at same
  rw [← same] at heard
  rwa [List.take_of_length_le (by simp only [Client.exchanges] at count; omega)] at heard

/-- What a client can print before it ends by itself: an answer to each of its messages, in their order. -/
theorem printed_iff {messages printed : List (List BYTE)} (begun : ∀ message ∈ messages, message.head? ≠ some 0) :
    (∃ es s, Run (WholeStep env) (start messages) es s ∧ (∀ e ∈ es, e.fails = false) ∧ s.client = .gone ∧
      s.printed = printed) ↔ List.Forall₂ (Heard env) messages printed := by
  constructor
  · intro reached
    obtain ⟨es, s, run, sound, gone, rfl⟩ := reached
    exact printed_heard begun run sound gone
  · intro heard
    obtain ⟨es, sound, run⟩ := exchanges_run heard []
    exact ⟨es, _, run, sound, rfl, rfl⟩

theorem printed_iff_sample : ∃ es s, Run (WholeStep sampleEnv) (start [ping.bytes]) es s ∧
    (∀ e ∈ es, e.fails = false) ∧ s.client = .gone ∧ s.printed = [ascii "PONG\r\n"] :=
  (printed_iff (by decide)).mpr (.cons (heard_ping sampleEnv) .nil)

/-! ### What `client.c` prints -/

def pongError : List BYTE := ascii "ERRO PONG message is strictly reserved for server.\r\n"

theorem heard_pong {shown : List BYTE} : Heard env pong.bytes shown ↔ shown = pongError := by
  have error : (plainReply env .pong pong.buffer).val = padded "ERRO PONG message is strictly reserved for server.\r\n" 80 :=
    freshReply_val pong.buffer (by decide) (by decide)
  constructor
  · intro heard
    obtain ⟨m, reply, same, answers, rfl⟩ := heard
    obtain rfl := eq_of_bytes same
    unfold Message.text
    generalize reply.bytes = bytes at answers ⊢
    cases answers.reply with
    | unknown fronted => exact absurd fronted (by decide)
    | refused work => exact absurd work (by decide)
    | mined mined => exact absurd mined.1.1 (by decide)
    | plain kind branch =>
      obtain rfl : .pong = kind := Branch.plain.inj branch
      rw [error]
      decide
  · rintro rfl
    have reply : Reply env pong (padded "ERRO PONG message is strictly reserved for server.\r\n" 80) :=
      error ▸ .plain .pong (by decide)
    exact ⟨pong, ⟨_, by decide⟩, rfl, reply.answers (by decide), by decide⟩

/-- The three ends of the WORK message: refused, not recognised for the stack, or solved. -/
theorem heard_request {shown : List BYTE} : Heard env request.bytes shown ↔
    shown = ascii "ERRO \r\n" ∨ shown = ascii "ERRO\r\n" ∨ Mined env request shown := by
  have plain : Literal request.text := by decide
  have long : 79 ≤ request.text.length := by decide
  have work : ascii "WORK" <+: request.text := by decide
  have begun : request.text ≠ [] := List.ne_nil_of_length_pos (by omega)
  have unknown : (unknownReply request.buffer).val.takeWhile (· ≠ 0) = ascii "ERRO\r\n" := by
    have literal : Literal (ascii "ERRO\r\n") := by decide
    rw [unknownReply_val, List.takeWhile_append_of_pos fun c hc => decide_eq_true (literal c hc),
      List.takeWhile_cons_of_neg (by simp), List.append_nil]
  constructor
  · intro heard
    obtain ⟨m, reply, same, answers, rfl⟩ := heard
    obtain rfl := eq_of_bytes same
    unfold Message.text
    generalize reply.bytes = bytes at answers ⊢
    cases answers.reply with
    | unknown fronted => exact Or.inr (Or.inl unknown)
    | refused work => exact Or.inl (by decide)
    | plain kind branch =>
      rw [classify_eq_work.mpr ⟨rfl, work⟩] at branch
      cases branch
    | mined mined =>
      have literal : Literal bytes := by
        obtain ⟨-, k, rfl, -⟩ := mined
        exact literal_solution plain _
      rw [List.takeWhile_eq_self_iff.mpr fun c hc => decide_eq_true (literal c hc)]
      exact Or.inr (Or.inr mined)
  · intro ends
    obtain rfl | rfl | mined := ends
    · have reply : Reply env request (ascii "ERRO \r\n") := .refused work
      exact ⟨request, ⟨_, by decide⟩, rfl, reply.answers begun, by decide⟩
    · have reply : Reply env request (unknownReply request.buffer).val := .unknown (Or.inr (Or.inr (Or.inl work)))
      have fits : (unknownReply request.buffer).val.length ≤ 255 := by
        rw [unknownReply_val, List.length_append, List.length_cons, length_slice]
        decide
      exact ⟨request, ⟨_, fits⟩, rfl, reply.answers begun, unknown.symm⟩
    · have reply : Reply env request shown := .mined mined
      obtain ⟨-, k, rfl, -⟩ := mined
      have fits : (solution request.text ((nonceField env request.text + k) % 2 ^ 64)).length ≤ 255 := by
        rw [length_solution long]
        omega
      refine ⟨request, ⟨_, fits⟩, rfl, reply.answers begun, ?_⟩
      exact (text_of_literal (m := ⟨_, fits⟩) (literal_solution plain _)).symm

/-- The client of `client.c` prints what became of its WORK message and two errors. -/
theorem client_prints {env : Env} {printed : List (List BYTE)} :
    (∃ es s, Run (WholeStep env) (start messages) es s ∧ (∀ e ∈ es, e.fails = false) ∧ s.client = .gone ∧
      s.printed = printed) ↔
      ∃ first, printed = [first, pongError, pongError] ∧
        (first = ascii "ERRO \r\n" ∨ first = ascii "ERRO\r\n" ∨ Mined env request first) := by
  have exchanges : List.Forall₂ (Heard env) messages printed ↔
      ∃ first, printed = [first, pongError, pongError] ∧ Heard env request.bytes first := by
    constructor
    · intro heard
      obtain _ | ⟨first, heard⟩ := heard
      obtain _ | ⟨second, heard⟩ := heard
      obtain _ | ⟨third, heard⟩ := heard
      cases heard
      rw [heard_pong] at second third
      exact ⟨_, by rw [second, third], first⟩
    · intro heard
      obtain ⟨first, rfl, heard⟩ := heard
      exact .cons heard (.cons (heard_pong.mpr rfl) (.cons (heard_pong.mpr rfl) .nil))
  simp only [← heard_request, ← exchanges]
  constructor
  · intro reached
    obtain ⟨es, s, run, sound, gone, rfl⟩ := reached
    exact printed_heard (by decide) run sound gone
  · intro heard
    obtain ⟨es, sound, run⟩ := exchanges_run heard []
    exact ⟨es, _, run, sound, rfl, rfl⟩

end WorkServer.Connection

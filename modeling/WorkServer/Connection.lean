import WorkServer.Threads.Clients
import WorkServer.Threads.Turns

/-!
# A client and its thread

`client.c` over its connection to a thread of `work_function`: it writes a message, reads
once, prints what it got, and goes on to the next message. The connection is a stream of
bytes in either direction, and a `read` takes any part of what is under way. A `write`
never waits here: a bound on what is under way is put on the steps where it matters. The
other threads of the server are the values that this one finds in `work_num`, and the end
of the whole server process is a failure that has no event of its own.
-/

namespace WorkServer.Connection
open Tracing CString Runs

/-! ### The client -/

/-- Where `main` of the client stands. -/
inductive Client where
  /-- Before the `write` of a message, with the messages that come after it. -/
  | sending (message : List BYTE) (rest : List (List BYTE))
  | waiting (rest : List (List BYTE))
  /-- The process has ended, and its socket is closed. -/
  | gone

def Client.next : List (List BYTE) → Client
  | [] => .gone
  | message :: rest => .sending message rest

def request : Message :=
  ⟨ascii "WORK 1dffffff 0000000019d6689c085ae165831e934ff763ae46a218a6c172b3f1b60a8ce26f 1000000023212399 01\r\n",
    by decide⟩

def pong : Message := ⟨ascii "PONG\r\n", by decide⟩

/-- The messages of `client.c`. -/
def messages : List (List BYTE) := [request.bytes, pong.bytes, pong.bytes]

/-! ### The connection -/

/-- The thread has not closed its socket yet. -/
def isOpen : Handler → Bool
  | .flagFailed | .hungUp | .departed | .exited | .failing | .aborted => false
  | _ => true

structure State where
  client : Client
  /-- Written by the client and not read yet. -/
  up : List BYTE
  handler : Handler
  /-- Written by the thread and not read yet. -/
  down : List BYTE
  /-- What the client has printed after its reads. -/
  printed : List (List BYTE)

inductive Event where
  | sends (message : List BYTE)
  | sendFails
  | gets (m : Message)
  | readFails
  | serves (a : Action)

def Event.fails : Event → Bool
  | .sendFails | .readFails => true
  | .serves a => a.fails
  | _ => false

/-- A `read` takes something, or nothing at the end of a stream that the other side has closed. -/
inductive Step (env : Env) : State → Event → State → Prop where
  | send (s : State) (message : List BYTE) (rest : List (List BYTE)) : s.client = .sending message rest →
    Step env s (.sends message) { s with client := .waiting rest, up := s.up ++ message }
  | sendFails (s : State) (message : List BYTE) (rest : List (List BYTE)) : s.client = .sending message rest →
    Step env s .sendFails { s with client := .gone }
  | get (s : State) (rest : List (List BYTE)) (m : Message) (left : List BYTE) : s.client = .waiting rest →
    s.down = m.bytes ++ left → (m.bytes = [] → s.down = [] ∧ isOpen s.handler = false) →
    Step env s (.gets m) { s with client := .next rest, down := left, printed := s.printed ++ [m.text] }
  | readFails (s : State) (rest : List (List BYTE)) : s.client = .waiting rest →
    Step env s .readFails { s with client := .gone }
  | receive (s : State) (m : Message) (left : List BYTE) (h : Handler) :
    s.up = m.bytes ++ left → (m.bytes = [] → s.up = [] ∧ s.client = .gone) →
    ThreadStep env (fun _ => True) s.handler (.received m) h →
    Step env s (.serves (.received m)) { s with handler := h, up := left }
  | reply (s : State) (bytes : List BYTE) (h : Handler) :
    ThreadStep env (fun _ => True) s.handler (.wrote bytes) h →
    Step env s (.serves (.wrote bytes)) { s with handler := h, down := s.down ++ bytes }
  | run (s : State) (a : Action) (h : Handler) : a.reads = [] → a.writes = [] →
    ThreadStep env (fun _ => True) s.handler a h →
    Step env s (.serves a) { s with handler := h }

/-- The connection accepted, and nothing written yet. -/
def start (messages : List (List BYTE)) : State where
  client := .next messages
  up := []
  handler := .reading
  down := []
  printed := []

/-! ### The thread of a run -/

def Event.served : Event → List Action
  | .serves a => [a]
  | _ => []

def served (es : List Event) : List Action := es.flatMap Event.served

section Thread
variable {env : Env} {s t : State} {e : Event} {es : List Event}

theorem Step.thread (step : Step env s e t) : (e.served = [] ∧ t.handler = s.handler) ∨
    ∃ a, e = .serves a ∧ ThreadStep env (fun _ => True) s.handler a t.handler := by
  cases step with
  | receive m left h _ _ moved => exact Or.inr ⟨_, rfl, moved⟩
  | reply bytes h moved => exact Or.inr ⟨_, rfl, moved⟩
  | run a h _ _ moved => exact Or.inr ⟨_, rfl, moved⟩
  | _ => exact Or.inl ⟨rfl, rfl⟩

theorem served_run {messages : List (List BYTE)} (run : Run (Step env) (start messages) es s) :
    Run (ThreadStep env fun _ => True) .reading (served es) s.handler := by
  refine run.history (P := fun es s => Run (ThreadStep env fun _ => True) .reading (served es) s.handler) Run.nil ?_
  intro es s e t before step
  have later : served (es ++ [e]) = served es ++ e.served := by simp [served]
  rw [later]
  obtain ⟨silent, same⟩ | ⟨a, rfl, moved⟩ := step.thread
  · rw [silent, same, List.append_nil]
    exact before
  · exact before.snoc moved

end Thread

end WorkServer.Connection

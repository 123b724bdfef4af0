import WorkServer.Handler
import WorkServer.Lib.Runs

/-!
# The threads of the server

The accept loop of `main`, one thread of `work_function` for each connection and the
thread of `do_work`, over the shared `client_num`, `work_num` and job queue. Every
`++`, `--` and read of a counter is one step, as is every `read`, `write` and `work`.
Nothing of the server calls `add_to_queue`. The signal that a `write` to a closed
connection raises, and that would end the process, is left out: such a `write` fails.
-/

namespace WorkServer
open Tracing Runs

/-! ### Handler threads -/

/-- Where a handler thread stands in `work_function`. -/
inductive Handler where
  | reading
  | answering (bytes : List BYTE)
  /-- At the head of the WORK branch, before `work_num++`. -/
  | counting (buffer : Arr 256)
  /-- Before the test of `work_num` and of the length. -/
  | testing (buffer : Arr 256)
  | refusing (buffer : Arr 256)
  /-- The refusal was written, or its `write` failed; `work_num--` comes next. -/
  | refused (failed : Bool)
  | flagged (buffer : Arr 256)
  /-- The `write` to a flagged client failed; `work_num--` comes next. -/
  | flagFailed
  | working (fields : Fields) (buffer : Arr 256)
  /-- `work` has returned; `work_num--` comes next. -/
  | worked (bytes : List BYTE)
  /-- The socket is closed after an empty message; `client_num--` comes next. -/
  | hungUp
  /-- Before `pthread_exit`, past `client_num--`. -/
  | departed
  | exited
  /-- The socket is closed after a failed `read` or `write`; `pthread_exit` comes next. -/
  | failing
  | aborted

/-- What a step does to the shared counters. -/
structure Effect where
  client_num : Int := 0
  work_num : Int := 0

inductive Action where
  | received (m : Message)
  | readFails
  | wrote (bytes : List BYTE)
  | writeFails
  /-- A step that neither reads nor writes a socket. -/
  | runs

def afterRead (env : Env) (firstFour : Arr 5) (m : Message) : Handler :=
  if entry m.buffer 0 = 0 then
    .hungUp
  else
    match (dispatch firstFour m.buffer).val with
    | .plain kind => .answering (plainReply env kind m.buffer).val
    | .work => .counting m.buffer

def afterTest (env : Env) (work_num : Int) (buffer : Arr 256) : Handler :=
  if (refuses work_num buffer).val then
    .refusing buffer
  else
    match (workFields env buffer).val with
    | none => .flagged buffer
    | some fields => .working fields buffer

/-- One step of a handler thread, which may read `work_num`. -/
inductive Handler.Step (env : Env) (work_num : Int) : Handler → Action → Effect → Handler → Prop where
  | receive (firstFour : Arr 5) (m : Message) :
    Step env work_num .reading (.received m) {} (afterRead env firstFour m)
  | readFails : Step env work_num .reading .readFails {} .failing
  | write (bytes : List BYTE) : Step env work_num (.answering bytes) (.wrote bytes) {} .reading
  | writeFails (bytes : List BYTE) : Step env work_num (.answering bytes) .writeFails {} .failing
  | count (buffer : Arr 256) : Step env work_num (.counting buffer) .runs { work_num := 1 } (.testing buffer)
  | test (buffer : Arr 256) :
    Step env work_num (.testing buffer) .runs {} (afterTest env work_num buffer)
  | refuse (buffer : Arr 256) :
    Step env work_num (.refusing buffer) (.wrote (shortError buffer).val) {} (.refused false)
  | refuseFails (buffer : Arr 256) : Step env work_num (.refusing buffer) .writeFails {} (.refused true)
  | release (failed : Bool) :
    Step env work_num (.refused failed) .runs { work_num := -1 } (if failed then .failing else .reading)
  | flag (buffer : Arr 256) :
    Step env work_num (.flagged buffer) (.wrote (shortError buffer).val) {} .reading
  | flagFails (buffer : Arr 256) : Step env work_num (.flagged buffer) .writeFails {} .flagFailed
  | flagRelease : Step env work_num .flagFailed .runs { work_num := -1 } .failing
  | mine (fuel : Nat) (fields : Fields) (buffer : Arr 256) (bytes : List BYTE)
    (returned : (minedReply env fuel fields buffer).val = some bytes) :
    Step env work_num (.working fields buffer) .runs {} (.worked bytes)
  | finish (bytes : List BYTE) :
    Step env work_num (.worked bytes) .runs { work_num := -1 } (.answering bytes)
  | depart : Step env work_num .hungUp .runs { client_num := -1 } .departed
  | exit : Step env work_num .departed .runs {} .exited
  | abort : Step env work_num .failing .runs {} .aborted

/-! ### The accept loop -/

inductive Acceptor where
  | accepting
  /-- `accept` has returned, a descriptor or an error; `client_num++` comes next. -/
  | accepted (ok : Bool)
  | testing
  /-- The connection is closed again; `client_num--` comes next. -/
  | undoing
  /-- Before `pthread_create`. -/
  | spawning
  | gone
  deriving DecidableEq

/-! ### The queue thread -/

structure Job where
  difficulty : Arr 32
  seed : Arr 40
  start : Arr 32

inductive Worker where
  | polling
  | working (job : Job)
  | popping (buffer : Arr 256)
  | releasing (buffer : Arr 256)
  | writing (buffer : Arr 256)

/-! ### The system -/

structure State where
  client_num : Int
  work_num : Int
  main : Acceptor
  handlers : List Handler
  queue : List Job
  worker : Worker

inductive Event where
  | main
  | handler (i : Nat) (action : Action)
  | worker

inductive Step (env : Env) : State → Event → State → Prop where
  | accept (s : State) (ok : Bool) : s.main = .accepting →
    Step env s .main { s with main := .accepted ok }
  | count (s : State) (ok : Bool) : s.main = .accepted ok →
    Step env s .main { s with client_num := s.client_num + 1, main := if ok then .testing else .gone }
  | test (s : State) : s.main = .testing →
    Step env s .main { s with main := if s.client_num ≥ MAX_CLIENTS then .undoing else .spawning }
  | undo (s : State) : s.main = .undoing →
    Step env s .main { s with client_num := s.client_num - 1, main := .accepting }
  | spawn (s : State) : s.main = .spawning →
    Step env s .main { s with handlers := s.handlers ++ [.reading], main := .accepting }
  | spawnFails (s : State) : s.main = .spawning →
    Step env s .main { s with main := .gone }
  | handler (s : State) (i : Nat) (h h' : Handler) (a : Action) (e : Effect) : s.main ≠ .gone →
    s.handlers[i]? = some h → Handler.Step env s.work_num h a e h' →
    Step env s (.handler i a)
      { s with
        client_num := s.client_num + e.client_num
        work_num := s.work_num + e.work_num
        handlers := s.handlers.set i h' }
  | take (s : State) (job : Job) (rest : List Job) : s.main ≠ .gone → s.worker = .polling →
    s.queue = job :: rest → Step env s .worker { s with worker := .working job }
  | solve (s : State) (job : Job) (fuel : Nat) (buffer left : Arr 256) (seed : Arr 40) : s.main ≠ .gone →
    s.worker = .working job →
    (work env fuel buffer job.difficulty job.seed job.start).val = some (left, seed) →
    Step env s .worker { s with worker := .popping left }
  | pop (s : State) (buffer : Arr 256) : s.main ≠ .gone → s.worker = .popping buffer →
    Step env s .worker { s with queue := s.queue.tail, worker := .releasing buffer }
  | release (s : State) (buffer : Arr 256) : s.main ≠ .gone → s.worker = .releasing buffer →
    Step env s .worker { s with work_num := s.work_num - 1, worker := .writing buffer }
  | write (s : State) (buffer : Arr 256) : s.main ≠ .gone → s.worker = .writing buffer →
    Step env s .worker { s with worker := .polling }

/-- The server with `n` connections accepted and no message read yet. -/
def start (n : Nat) : State where
  client_num := n
  work_num := 0
  main := .accepting
  handlers := List.replicate n .reading
  queue := []
  worker := .polling

end WorkServer

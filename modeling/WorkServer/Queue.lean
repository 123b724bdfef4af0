import WorkServer.Lib.Heap
import WorkServer.Threads

/-!
# The job queue

The list of `work.c`, `add_to_queue` and the loop of `do_work`, over the globals `head` and
`curr`. Each call is one step, and so is each part of the loop that reads or writes a
global; any number of clients may add between any two of them.
-/

namespace WorkServer.Queue
open Tracing Runs LinkedHeap

structure ClientInfo where
  client_fd : Int
  deriving DecidableEq

/-- `work_job_t`. The arrays of a job belong to its node. -/
structure Node where
  seed : Arr 40
  difficulty : Arr 32
  start : Arr 32
  id : Int
  client_fd : Int
  info : ClientInfo
  next : Option Addr
  prev : Option Addr

/-! ### The list -/

/-- What a call of a list function returns, and what it leaves in `*curr` and the heap. -/
structure Listed where
  result : Option Addr
  curr : Option Addr
  heap : Heap Node

/-- `malloc` is the address of the new node, or NULL. -/
def createList (malloc : Option Addr) (seed : Arr 40) (target start : Arr 32) (client_fd id : Int)
    (curr : Option Addr) (info : ClientInfo) (heap : Heap Node) : Listed :=
  match malloc with
  | none => ⟨none, curr, heap⟩
  | some ptr => ⟨some ptr, some ptr, put heap ptr ⟨seed, target, start, id, client_fd, info, none, none⟩⟩

def addToList (malloc : Option Addr) (seed : Arr 40) (target start : Arr 32) (client_fd id : Int)
    (add_to_end : Bool) (head curr : Option Addr) (info : ClientInfo) (heap : Heap Node) :
    Except Fault Listed :=
  match head with
  | none => .ok (createList malloc seed target start client_fd id curr info heap)
  | some _ =>
    match malloc with
    | none => .ok ⟨none, curr, heap⟩
    | some ptr =>
      let heap := put heap ptr ⟨seed, target, start, id, client_fd, info, none, none⟩
      if add_to_end then do
        let heap ← modify heap (fun node => { node with prev := curr }) (some ptr)
        let heap ← modify heap (fun node => { node with next := some ptr }) curr
        return ⟨some ptr, some ptr, heap⟩
      else do
        let heap ← modify heap (fun node => { node with next := head }) (some ptr)
        let heap ← modify heap (fun node => { node with prev := some ptr }) head
        -- `head = ptr` sets the parameter, not the caller's pointer.
        return ⟨some ptr, curr, heap⟩

def popHead (head curr : Option Addr) (heap : Heap Node) : Except Fault Listed :=
  match head with
  | none => .ok ⟨none, curr, heap⟩
  | some tmp => do
    let heap ← modify heap (fun node => { node with prev := none }) (← deref heap head).next
    let head := (← deref heap head).next
    let heap := free heap tmp
    return ⟨head, if head = none then head else curr, heap⟩

theorem popHead_last {heap : Heap Node} {p : Addr} {node : Node} (curr : Option Addr) (here : heap p = some node)
    (last : node.next = none) : popHead (some p) curr heap = .error .null := by
  unfold popHead
  rw [deref_of here]
  show (modify heap _ node.next >>= _) = _
  rw [last]
  rfl

theorem popHead_of_second {heap : Heap Node} {p q : Addr} {node second : Node} (curr : Option Addr)
    (here : heap p = some node) (next : node.next = some q) (there : heap q = some second) (apart : p ≠ q) :
    popHead (some p) curr heap =
      .ok ⟨some q, curr, free (put heap q { second with prev := none }) p⟩ := by
  unfold popHead
  rw [deref_of here]
  show (modify heap _ node.next >>= _) = _
  rw [next, modify_of _ there]
  show (deref (put heap q _) (some p) >>= _) = _
  rw [deref_of (by rw [put_other _ _ apart, here])]
  show Except.ok (Listed.mk node.next _ _) = _
  rw [next]
  rfl

/-! ### The clients and the worker -/

/-- Where `do_work` stands in its loop. -/
inductive Worker where
  /-- Before the test of `head`. -/
  | polling
  /-- Before `curr_client = curr->info`. -/
  | taking
  /-- Before the arguments of `work` are read from `head`. -/
  | calling (curr_client : ClientInfo)
  | working (curr_client : ClientInfo) (job : Addr)
  /-- Before `head = pop_head (head, &curr)`. -/
  | popping (curr_client : ClientInfo)
  /-- Before `work_num--`. -/
  | releasing (curr_client : ClientInfo)
  | writing (curr_client : ClientInfo)

structure State where
  heap : Heap Node
  head : Option Addr
  curr : Option Addr
  work_num : Int
  /-- The buffer of `do_work`, cleared once before its loop. -/
  buffer : Arr 256
  worker : Worker
  /-- What `do_work` has handed to `write` so far, with the descriptors. -/
  written : List (Int × List BYTE)

def addToQueue (malloc : Option Addr) (job : Job) (info : ClientInfo) (s : State) : Except Fault State := do
  let listed ← addToList malloc job.seed job.difficulty job.start info.client_fd s.work_num true s.head s.curr
    info s.heap
  return { s with heap := listed.heap, head := listed.result, curr := listed.curr }

def takeClient (s : State) : Except Fault State := do
  let node ← deref s.heap s.curr
  return { s with worker := .calling node.info }

def callWork (curr_client : ClientInfo) (s : State) : Except Fault State :=
  match s.head with
  | none => .error .null
  | some job => do
    let _ ← deref s.heap s.head
    return { s with worker := .working curr_client job }

theorem takeClient_of {s : State} {p : Addr} {last : Node} (curr : s.curr = some p) (there : s.heap p = some last) :
    takeClient s = .ok { s with worker := .calling last.info } := by
  unfold takeClient
  rw [curr, deref_of there]
  rfl

theorem callWork_of {s : State} {p : Addr} {node : Node} (curr_client : ClientInfo) (head : s.head = some p)
    (here : s.heap p = some node) : callWork curr_client s = .ok { s with worker := .working curr_client p } := by
  unfold callWork
  simp only [head, deref_of here]
  rfl

def popJob (curr_client : ClientInfo) (s : State) : Except Fault State := do
  let listed ← popHead s.head s.curr s.heap
  return { s with
    heap := listed.heap
    head := listed.result
    curr := listed.curr
    worker := .releasing curr_client }

/-- The bytes of `write (fd, buffer, strlen (buffer))`. -/
def answer (buffer : Arr 256) : Traced (List BYTE) := do
  readRange buffer 0 (← strlen buffer)

inductive Event where
  | add (malloc : Option Addr) (job : Job) (info : ClientInfo)
  | poll
  | take
  | call
  | solve
  | pop
  | release
  | write

/-- A step may end in a fault, and then nothing follows. A `write` that fails closes the
descriptor, and the loop goes on as after one that succeeds. -/
inductive Step (env : Env) : Except Fault State → Event → Except Fault State → Prop where
  | add (s : State) (malloc : Option Addr) (job : Job) (info : ClientInfo) :
    (∀ p, malloc = some p → s.heap p = none) →
    Step env (.ok s) (.add malloc job info) (addToQueue malloc job info s)
  | poll (s : State) : s.worker = .polling →
    Step env (.ok s) .poll (.ok { s with worker := if s.head = none then .polling else .taking })
  | take (s : State) : s.worker = .taking → Step env (.ok s) .take (takeClient s)
  | call (s : State) (curr_client : ClientInfo) : s.worker = .calling curr_client →
    Step env (.ok s) .call (callWork curr_client s)
  | solve (s : State) (curr_client : ClientInfo) (job : Addr) (node : Node) (fuel : Nat) (buffer : Arr 256)
    (seed : Arr 40) : s.worker = .working curr_client job → s.heap job = some node →
    (work env fuel s.buffer node.difficulty node.seed node.start).val = some (buffer, seed) →
    Step env (.ok s) .solve (.ok { s with
      heap := put s.heap job { node with seed := seed }
      buffer := buffer
      worker := .popping curr_client })
  | pop (s : State) (curr_client : ClientInfo) : s.worker = .popping curr_client →
    Step env (.ok s) .pop (popJob curr_client s)
  | release (s : State) (curr_client : ClientInfo) : s.worker = .releasing curr_client →
    Step env (.ok s) .release (.ok { s with work_num := s.work_num - 1, worker := .writing curr_client })
  | write (s : State) (curr_client : ClientInfo) : s.worker = .writing curr_client →
    Step env (.ok s) .write (.ok { s with
      worker := .polling
      written := s.written ++ [(curr_client.client_fd, (answer s.buffer).val)] })

/-- The empty queue, with `do_work` at the head of its loop. -/
def start : State where
  heap := fun _ => none
  head := none
  curr := none
  work_num := 0
  buffer := Vector.replicate 256 0
  worker := .polling
  written := []

/-! ### What the queue is for -/

/-- A job as its client handed it over. `work` may overwrite the last 8 bytes of the seed. -/
structure Ticket where
  client : ClientInfo
  difficulty : Arr 32
  seed : List BYTE
  start : Arr 32

def ticketOf (job : Job) (info : ClientInfo) : Ticket :=
  ⟨info, job.difficulty, slice job.seed 0 32, job.start⟩

def Node.ticket (node : Node) : Ticket := ⟨node.info, node.difficulty, slice node.seed 0 32, node.start⟩

/-- The jobs that clients have handed over, in order, those whose `malloc` failed included. -/
def enqueued : List Event → List Ticket
  | [] => []
  | .add _ job info :: es => ticketOf job info :: enqueued es
  | _ :: es => enqueued es

/-- A job is neither on the list nor answered while the worker is past `pop_head`. -/
def Worker.inFlight : Worker → Nat
  | .releasing _ => 1
  | .writing _ => 1
  | _ => 0

end WorkServer.Queue

import WorkServer.Queue.Answers
import WorkServer.Queue.Jobs

/-!
# How many jobs the queue answers

`head` always points to the node that was added last, so `pop_head` follows a NULL unless
`head` is NULL itself. That is so only after an `add_to_queue` without memory: each answer
of `do_work` takes one, in any order of the steps of the clients and the worker.
-/

namespace WorkServer.Queue
open Tracing Runs LinkedHeap

/-- An `add_to_queue` whose `malloc` returns NULL. -/
def Event.noMemory : Event → Bool
  | .add none _ _ => true
  | _ => false

def Event.isPop : Event → Bool
  | .pop => true
  | _ => false

/-- The worker has seen a job and has not come past `pop_head` with it. -/
def Worker.busy : Worker → Bool
  | .taking => true
  | .calling _ => true
  | .working _ _ => true
  | .popping _ => true
  | _ => false

/-- The list from `head` on is its last node, if `head` is not NULL, and no node has been freed. -/
structure AtEnd (s : State) : Prop where
  head : ∀ p, s.head = some p → s.curr = some p ∧ ∃ node, s.heap p = some node ∧ node.next = none
  curr : ∀ p, s.curr = some p → ∃ node, s.heap p = some node
  seen : s.worker.busy = true → s.curr ≠ none

/-- The worker has a job whose list was lost meanwhile. -/
def lost (s : State) : Nat := if s.worker.busy = true ∧ s.head = none then 1 else 0

/-- Every pop so far, and the one that a lost list allows, has had its add without memory. -/
structure Counted (es : List Event) (s : State) : Prop where
  pops : es.countP Event.isPop + lost s ≤ es.countP Event.noMemory
  written : s.written.length + s.worker.inFlight = es.countP Event.isPop

theorem atEnd_start : AtEnd start where
  head := fun _ none => by cases none
  curr := fun _ none => by cases none
  seen := fun busy => by cases busy

theorem counted_start : Counted [] start := ⟨Nat.le_refl 0, rfl⟩

section Step
variable {env : Env} {es : List Event} {s s' : State} {e : Event} {r : Except Fault State}

/-- A step of the worker that leaves the list alone. -/
theorem AtEnd.keep (ends : AtEnd s) (head : s'.head = s.head) (curr : s'.curr = s.curr) (heap : s'.heap = s.heap)
    (busy : s'.worker.busy = true → s.worker.busy = true) : AtEnd s' := by
  refine ⟨?_, ?_, fun now => curr ▸ ends.seen (busy now)⟩
  · rw [head, curr, heap]
    exact ends.head
  · rw [curr, heap]
    exact ends.curr

/-- A step that is neither a pop nor an add without memory. -/
theorem Counted.keep (counted : Counted es s) (noPop : e.isPop = false) (lost : lost s' ≤ lost s + e.noMemory.toNat)
    (written : s'.written.length + s'.worker.inFlight = s.written.length + s.worker.inFlight) :
    Counted (es ++ [e]) s' := by
  have pops := counted.pops
  have same : (es ++ [e]).countP Event.isPop = es.countP Event.isPop := by
    simp [List.countP_append, noPop]
  have more : (es ++ [e]).countP Event.noMemory = es.countP Event.noMemory + e.noMemory.toNat := by
    rw [List.countP_append, List.countP_singleton]
    cases e.noMemory <;> rfl
  constructor
  · rw [same, more]
    omega
  · rw [written, same]
    exact counted.written

theorem addToQueue_noMemory (job : Job) (info : ClientInfo) : addToQueue none job info s = .ok { s with head := none } := by
  unfold addToQueue addToList
  cases s.head <;> rfl

/-- An add that gets its memory leaves its own node at both ends of the list. -/
theorem addToQueue_memory (ends : AtEnd s) {ptr : Addr} (fresh : s.heap ptr = none) (job : Job) (info : ClientInfo) :
    ∃ s', addToQueue (some ptr) job info s = .ok s' ∧ AtEnd s' ∧ s'.head = some ptr ∧ s'.worker = s.worker ∧
      s'.written = s.written := by
  cases head : s.head with
  | none =>
    refine ⟨_, addToQueue_empty head ptr job info, ⟨?_, ?_, fun _ => by simp⟩, rfl, rfl, rfl⟩
    · rintro p ⟨⟩
      exact ⟨rfl, _, put_same _ _ _, rfl⟩
    · rintro p ⟨⟩
      exact ⟨_, put_same _ _ _⟩
  | some p =>
    obtain ⟨curr, node, here, -⟩ := ends.head p head
    have apart := ne_of_allocated here fresh
    have there := (put_other (put s.heap ptr { firstNode job info s with prev := some p })
      { node with next := some ptr } apart.symm).trans (put_same _ _ _)
    refine ⟨_, addToQueue_last head curr here apart job info, ⟨?_, ?_, fun _ => by simp⟩, rfl, rfl, rfl⟩
    · rintro q ⟨⟩
      exact ⟨rfl, _, there, rfl⟩
    · rintro q ⟨⟩
      exact ⟨_, there⟩

theorem lost_of_head {p : Addr} (head : s.head = some p) (n : Nat) : lost s ≤ n := by
  unfold lost
  rw [head]
  simp

theorem lost_of_idle (idle : s.worker.busy = false) (n : Nat) : lost s ≤ n := by
  unfold lost
  rw [idle]
  simp

theorem lost_of_busy (busy : s.worker.busy = true) (head : s.head = none) : lost s = 1 := if_pos ⟨busy, head⟩

theorem popJob_null (curr_client : ClientInfo) (head : s.head = none) :
    popJob curr_client s = .ok { s with worker := .releasing curr_client } := by
  unfold popJob
  rw [head]
  show Except.ok _ = _
  rw [← head]

/-- What one step can do: it keeps the list as it is described, or it follows the NULL behind the last
node, or the one that an add without memory has left in `head`. -/
theorem AtEnd.step (ends : AtEnd s) (counted : Counted es s) (step : Step env (.ok s) e r) :
    (∃ s', r = .ok s' ∧ AtEnd s' ∧ Counted (es ++ [e]) s') ∨
    r = .error .null ∧ (e = .pop ∧ s.head ≠ none ∨ e = .call ∧ s.head = none ∧ s.worker.busy = true) := by
  cases step with
  | add _ malloc job info fresh =>
    left
    cases malloc with
    | none =>
      refine ⟨_, addToQueue_noMemory job info, ⟨fun _ none => (by cases none), ends.curr, ends.seen⟩, ?_⟩
      refine counted.keep rfl ?_ rfl
      show (if _ then 1 else 0) ≤ lost s + 1
      split <;> omega
    | some ptr =>
      obtain ⟨s', added, ends', head, worker, written⟩ := addToQueue_memory ends (fresh ptr rfl) job info
      refine ⟨s', added, ends', counted.keep rfl ?_ (by rw [worker, written])⟩
      exact lost_of_head head _
  | poll _ polling =>
    left
    rcases Option.eq_none_or_eq_some s.head with head | ⟨p, head⟩
    · rw [if_pos head]
      refine ⟨_, rfl, ends.keep rfl rfl rfl fun busy => (by cases busy), ?_⟩
      refine counted.keep rfl ?_ (by rw [polling])
      exact lost_of_idle rfl _
    · rw [if_neg (by simp [head])]
      refine ⟨_, rfl, ⟨ends.head, ends.curr, fun _ => by simp [(ends.head p head).1]⟩, ?_⟩
      refine counted.keep rfl (lost_of_head (p := p) ?_ _) (by rw [polling]; rfl)
      exact head
  | take _ taking =>
    left
    obtain ⟨p, curr⟩ := Option.ne_none_iff_exists'.mp (ends.seen (by rw [taking]; rfl))
    obtain ⟨node, there⟩ := ends.curr p curr
    refine ⟨_, takeClient_of curr there, ends.keep rfl rfl rfl fun _ => (by rw [taking]; rfl), ?_⟩
    refine counted.keep rfl ?_ (by rw [taking]; rfl)
    unfold lost
    rw [taking]
    exact Nat.le_refl _
  | call _ curr_client calling =>
    have busy : s.worker.busy = true := by rw [calling]; rfl
    rcases Option.eq_none_or_eq_some s.head with head | ⟨p, head⟩
    · right
      refine ⟨?_, .inr ⟨rfl, head, busy⟩⟩
      unfold callWork
      rw [head]
    · left
      obtain ⟨-, node, here, -⟩ := ends.head p head
      refine ⟨_, callWork_of curr_client head here, ends.keep rfl rfl rfl fun _ => busy, ?_⟩
      refine counted.keep rfl (lost_of_head (p := p) ?_ _) (by rw [calling]; rfl)
      exact head
  | solve _ curr_client job node fuel buffer seed working here returned =>
    left
    have busy : s.worker.busy = true := by rw [working]; rfl
    refine ⟨_, rfl, ⟨?_, ?_, fun _ => ends.seen busy⟩, ?_⟩
    · intro p head
      obtain ⟨curr, last, there, none⟩ := ends.head p head
      refine ⟨curr, ?_⟩
      by_cases same : p = job
      · subst same
        obtain rfl := Option.some.inj (here.symm.trans there)
        exact ⟨_, put_same _ _ _, none⟩
      · exact ⟨last, (put_other _ _ same).trans there, none⟩
    · intro p curr
      obtain ⟨last, there⟩ := ends.curr p curr
      by_cases same : p = job
      · subst same
        exact ⟨_, put_same _ _ _⟩
      · exact ⟨last, (put_other _ _ same).trans there⟩
    · refine counted.keep rfl ?_ (by rw [working]; rfl)
      unfold lost
      rw [working]
      exact Nat.le_refl _
  | pop _ curr_client popping =>
    have busy : s.worker.busy = true := by rw [popping]; rfl
    rcases Option.eq_none_or_eq_some s.head with head | ⟨p, head⟩
    · left
      have before := lost_of_busy busy head
      have counts := counted.pops
      have written := counted.written
      refine ⟨_, popJob_null curr_client head, ends.keep rfl rfl rfl fun later => (by cases later), ?_, ?_⟩
      · have none := lost_of_idle (s := { s with worker := .releasing curr_client }) rfl 0
        rw [List.countP_append, List.countP_append]
        show _ + 1 + lost _ ≤ _ + 0
        omega
      · rw [List.countP_append, ← written, popping]
        rfl
    · right
      obtain ⟨-, node, here, last⟩ := ends.head p head
      refine ⟨?_, .inl ⟨rfl, by simp [head]⟩⟩
      unfold popJob
      rw [head, popHead_last s.curr here last]
      rfl
  | release _ curr_client releasing =>
    left
    refine ⟨_, rfl, ends.keep rfl rfl rfl fun later => (by cases later), counted.keep rfl ?_ (by rw [releasing]; rfl)⟩
    exact lost_of_idle rfl _
  | write _ curr_client writing =>
    left
    refine ⟨_, rfl, ends.keep rfl rfl rfl fun later => (by cases later), counted.keep rfl ?_ ?_⟩
    · exact lost_of_idle rfl _
    · rw [List.length_append, writing]
      rfl

end Step

/-- In any order of the steps of the clients and the worker, the answers written are no more than the adds
that have found no memory. A run that faults does so at a `pop_head`, or at the call of `work` after such
an add. -/
theorem answers_need_noMemory {env : Env} {es : List Event} {r : Except Fault State}
    (run : Run (Step env) (.ok start) es r) :
    (∀ s, r = .ok s → s.written.length ≤ es.countP Event.noMemory) ∧
    ∀ f, r = .error f → f = .null ∧ ∃ before e, es = before ++ [e] ∧
      (e = .pop ∨ e = .call ∧ 0 < before.countP Event.noMemory) := by
  have described : (∃ s, r = .ok s ∧ AtEnd s ∧ Counted es s) ∨ r = .error .null ∧ ∃ before e, es = before ++ [e] ∧
      (e = .pop ∨ e = .call ∧ 0 < before.countP Event.noMemory) := by
    refine run.history (P := fun es r => (∃ s, r = .ok s ∧ AtEnd s ∧ Counted es s) ∨ r = .error .null ∧
      ∃ before e, es = before ++ [e] ∧ (e = .pop ∨ e = .call ∧ 0 < before.countP Event.noMemory))
      (.inl ⟨start, rfl, atEnd_start, counted_start⟩) ?_
    rintro es _ e r' (⟨s, rfl, ends, counted⟩ | ⟨rfl, -⟩) step
    · rcases ends.step counted step with goes | ⟨fault, ⟨rfl, -⟩ | ⟨rfl, head, busy⟩⟩
      · exact .inl goes
      · exact .inr ⟨fault, es, .pop, rfl, .inl rfl⟩
      · have pops := counted.pops
        rw [lost_of_busy busy head] at pops
        exact .inr ⟨fault, es, .call, rfl, .inr ⟨rfl, by omega⟩⟩
    · cases step
  constructor
  · rintro s rfl
    obtain ⟨s', same, -, counted⟩ | ⟨fault, -⟩ := described
    · cases same
      have pops := counted.pops
      have written := counted.written
      omega
    · cases fault
  · rintro f rfl
    obtain ⟨s', same, -⟩ | ⟨fault, rest⟩ := described
    · cases same
    · cases fault
      exact ⟨rfl, rest⟩

/-! ### The answers that there are -/

/-- One job answered: while `work` is on it, an add without memory sets `head` to NULL. -/
theorem answered_once {env : Env} {job : Job} (solvable : ∀ buffer, ∃ fuel left seed,
    (work env fuel buffer job.difficulty job.seed job.start).val = some (left, seed)) {s : State}
    (polling : s.worker = .polling) (head : s.head = none) {p : Addr} (fresh : s.heap p = none) :
    ∃ es s', Run (Step env) (.ok s) es (.ok s') ∧ s'.worker = .polling ∧ s'.head = none ∧
      (∀ q ≠ p, s'.heap q = s.heap q) ∧ s'.written.length = s.written.length + 1 ∧
      es.countP Event.noMemory = 1 := by
  obtain ⟨fuel, left, seed, returned⟩ := solvable s.buffer
  let node := firstNode job ⟨4⟩ s
  let added : State := { s with heap := put s.heap p node, head := some p, curr := some p }
  let working : State := { added with worker := .working ⟨4⟩ p, head := none }
  let solved : State :=
    { working with heap := put working.heap p { node with seed := seed }, buffer := left, worker := .popping ⟨4⟩ }
  have add : Step env (.ok s) (.add (some p) job ⟨4⟩) (.ok added) := by
    have step := @Step.add env s (some p) job ⟨4⟩ fun q same => Option.some.inj same ▸ fresh
    rwa [addToQueue_empty head p job ⟨4⟩] at step
  have work : Run (Step env) (.ok added) [.poll, .take, .call] (.ok { added with worker := .working ⟨4⟩ p }) :=
    @run_to_work env added p p node node polling rfl (put_same _ _ _) rfl (put_same _ _ _)
  have lose : Step env (.ok { added with worker := .working ⟨4⟩ p }) (.add none job ⟨4⟩) (.ok working) := by
    have step := @Step.add env { added with worker := .working ⟨4⟩ p } none job ⟨4⟩ fun q same => (by cases same)
    rwa [addToQueue_noMemory] at step
  have solve : Step env (.ok working) .solve (.ok solved) :=
    Step.solve working ⟨4⟩ p node fuel left seed rfl (put_same _ _ _) returned
  have pop : Step env (.ok solved) .pop (.ok { solved with worker := .releasing ⟨4⟩ }) := by
    have step := @Step.pop env solved ⟨4⟩ rfl
    rwa [popJob_null _ rfl] at step
  have release := @Step.release env { solved with worker := .releasing ⟨4⟩ } ⟨4⟩ rfl
  have write := @Step.write env _ ⟨4⟩ (show State.worker { solved with
    work_num := solved.work_num - 1, worker := .writing ⟨4⟩ } = .writing ⟨4⟩ from rfl)
  have run := (Run.single add).append (((((work.snoc lose).snoc solve).snoc pop).snoc release).snoc write)
  refine ⟨_, _, run, rfl, rfl, ?_, by simp [solved, working, added], rfl⟩
  intro q other
  exact (put_other _ _ other).trans (put_other _ _ other)

/-- There is a run with as many answers as adds without memory, for every number of them. -/
theorem answered_many {env : Env} {job : Job} (solvable : ∀ buffer, ∃ fuel left seed,
    (work env fuel buffer job.difficulty job.seed job.start).val = some (left, seed)) (k : Nat) :
    ∃ es s, Run (Step env) (.ok start) es (.ok s) ∧ s.worker = .polling ∧ s.head = none ∧
      (∀ q ≥ k, s.heap q = none) ∧ s.written.length = k ∧ es.countP Event.noMemory = k := by
  induction k with
  | zero => exact ⟨[], start, Run.nil, rfl, rfl, fun _ _ => rfl, rfl, rfl⟩
  | succ k ih =>
    obtain ⟨es, s, run, polling, head, free, written, lost⟩ := ih
    obtain ⟨es', s', run', polling', head', kept, written', lost'⟩ :=
      answered_once solvable polling head (free k (Nat.le_refl k))
    refine ⟨es ++ es', s', run.append run', polling', head', ?_, by omega, ?_⟩
    · intro q above
      rw [kept q (Nat.ne_of_gt above), free q (Nat.le_of_succ_le above)]
    · rw [List.countP_append, lost, lost']

theorem answers_need_noMemory_sample : ∃ es s, Run (Step sampleEnv) (.ok start) es (.ok s) ∧
    s.written.length = 2 ∧ es.countP Event.noMemory = 2 ∧ s.written.length ≤ es.countP Event.noMemory := by
  obtain ⟨fuel, bytes, inline⟩ := inline_sampleWork
  obtain ⟨es, s, run, -, -, -, written, lost⟩ :=
    answered_many (fun buffer => exists_worked sampleEnv grammar_sampleWork inline buffer) 2
  exact ⟨es, s, run, written, lost, (answers_need_noMemory run).1 s rfl⟩

end WorkServer.Queue

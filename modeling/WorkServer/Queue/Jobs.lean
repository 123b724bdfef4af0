import WorkServer.Handler.Grammar
import WorkServer.Queue

/-!
# Jobs on the queue

`add_to_queue` moves `head` to the node it has just appended, so the list that starts there
has one node at most: the jobs before it are lost, and `pop_head` follows the NULL behind it.
-/

namespace WorkServer.Queue
open Tracing BigEndian HexText Runs LinkedHeap

theorem enqueued_append (es fs : List Event) : enqueued (es ++ fs) = enqueued es ++ enqueued fs := by
  induction es with
  | nil => rfl
  | cons e es ih =>
    cases e with
    | add => exact congrArg _ ih
    | _ => exact ih

/-! ### The property -/

/-- A written text answers a job: to its client, with a nonce that solves its puzzle. -/
def Answers (env : Env) (job : Ticket) (out : Int × List BYTE) : Prop :=
  out.1 = job.client.client_fd ∧ ∃ nonce < 2 ^ 64,
    out.2 = ascii "SOLN" ++
      fieldsText (toHex (slice job.difficulty 28 4)) (toHex job.seed) (toHex (beBytes 8 nonce)) ∧
    Solves env.sha256 (value (targetOf env job.difficulty)) job.seed nonce

/-- Nothing has gone wrong: the jobs handed over are, in order, those answered, the one being
written, and those on the list that starts at `head`. A job whose `malloc` failed was handed
over as well, and is lost. -/
def QueueOk (env : Env) (es : List Event) : Except Fault State → Prop
  | .error _ => False
  | .ok s => ∃ done flight nodes, Chain Node.next s.heap s.head nodes ∧ flight.length = s.worker.inFlight ∧
      enqueued es = done ++ flight ++ nodes.map Node.ticket ∧ List.Forall₂ (Answers env) done s.written

/-- `add_to_queue` finds the list empty and gets its memory, `pop_head` finds a second node. Over a
run this leaves one add at most, and no pop. -/
def Harmless : Except Fault State → Event → Prop
  | .ok s, .add malloc _ _ => s.head = none ∧ malloc ≠ none
  | .ok s, .pop => ∀ node, deref s.heap s.head = .ok node → node.next ≠ none
  | _, _ => True

def HarmlessStep (env : Env) (r : Except Fault State) (e : Event) (r' : Except Fault State) : Prop :=
  Step env r e r' ∧ Harmless r e

/-! ### Harmless runs -/

/-- The worker has not come past `pop_head`, and works on no job but that at `p`. -/
def Worker.Before (p : Addr) : Worker → Prop
  | .working _ job => job = p
  | .releasing _ => False
  | .writing _ => False
  | _ => True

/-- A harmless run has handed over no job, or a single one that is still on the list. -/
inductive Sound : List Ticket → State → Prop where
  | empty {s : State} : s.head = none → s.worker = .polling → s.written = [] → Sound [] s
  | single {s : State} {p : Addr} {node : Node} : s.head = some p → s.curr = some p →
    s.heap p = some node → node.next = none → s.worker.Before p → s.written = [] → Sound [node.ticket] s

theorem Worker.Before.inFlight {p : Addr} {w : Worker} (before : w.Before p) : w.inFlight = 0 := by
  cases w with
  | releasing => exact before.elim
  | writing => exact before.elim
  | _ => rfl

theorem Sound.written {jobs : List Ticket} {s : State} (sound : Sound jobs s) : s.written = [] := by
  cases sound with
  | empty _ _ none => exact none
  | single _ _ _ _ _ none => exact none

theorem Sound.inFlight {jobs : List Ticket} {s : State} (sound : Sound jobs s) : s.worker.inFlight = 0 := by
  cases sound with
  | empty _ polling _ =>
    rw [polling]
    rfl
  | single _ _ _ _ before _ => exact before.inFlight

/-- Before the first answer and the first pop, the list has to hold every job. -/
theorem queueOk_iff {env : Env} {es : List Event} {s : State} (written : s.written = [])
    (inFlight : s.worker.inFlight = 0) :
    QueueOk env es (.ok s) ↔ ∃ nodes, Chain Node.next s.heap s.head nodes ∧
      enqueued es = nodes.map Node.ticket := by
  constructor
  · rintro ⟨done, flight, nodes, chain, length, all, answered⟩
    rw [written] at answered
    cases answered
    rw [inFlight, List.length_eq_zero_iff] at length
    subst length
    exact ⟨nodes, chain, all⟩
  · rintro ⟨nodes, chain, all⟩
    exact ⟨[], [], nodes, chain, inFlight.symm, all, written ▸ .nil⟩

theorem Sound.queueOk {env : Env} {es : List Event} {s : State} (sound : Sound (enqueued es) s) :
    QueueOk env es (.ok s) := by
  refine (queueOk_iff sound.written sound.inFlight).mpr ?_
  generalize enqueued es = jobs at sound ⊢
  cases sound with
  | empty head _ _ => exact ⟨[], head ▸ .nil, rfl⟩
  | single head _ here last _ _ => exact ⟨_, head ▸ chain_single here last, rfl⟩

/-- The node of a job that is added to the empty list. -/
def firstNode (job : Job) (info : ClientInfo) (s : State) : Node :=
  ⟨job.seed, job.difficulty, job.start, s.work_num, info.client_fd, info, none, none⟩

theorem addToQueue_empty {s : State} (head : s.head = none) (ptr : Addr) (job : Job) (info : ClientInfo) :
    addToQueue (some ptr) job info s = .ok { s with
      heap := put s.heap ptr (firstNode job info s)
      head := some ptr
      curr := some ptr } := by
  unfold addToQueue addToList
  rw [head]
  rfl

theorem Sound.step {env : Env} {es : List Event} {s : State} {e : Event} {r : Except Fault State}
    (sound : Sound (enqueued es) s) (step : Step env (.ok s) e r) (harmless : Harmless (.ok s) e) :
    ∃ s', r = .ok s' ∧ Sound (enqueued (es ++ [e])) s' := by
  rw [enqueued_append]
  generalize enqueued es = jobs at sound ⊢
  cases sound with
  | empty head polling none =>
    cases step with
    | add _ malloc job info fresh =>
      obtain ⟨ptr, rfl⟩ := Option.ne_none_iff_exists'.mp harmless.2
      refine ⟨_, addToQueue_empty head ptr job info, ?_⟩
      refine @Sound.single _ ptr (firstNode job info s) rfl rfl (put_same _ _ _) rfl ?_ none
      rw [polling]
      trivial
    | poll => exact ⟨_, rfl, .empty head (if_pos head) none⟩
    | take _ here | call _ _ here | solve _ _ _ _ _ _ _ here | pop _ _ here | release _ _ here | write _ _ here =>
      rw [polling] at here
      cases here
  | @single _ p node head curr here last before none =>
    cases step with
    | add _ malloc job info fresh =>
      have empty := harmless.1
      rw [head] at empty
      cases empty
    | poll =>
      refine ⟨_, rfl, .single head curr here last ?_ none⟩
      dsimp only
      split <;> trivial
    | take _ _ => exact ⟨_, takeClient_of curr here, .single head curr here last trivial none⟩
    | call _ curr_client _ =>
      exact ⟨_, callWork_of curr_client head here, .single head curr here last rfl none⟩
    | solve _ curr_client job worked fuel buffer seed working there returned =>
      rw [working] at before
      obtain rfl : job = p := before
      obtain rfl := Option.some.inj (here.symm.trans there)
      have same : { node with seed := seed }.ticket = node.ticket := by
        unfold Node.ticket
        rw [work_keeps_seed env node.difficulty returned]
      refine ⟨_, rfl, ?_⟩
      rw [← same]
      exact .single head curr (put_same _ _ _) last trivial none
    | pop _ _ _ =>
      exact absurd last (harmless node (by rw [head, deref_of here]))
    | release _ _ past | write _ _ past =>
      rw [past] at before
      exact before.elim

/-! ### The first step that does harm -/

/-- After a step that adds without writing, the list from `head` on would have to hold one job
more than before. -/
theorem not_queueOk_of_length {env : Env} {es : List Event} {s : State} {nodes : List Node}
    (written : s.written = []) (inFlight : s.worker.inFlight = 0) (chain : Chain Node.next s.heap s.head nodes)
    (more : nodes.length < (enqueued es).length) : ¬ QueueOk env es (.ok s) := by
  rw [queueOk_iff written inFlight]
  rintro ⟨nodes', chain', all⟩
  rw [all, List.length_map, chain.unique chain'] at more
  exact Nat.lt_irrefl _ more

theorem addToQueue_null {s : State} (job : Job) (info : ClientInfo) : ∃ heap curr,
    addToQueue none job info s = .ok { s with heap := heap, head := none, curr := curr } := by
  unfold addToQueue addToList
  cases s.head <;> exact ⟨_, _, rfl⟩

/-- An add to a list of one node appends to it, and then leaves `head` at its end. -/
theorem addToQueue_last {s : State} {p ptr : Addr} {node : Node} (head : s.head = some p) (curr : s.curr = some p)
    (here : s.heap p = some node) (apart : p ≠ ptr) (job : Job) (info : ClientInfo) :
    addToQueue (some ptr) job info s = .ok { s with
      heap := put (put s.heap ptr { firstNode job info s with prev := some p }) p
        { node with next := some ptr }
      head := some ptr
      curr := some ptr } := by
  unfold addToQueue addToList
  simp only [head, curr, if_true]
  rw [modify_of _ (put_same _ _ _), put_put]
  show (modify _ _ (some p) >>= _) >>= _ = _
  rw [modify_of _ (by rw [put_other _ _ apart, here])]
  rfl

theorem Sound.harm {env : Env} {es : List Event} {s : State} {e : Event} {r : Except Fault State}
    (sound : Sound (enqueued es) s) (step : Step env (.ok s) e r) (harmful : ¬ Harmless (.ok s) e) :
    ¬ QueueOk env (es ++ [e]) r := by
  have written := sound.written
  have inFlight := sound.inFlight
  cases step with
  | poll | take | call | solve | release | write => exact absurd trivial harmful
  | add _ malloc job info fresh =>
    have total : (enqueued (es ++ [.add malloc job info])).length = (enqueued es).length + 1 := by
      rw [enqueued_append, List.length_append]
      rfl
    cases malloc with
    | none =>
      obtain ⟨heap, curr, left⟩ := addToQueue_null (s := s) job info
      rw [left]
      exact not_queueOk_of_length written inFlight .nil (by rw [total]; exact Nat.succ_pos _)
    | some ptr =>
      generalize enqueued es = jobs at sound total
      cases sound with
      | empty head _ _ => exact absurd ⟨head, by simp⟩ harmful
      | @single _ p node head curr here _ _ _ =>
        have apart := ne_of_allocated here (fresh ptr rfl)
        have alone := (put_other (put s.heap ptr { firstNode job info s with prev := some p })
          { node with next := some ptr } apart.symm).trans (put_same _ _ _)
        rw [addToQueue_last head curr here apart job info]
        refine not_queueOk_of_length written inFlight (chain_single alone rfl) ?_
        rw [total]
        exact Nat.lt_succ_self 1
  | pop _ curr_client popping =>
    generalize enqueued es = jobs at sound
    cases sound with
    | empty _ polling _ =>
      rw [popping] at polling
      cases polling
    | single head _ here last _ _ =>
      have fault : popJob curr_client s = .error .null := by
        unfold popJob
        rw [head, popHead_last _ here last]
        rfl
      rw [fault]
      exact id

/-! ### Whole runs -/

theorem sound_start : Sound [] start := .empty rfl rfl rfl

theorem harmless_run {env : Env} {es : List Event} {r : Except Fault State}
    (run : Run (HarmlessStep env) (.ok start) es r) : ∃ s, r = .ok s ∧ Sound (enqueued es) s := by
  refine run.history (P := fun es r => ∃ s, r = .ok s ∧ Sound (enqueued es) s) ⟨start, rfl, sound_start⟩ ?_
  rintro es _ e r' ⟨s, rfl, sound⟩ ⟨step, harmless⟩
  exact sound.step step harmless

/-- A run whose steps are all harmless keeps every job; the first step that is not loses one or
faults. -/
theorem queue_keeps_jobs (env : Env) :
    (∀ es r, Run (HarmlessStep env) (.ok start) es r → QueueOk env es r) ∧
    ∀ es s e r, Run (HarmlessStep env) (.ok start) es (.ok s) → Step env (.ok s) e r →
      ¬ Harmless (.ok s) e → ¬ QueueOk env (es ++ [e]) r := by
  constructor
  · intro es r run
    obtain ⟨s, rfl, sound⟩ := harmless_run run
    exact sound.queueOk
  · intro es s e r run step harmful
    obtain ⟨_, same, sound⟩ := harmless_run run
    cases same
    exact sound.harm step harmful

/-- A job of all zeros, for a run of two clients. -/
def plainJob : Job := ⟨Vector.replicate 32 0, Vector.replicate 40 0, Vector.replicate 32 0⟩

def twoAdds : List Event := [.add (some 0) plainJob ⟨4⟩, .add (some 1) plainJob ⟨5⟩]

def oneAdded : State :=
  { start with heap := put start.heap 0 (firstNode plainJob ⟨4⟩ start), head := some 0, curr := some 0 }

/-- The second job is alone on the list, with the first one unanswered. -/
theorem second_add_loses_first : ∃ s, Run (Step sampleEnv) (.ok start) twoAdds (.ok s) ∧
    ¬ QueueOk sampleEnv twoAdds (.ok s) := by
  have first : Step sampleEnv (.ok start) (.add (some 0) plainJob ⟨4⟩) (.ok oneAdded) :=
    addToQueue_empty (s := start) rfl 0 plainJob ⟨4⟩ ▸ .add start (some 0) plainJob ⟨4⟩ fun _ _ => rfl
  have second := @Step.add sampleEnv oneAdded (some 1) plainJob ⟨5⟩ (by
    rintro p here
    cases here
    rfl)
  have sound : Sound (enqueued [.add (some 0) plainJob ⟨4⟩]) oneAdded :=
    @Sound.single oneAdded 0 (firstNode plainJob ⟨4⟩ start) rfl rfl rfl rfl trivial rfl
  have harmful : ¬ Harmless (.ok oneAdded) (.add (some 1) plainJob ⟨5⟩) := fun harmless => by
    cases harmless.1
  have lost := sound.harm second harmful
  rw [addToQueue_last (s := oneAdded) rfl rfl rfl (by decide)] at second lost
  exact ⟨_, (Run.single first).append (Run.single second), lost⟩

end WorkServer.Queue

import WorkServer.Handler.Grammar
import WorkServer.Queue

/-!
# What the queue answers

`work` takes bytes 4 to 78 of its answer from the buffer it is given. A handler thread gives
it the message; `do_work` gives it a buffer that holds nothing there, and `strlen` ends the
answer behind its first word.
-/

namespace WorkServer.Queue
open Tracing CString Runs LinkedHeap

theorem answer_val (buffer : Arr 256) : (answer buffer).val = text buffer := by
  unfold answer
  simp only [val_bind, readRange_val, strlen_val]
  exact (text_spec buffer).1.symm

/-! ### The buffer of `do_work` -/

/-- `work` has returned and the answer is not written yet. -/
def Worker.Solved : Worker → Prop
  | .popping _ => True
  | .releasing _ => True
  | .writing _ => True
  | _ => False

/-- Nothing is ever put behind the first word of the buffer. -/
structure Bare (s : State) : Prop where
  fifth : entry s.buffer 4 = 0
  head : s.worker.Solved → slice s.buffer 0 4 = ascii "SOLN"
  written : ∀ out ∈ s.written, out.2 = ascii "SOLN"

theorem Bare.text {s : State} (bare : Bare s) (solved : s.worker.Solved) : text s.buffer = ascii "SOLN" :=
  (text_eq_iff literal_soln).mpr ⟨bare.head solved, bare.fifth⟩

/-- A step that leaves the buffer and the answers alone, and enters no later stage. -/
theorem Bare.keep {s s' : State} (bare : Bare s) (buffer : s'.buffer = s.buffer) (written : s'.written = s.written)
    (solved : s'.worker.Solved → s.worker.Solved) : Bare s' :=
  ⟨buffer ▸ bare.fifth, fun later => buffer ▸ bare.head (solved later), written ▸ bare.written⟩

theorem Bare.step {env : Env} {s s' : State} {e : Event} (bare : Bare s) (step : Step env (.ok s) e (.ok s')) :
    Bare s' := by
  generalize left : Except.ok s' = r at step
  cases step with
  | add _ malloc job info _ =>
    obtain ⟨listed, -, same⟩ := bind_ok left.symm
    cases same
    exact bare.keep rfl rfl id
  | poll _ polling =>
    cases left
    refine bare.keep rfl rfl fun later => ?_
    dsimp only at later
    split at later <;> exact later.elim
  | take _ _ =>
    obtain ⟨node, -, same⟩ := bind_ok left.symm
    cases same
    exact bare.keep rfl rfl fun later => later.elim
  | call _ curr_client _ =>
    unfold callWork at left
    split at left
    · cases left
    · obtain ⟨node, -, same⟩ := bind_ok left.symm
      cases same
      exact bare.keep rfl rfl fun later => later.elim
  | solve _ curr_client job node fuel buffer seed _ _ returned =>
    obtain ⟨nonce, same, -⟩ := work_some env node.difficulty returned
    have fifth := entry_putSolution env s.buffer nonce 4
    have head := putSolution_head env s.buffer nonce
    rw [← same] at fifth head
    rw [if_neg (by omega), if_neg (by omega), if_neg (by omega), bare.fifth] at fifth
    cases left
    exact ⟨fifth, fun _ => head, bare.written⟩
  | pop _ curr_client popping =>
    obtain ⟨listed, -, same⟩ := bind_ok left.symm
    cases same
    exact bare.keep rfl rfl fun _ => by rw [popping]; trivial
  | release _ curr_client releasing =>
    cases left
    exact bare.keep rfl rfl fun _ => by rw [releasing]; trivial
  | write _ curr_client writing =>
    cases left
    refine ⟨bare.fifth, fun later => later.elim, ?_⟩
    intro out hout
    rcases List.mem_append.mp hout with earlier | last
    · exact bare.written out earlier
    · rw [List.mem_singleton.mp last, answer_val]
      exact bare.text (by rw [writing]; trivial)

theorem Bare.run {env : Env} {s s' : State} {es : List Event} (bare : Bare s)
    (run : Run (Step env) (.ok s) es (.ok s')) : Bare s' := by
  refine run.invariant (P := fun r => ∀ s, r = .ok s → Bare s) ?_ ?_ s' rfl
  · rintro _ ⟨⟩
    exact bare
  · rintro (_ | t) e _ bare step s' rfl
    · cases step
    · exact (bare t rfl).step step

/-! ### One job -/

/-- The list from `head`, ended by a NULL, with `curr` at its last node. -/
structure WellFormed (s : State) (nodes : List Node) : Prop where
  chain : Chain Node.next s.heap s.head nodes
  last : ∃ p node, s.curr = some p ∧ s.heap p = some node ∧ nodes.getLast? = some node

theorem run_to_work (env : Env) {s : State} {p c : Addr} {node last : Node} (polling : s.worker = .polling)
    (head : s.head = some p) (here : s.heap p = some node) (curr : s.curr = some c) (there : s.heap c = some last) :
    Run (Step env) (.ok s) [.poll, .take, .call] (.ok { s with worker := .working last.info p }) := by
  have poll := @Step.poll env s polling
  rw [if_neg (by rw [head]; simp)] at poll
  have take := @Step.take env { s with worker := .taking } rfl
  rw [@takeClient_of { s with worker := .taking } c last curr there] at take
  have call := @Step.call env { s with worker := .calling last.info } last.info rfl
  rw [@callWork_of { s with worker := .calling last.info } p node last.info head here] at call
  exact ((Run.single poll).snoc take).snoc call

theorem run_to_write (env : Env) {s : State} {client : ClientInfo} {p q : Addr} {node second : Node}
    (popping : s.worker = .popping client) (head : s.head = some p) (here : s.heap p = some node)
    (next : node.next = some q) (there : s.heap q = some second) (apart : p ≠ q) :
    ∃ s', Run (Step env) (.ok s) [.pop, .release, .write] (.ok s') ∧
      s'.written = s.written ++ [(client.client_fd, text s.buffer)] := by
  have pop := @Step.pop env s client popping
  have popped : popJob client s = .ok { s with
      heap := free (put s.heap q { second with prev := none }) p
      head := some q
      worker := .releasing client } := by
    unfold popJob
    rw [head, popHead_of_second s.curr here next there apart]
    rfl
  rw [popped] at pop
  have release := @Step.release env _ client (show State.worker { s with
      heap := free (put s.heap q { second with prev := none }) p
      head := some q
      worker := .releasing client } = .releasing client from rfl)
  have write := @Step.write env { s with
      heap := free (put s.heap q { second with prev := none }) p
      head := some q
      work_num := s.work_num - 1
      worker := .writing client } client rfl
  rw [answer_val] at write
  exact ⟨_, ((Run.single pop).snoc release).snoc write, rfl⟩

/-- One turn of the loop over a list of two nodes or more, with no call of a client in between:
the text of the buffer goes to the client of the last node. -/
theorem iteration (env : Env) {s : State} {node second : Node} {rest : List Node} (polling : s.worker = .polling)
    (queue : WellFormed s (node :: second :: rest)) {fuel : Nat} {buffer : Arr 256} {seed : Arr 40}
    (returned : (work env fuel s.buffer node.difficulty node.seed node.start).val = some (buffer, seed)) :
    ∃ es s' last, Run (Step env) (.ok s) es (.ok s') ∧ (second :: rest).getLast? = some last ∧
      s'.written = s.written ++ [(last.info.client_fd, text buffer)] := by
  obtain ⟨chain, c, last, curr, there, final⟩ := queue
  rw [List.getLast?_cons_cons] at final
  have ahead := chain
  generalize atHead : s.head = head at chain ahead
  cases ahead with
  | @cons p _ _ here tail =>
    have away := chain.next_ne
    generalize next : node.next = link at tail away
    cases tail with
    | @cons q _ _ behind _ =>
      have apart : q ≠ p := fun same => away (same ▸ rfl)
      have solve := Step.solve { s with worker := .working last.info p } last.info p node fuel buffer seed rfl here
        returned
      obtain ⟨s', finish, written⟩ := @run_to_write env { s with
        heap := put s.heap p { node with seed := seed }
        buffer := buffer
        worker := .popping last.info } last.info p q { node with seed := seed } second rfl atHead
        (put_same _ _ _) next ((put_other _ _ apart).trans behind) apart.symm
      have run := ((run_to_work env polling atHead here curr there).snoc solve).append finish
      exact ⟨_, s', last, run, final, written⟩

/-! ### Against the inline path -/

/-- `do_work` at the start of its loop, over any list. -/
structure Begins (s : State) : Prop where
  worker : s.worker = .polling
  buffer : s.buffer = Vector.replicate 256 0
  written : s.written = []

theorem Begins.bare {s : State} (begins : Begins s) : Bare s := by
  refine ⟨?_, fun solved => ?_, fun out hout => ?_⟩
  · rw [begins.buffer, entry_replicate 0 (by omega)]
  · rw [begins.worker] at solved
    exact solved.elim
  · rw [begins.written] at hout
    cases hout

/-- The job that the WORK branch makes of a message. -/
def jobOf (env : Env) (m : Message) : Job :=
  let d := (decode env (copyFields env m.buffer).val).val
  ⟨d.difficultyBYTE, d.seedBYTE, d.thirdBYTE⟩

def Node.job (node : Node) : Job := ⟨node.difficulty, node.seed, node.start⟩

theorem inline_ne_soln (env : Env) {m : Message} (grammar : WorkGrammar m.text) {fuel : Nat} {bytes : List BYTE}
    (inline : (admittedReply env fuel m.buffer).val = some bytes) : bytes ≠ ascii "SOLN" := by
  have len := grammar.shape.2.2
  obtain ⟨nonce, -, spelt, -⟩ := admittedReply_some env (by rw [text_buffer]; omega) inline
  intro same
  have lengths := congrArg List.length (spelt.symm.trans same)
  rw [length_solution (by rw [text_buffer]; omega)] at lengths
  exact absurd lengths (by decide)

/-- The queue solves the job of a message whenever the inline path does. -/
theorem exists_worked (env : Env) {m : Message} (grammar : WorkGrammar m.text) {fuel : Nat} {bytes : List BYTE}
    (inline : (admittedReply env fuel m.buffer).val = some bytes) (buffer : Arr 256) : ∃ fuel left seed,
      (work env fuel buffer (jobOf env m).difficulty (jobOf env m).seed (jobOf env m).start).val =
        some (left, seed) := by
  have len := grammar.shape.2.2
  have long : 98 ≤ (text m.buffer).length := by rw [text_buffer]; omega
  have solvable := (admittedReply_returns_iff env long).mp ⟨fuel, bytes, inline⟩
  obtain ⟨target, seed, -⟩ := fields_val env m.buffer (by omega)
  unfold jobOf
  generalize (decode env (copyFields env m.buffer).val).val = d at target seed ⊢
  rw [← target, ← seed] at solvable
  obtain ⟨fuel', ⟨left, seed'⟩, worked⟩ :=
    (work_returns_iff env d.difficultyBYTE buffer d.seedBYTE d.thirdBYTE).mpr solvable
  exact ⟨fuel', left, seed', worked⟩

/-- A turn of the loop for the job of a message, first of two or more on the list. -/
theorem queued_answer (env : Env) {m : Message} (grammar : WorkGrammar m.text) {fuel : Nat} {bytes : List BYTE}
    (inline : (admittedReply env fuel m.buffer).val = some bytes) {s : State} (bare : Bare s)
    (polling : s.worker = .polling) {node second : Node} {rest : List Node}
    (queue : WellFormed s (node :: second :: rest)) (job : node.job = jobOf env m) :
    ∃ es s' last, Run (Step env) (.ok s) es (.ok s') ∧ (second :: rest).getLast? = some last ∧
      s'.written = s.written ++ [(last.info.client_fd, ascii "SOLN")] := by
  obtain ⟨fuel', left, seed, worked⟩ := exists_worked env grammar inline s.buffer
  rw [← job] at worked
  obtain ⟨es, s', last, run, final, written⟩ := iteration env polling queue worked
  have soln : text left = ascii "SOLN" :=
    (bare.run run).written (last.info.client_fd, text left) (by rw [written]; simp)
  exact ⟨es, s', last, run, final, by rw [written, soln]⟩

/-- `do_work` never writes what the inline path writes, whatever came before on the queue: it
writes the first word alone, and it does write for a job with another one behind it. -/
theorem queued_answer_differs (env : Env) {m : Message} (grammar : WorkGrammar m.text) {fuel : Nat}
    {bytes : List BYTE} (inline : (admittedReply env fuel m.buffer).val = some bytes) {s₀ : State}
    (begins : Begins s₀) :
    (∀ es s, Run (Step env) (.ok s₀) es (.ok s) → ∀ out ∈ s.written, out.2 = ascii "SOLN" ∧ out.2 ≠ bytes) ∧
    ∀ es s node second rest, Run (Step env) (.ok s₀) es (.ok s) → s.worker = .polling →
      WellFormed s (node :: second :: rest) → node.job = jobOf env m →
      ∃ es' s' last, Run (Step env) (.ok s) es' (.ok s') ∧ (second :: rest).getLast? = some last ∧
        s'.written = s.written ++ [(last.info.client_fd, ascii "SOLN")] := by
  have differs := inline_ne_soln env grammar inline
  constructor
  · intro es s run out hout
    have soln := (begins.bare.run run).written out hout
    exact ⟨soln, fun same => differs (same.symm.trans soln)⟩
  · intro es s node second rest run polling queue job
    exact queued_answer env grammar inline (begins.bare.run run) polling queue job

/-! A message of `client.c`, queued twice. -/

theorem grammar_sampleWork : WorkGrammar sampleWork.text :=
  ⟨ascii "1fffffff", ascii "0000000019d6689c085ae165831e934ff763ae46a218a6c172b3f1b60a8ce26f",
    ascii "1000000023212147", ascii "01", ⟨by decide, by decide, by decide, by decide⟩, by decide, by decide,
    by decide⟩

def sampleNode (client_fd : Int) (next prev : Option Addr) : Node :=
  let job := jobOf sampleEnv sampleWork
  ⟨job.seed, job.difficulty, job.start, 0, client_fd, ⟨client_fd⟩, next, prev⟩

theorem job_sampleNode (client_fd : Int) (next prev : Option Addr) :
    (sampleNode client_fd next prev).job = jobOf sampleEnv sampleWork := by
  unfold sampleNode Node.job
  generalize jobOf sampleEnv sampleWork = job
  rfl

def sampleQueue : State :=
  { start with
    heap := put (put start.heap 0 (sampleNode 4 (some 1) none)) 1 (sampleNode 5 none (some 0))
    head := some 0
    curr := some 1 }

theorem begins_sampleQueue : Begins sampleQueue := ⟨rfl, rfl, rfl⟩

theorem wellFormed_sampleQueue :
    WellFormed sampleQueue [sampleNode 4 (some 1) none, sampleNode 5 none (some 0)] :=
  ⟨.cons rfl (.cons rfl .nil), 1, sampleNode 5 none (some 0), rfl, rfl, rfl⟩

theorem inline_sampleWork : ∃ fuel bytes, (admittedReply sampleEnv fuel sampleWork.buffer).val = some bytes :=
  (admittedReply_returns_iff sampleEnv (by rw [length_sampleWork]; decide)).mpr solvable_sampleWork

theorem queued_answer_differs_sample : ∃ fuel bytes,
    (admittedReply sampleEnv fuel sampleWork.buffer).val = some bytes ∧
    (∀ es s, Run (Step sampleEnv) (.ok sampleQueue) es (.ok s) →
      ∀ out ∈ s.written, out.2 = ascii "SOLN" ∧ out.2 ≠ bytes) ∧
    ∃ es s, Run (Step sampleEnv) (.ok sampleQueue) es (.ok s) ∧ s.written = [(5, ascii "SOLN")] := by
  obtain ⟨fuel, bytes, inline⟩ := inline_sampleWork
  obtain ⟨never, writes⟩ := queued_answer_differs sampleEnv grammar_sampleWork inline begins_sampleQueue
  obtain ⟨es, s, last, run, final, written⟩ :=
    writes [] sampleQueue _ _ [] Run.nil rfl wellFormed_sampleQueue (job_sampleNode _ _ _)
  rw [List.getLast?_singleton, Option.some.injEq] at final
  rw [← final] at written
  exact ⟨fuel, bytes, inline, never, es, s, run, written⟩

/-- The job of a message is answered with 4 bytes, and the message itself with 95. -/
theorem queue_answers_otherwise : ∃ fuel bytes es s,
    (admittedReply sampleEnv fuel sampleWork.buffer).val = some bytes ∧
    Run (Step sampleEnv) (.ok sampleQueue) es (.ok s) ∧
    s.written = [(5, ascii "SOLN")] ∧ bytes ≠ ascii "SOLN" := by
  obtain ⟨fuel, bytes, inline⟩ := inline_sampleWork
  obtain ⟨es, s, last, run, final, written⟩ := queued_answer sampleEnv grammar_sampleWork inline
    begins_sampleQueue.bare rfl wellFormed_sampleQueue (job_sampleNode _ _ _)
  rw [List.getLast?_singleton, Option.some.injEq] at final
  rw [← final] at written
  exact ⟨fuel, bytes, es, s, inline, run, written, inline_ne_soln sampleEnv grammar_sampleWork inline⟩

end WorkServer.Queue

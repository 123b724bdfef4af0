import WorkServer.Handler.Stream
import WorkServer.Threads.Slots

/-!
# The turns of a thread

However the threads interleave, each of them takes the turns of `work_function` on the
messages it reads: it answers them in the order it read them, each once, with bytes that
a turn on that message writes. At most the message read last is still unanswered.
-/

namespace WorkServer
open Tracing CString Runs

/-! ### What a thread reads and writes -/

def Action.reads : Action → List Message
  | .received m => [m]
  | _ => []

def Action.writes : Action → List (List BYTE)
  | .wrote bytes => [bytes]
  | _ => []

def Event.of (i : Nat) : Event → List Action
  | .handler j a => if j = i then [a] else []
  | _ => []

def actions (i : Nat) (es : List Event) : List Action := es.flatMap (Event.of i)

def reads (i : Nat) (es : List Event) : List Message := (actions i es).flatMap Action.reads

def writes (i : Nat) (es : List Event) : List (List BYTE) := (actions i es).flatMap Action.writes

/-- Some turn on `m` writes `bytes`, with a value of `work_num` for its test that is `tested`. -/
def Answers (env : Env) (tested : Int → Prop) (m : Message) (bytes : List BYTE) : Prop :=
  ∃ fuel work_num firstFour buffer, tested work_num ∧
    (turn env fuel work_num firstFour buffer m).val = .answers bytes

/-! ### One step of a thread -/

inductive Handler.Idle : Handler → Prop where
  | reading : Idle .reading
  | refused : Idle (.refused false)
  | failing : Idle .failing
  | aborted : Idle .aborted

/-- Where a thread is in its turn on `m`, and what it will write if it writes. -/
inductive Handler.Busy (env : Env) (tested : Int → Prop) (m : Message) : Handler → Prop where
  | answering {bytes : List BYTE} (answers : Answers env tested m bytes) : Busy env tested m (.answering bytes)
  | counting {buffer : Arr 256} {firstFour : Arr 5} (holds : buffer = m.buffer)
    (branch : classify (entry firstFour 4) m.text = .work) : Busy env tested m (.counting buffer)
  | testing {buffer : Arr 256} {firstFour : Arr 5} (holds : buffer = m.buffer)
    (branch : classify (entry firstFour 4) m.text = .work) : Busy env tested m (.testing buffer)
  | refusing {buffer : Arr 256} (answers : Answers env tested m (shortError buffer).val) :
    Busy env tested m (.refusing buffer)
  | refused : Busy env tested m (.refused true)
  | working {fields : Fields} {buffer : Arr 256}
    (mines : ∀ fuel bytes, (minedReply env fuel fields buffer).val = some bytes → Answers env tested m bytes) :
    Busy env tested m (.working fields buffer)
  | worked {bytes : List BYTE} (answers : Answers env tested m bytes) : Busy env tested m (.worked bytes)
  | hungUp (empty : m.text = []) : Busy env tested m .hungUp
  | departed (empty : m.text = []) : Busy env tested m .departed
  | exited (empty : m.text = []) : Busy env tested m .exited
  | failing : Busy env tested m .failing
  | aborted : Busy env tested m .aborted

/-- The replies of a thread are to its messages, in order, but for the one in hand. -/
inductive Talk (env : Env) (tested : Int → Prop) (h : Handler) : List Message → List (List BYTE) → Prop where
  | idle {rs : List Message} {ws : List (List BYTE)} (idle : h.Idle)
    (answered : List.Forall₂ (Answers env tested) rs ws) : Talk env tested h rs ws
  | busy {rs : List Message} {ws : List (List BYTE)} (m : Message) (busy : h.Busy env tested m)
    (answered : List.Forall₂ (Answers env tested) rs ws) : Talk env tested h (rs ++ [m]) ws

section Step
variable {env : Env} {tested : Int → Prop} {work_num : Int}

theorem afterRead_eq (env : Env) (firstFour : Arr 5) (m : Message) : afterRead env firstFour m =
    if m.text = [] then .hungUp
    else match classify (entry firstFour 4) m.text with
      | .plain kind => .answering (plainReply env kind m.buffer).val
      | .work => .counting m.buffer := by
  have empty : entry m.buffer 0 = 0 ↔ m.text = [] := by
    rw [← text_buffer, text_eq_iff (show Literal [] by decide)]
    exact ⟨fun nul => ⟨rfl, nul⟩, fun both => both.2⟩
  unfold afterRead
  by_cases none : m.text = []
  · rw [if_pos (empty.mpr none), if_pos none]
  · rw [if_neg (mt empty.mp none), if_neg none]
    cases branch : classify (entry firstFour 4) m.text with
    | plain kind => simp only [dispatch_val, text_buffer, branch]
    | work => simp only [dispatch_val, text_buffer, branch]

theorem busy_afterRead (some_tested : ∃ work_num, tested work_num) (firstFour : Arr 5) (m : Message) :
    (afterRead env firstFour m).Busy env tested m := by
  rw [afterRead_eq]
  split
  · rename_i empty
    exact .hungUp empty
  · rename_i begun
    cases branch : classify (entry firstFour 4) m.text with
    | plain kind =>
      obtain ⟨work_num, reads⟩ := some_tested
      refine .answering ⟨0, work_num, firstFour, m.buffer, reads, ?_⟩
      rw [turn_plain env 0 m.buffer branch, if_neg begun]
    | work => exact .counting rfl branch

theorem busy_afterTest {firstFour : Arr 5} {m : Message} (reads : tested work_num)
    (branch : classify (entry firstFour 4) m.text = .work) :
    (afterTest env work_num m.buffer).Busy env tested m := by
  rw [afterTest_val, text_buffer]
  split
  · rename_i refused
    refine .refusing ⟨0, work_num, firstFour, m.buffer, reads, ?_⟩
    rw [turn_work env 0 m.buffer branch, if_pos refused, shortError_val]
  · rename_i admitted
    refine .working fun fuel bytes returned => ⟨fuel, work_num, firstFour, m.buffer, reads, ?_⟩
    rw [turn_work env fuel m.buffer branch, if_neg admitted,
      admittedReply_val env fuel (by rw [text_buffer]; omega), returned]

/-- In its turn on `m` a thread goes on with it, or writes an answer to it and is done. -/
theorem Handler.Step.busy {h h' : Handler} {a : Action} {e : Effect} {m : Message}
    (step : Handler.Step env work_num h a e h') (reads : h.holds = true → tested work_num)
    (busy : h.Busy env tested m) :
    (a.reads = [] ∧ a.writes = [] ∧ h'.Busy env tested m) ∨
      ∃ bytes, a.reads = [] ∧ a.writes = [bytes] ∧ Answers env tested m bytes ∧ h'.Idle := by
  cases busy with
  | answering answers =>
    cases step with
    | write => exact Or.inr ⟨_, rfl, rfl, answers, .reading⟩
    | writeFails => exact Or.inl ⟨rfl, rfl, .failing⟩
  | counting holds branch =>
    cases step with
    | count => exact Or.inl ⟨rfl, rfl, .testing holds branch⟩
  | testing holds branch =>
    cases step with
    | test => exact Or.inl ⟨rfl, rfl, holds ▸ busy_afterTest (reads rfl) branch⟩
  | refusing answers =>
    cases step with
    | refuse => exact Or.inr ⟨_, rfl, rfl, answers, .refused⟩
    | refuseFails => exact Or.inl ⟨rfl, rfl, .refused⟩
  | refused =>
    cases step with
    | release => exact Or.inl ⟨rfl, rfl, .failing⟩
  | working mines =>
    cases step with
    | mine fuel _ _ bytes returned => exact Or.inl ⟨rfl, rfl, .worked (mines fuel bytes returned)⟩
  | worked answers =>
    cases step with
    | finish => exact Or.inl ⟨rfl, rfl, .answering answers⟩
  | hungUp empty =>
    cases step with
    | depart => exact Or.inl ⟨rfl, rfl, .departed empty⟩
  | departed empty =>
    cases step with
    | exit => exact Or.inl ⟨rfl, rfl, .exited empty⟩
  | failing =>
    cases step with
    | abort => exact Or.inl ⟨rfl, rfl, .aborted⟩
  | exited empty => cases step
  | aborted => cases step

theorem Handler.Step.idle {h h' : Handler} {a : Action} {e : Effect}
    (step : Handler.Step env work_num h a e h') (some_tested : ∃ work_num, tested work_num) (idle : h.Idle) :
    a.writes = [] ∧ ((a.reads = [] ∧ h'.Idle) ∨ ∃ m, a.reads = [m] ∧ h'.Busy env tested m) := by
  cases idle with
  | reading =>
    cases step with
    | receive firstFour m => exact ⟨rfl, Or.inr ⟨m, rfl, busy_afterRead some_tested firstFour m⟩⟩
    | readFails => exact ⟨rfl, Or.inl ⟨rfl, .failing⟩⟩
  | refused =>
    cases step with
    | release => exact ⟨rfl, Or.inl ⟨rfl, .reading⟩⟩
  | failing =>
    cases step with
    | abort => exact ⟨rfl, Or.inl ⟨rfl, .aborted⟩⟩
  | aborted => cases step

theorem Handler.Step.talk {h h' : Handler} {a : Action} {e : Effect} {rs : List Message}
    {ws : List (List BYTE)} (step : Handler.Step env work_num h a e h')
    (some_tested : ∃ work_num, tested work_num) (reads : h.holds = true → tested work_num)
    (talk : Talk env tested h rs ws) :
    Talk env tested h' (rs ++ a.reads) (ws ++ a.writes) := by
  cases talk with
  | idle idle answered =>
    obtain ⟨wrote, ⟨read, idle'⟩ | ⟨m, read, busy⟩⟩ := step.idle some_tested idle
    · rw [read, wrote, List.append_nil, List.append_nil]
      exact .idle idle' answered
    · rw [read, wrote, List.append_nil]
      exact .busy m busy answered
  | busy m busy answered =>
    obtain ⟨read, wrote, busy'⟩ | ⟨bytes, read, wrote, answers, idle⟩ := step.busy reads busy
    · rw [read, wrote, List.append_nil, List.append_nil]
      exact .busy m busy' answered
    · rw [read, wrote, List.append_nil]
      exact .idle idle (List.rel_append answered (.cons answers .nil))

theorem Talk.split {h : Handler} {rs : List Message} {ws : List (List BYTE)} (talk : Talk env tested h rs ws) :
    ∃ answered pending, rs = answered ++ pending ∧ pending.length ≤ 1 ∧
      List.Forall₂ (Answers env tested) answered ws := by
  cases talk with
  | idle idle answered => exact ⟨rs, [], (List.append_nil rs).symm, Nat.zero_le _, answered⟩
  | busy m busy answered => exact ⟨_, [m], rfl, Nat.le_refl _, answered⟩

end Step

/-! ### One thread of a run -/

/-- A thread that is not created yet is about to read. -/
def State.thread (s : State) (i : Nat) : Handler := s.handlers.getD i .reading

/-- A step of a thread that finds a `tested` value in `work_num` while it holds a slot. -/
def ThreadStep (env : Env) (tested : Int → Prop) (h : Handler) (a : Action) (h' : Handler) : Prop :=
  ∃ work_num e, (h.holds = true → tested work_num) ∧ Handler.Step env work_num h a e h'

section Thread
variable {env : Env}

theorem thread_start (n i : Nat) : (start n).thread i = .reading := by
  unfold State.thread start
  rw [List.getD_eq_getElem?_getD, List.getElem?_replicate]
  split <;> rfl

theorem Step.thread {s s' : State} {e : Event} (step : Step env s e s') (i : Nat) :
    (e.of i = [] ∧ s'.thread i = s.thread i) ∨
      ∃ a effect, e.of i = [a] ∧ Handler.Step env s.work_num (s.thread i) a effect (s'.thread i) ∧
        s'.work_num = s.work_num + effect.work_num := by
  cases step with
  | spawn _ =>
    refine Or.inl ⟨rfl, ?_⟩
    simp only [State.thread, List.getD_eq_getElem?_getD]
    rcases Nat.lt_trichotomy i s.handlers.length with old | rfl | beyond
    · rw [List.getElem?_append_left old]
    · simp
    · rw [List.getElem?_eq_none_iff.mpr (by simp; omega), List.getElem?_eq_none_iff.mpr (by omega)]
  | handler j h h' a effect _ here moved =>
    have inside : j < s.handlers.length := (List.getElem?_eq_some_iff.mp here).1
    simp only [State.thread, List.getD_eq_getElem?_getD]
    by_cases mine : j = i
    · subst mine
      refine Or.inr ⟨a, effect, if_pos rfl, ?_, rfl⟩
      rw [here, List.getElem?_set_self inside]
      exact moved
    · rw [List.getElem?_set_ne mine]
      exact Or.inl ⟨if_neg mine, rfl⟩
  | _ => exact Or.inl ⟨rfl, rfl⟩

theorem actions_snoc (i : Nat) (es : List Event) (e : Event) :
    actions i (es ++ [e]) = actions i es ++ e.of i := by
  simp [actions]

/-- What a thread does in a run of the server is a run of the thread alone. -/
theorem thread_run {es : List Event} {s t : State} (run : Run (Step env) s es t) (i : Nat) :
    Run (ThreadStep env fun _ => True) (s.thread i) (actions i es) (t.thread i) := by
  refine run.history
    (P := fun es t => Run (ThreadStep env fun _ => True) (s.thread i) (actions i es) (t.thread i)) Run.nil ?_
  intro es t e u before step
  rw [actions_snoc]
  rcases step.thread i with ⟨silent, same⟩ | ⟨a, effect, acts, moved, -⟩
  · rw [silent, same, List.append_nil]
    exact before
  · rw [acts]
    exact before.snoc ⟨t.work_num, effect, fun _ => trivial, moved⟩

theorem talk_run {tested : Int → Prop} (some_tested : ∃ work_num, tested work_num) {acts : List Action}
    {h : Handler} (run : Run (ThreadStep env tested) .reading acts h) :
    Talk env tested h (acts.flatMap Action.reads) (acts.flatMap Action.writes) := by
  refine run.history
    (P := fun acts h => Talk env tested h (acts.flatMap Action.reads) (acts.flatMap Action.writes))
    (.idle .reading .nil) ?_
  intro acts h a h' talk moved
  obtain ⟨work_num, e, reads, step⟩ := moved
  rw [List.flatMap_append, List.flatMap_append, List.flatMap_singleton, List.flatMap_singleton]
  exact step.talk some_tested reads talk

theorem talk_of_run {n : Nat} {es : List Event} {s : State} (run : Run (Step env) (start n) es s) (i : Nat) :
    Talk env (fun _ => True) (s.thread i) (reads i es) (writes i es) := by
  have alone := thread_run run i
  rw [thread_start] at alone
  exact talk_run ⟨0, trivial⟩ alone

end Thread

/-! ### Every run -/

/-- In every run each thread answers the messages it reads in their order and once each, and
has at most the last one still to answer. -/
theorem threads_take_turns {env : Env} {n : Nat} {es : List Event} {s : State}
    (run : Run (Step env) (start n) es s) (i : Nat) : ∃ answered pending,
      reads i es = answered ++ pending ∧ pending.length ≤ 1 ∧
        List.Forall₂ (Answers env fun _ => True) answered (writes i es) :=
  (talk_of_run run i).split

theorem afterRead_ping (env : Env) {firstFour : Arr 5} {m : Message} (ping : m.text = ascii "PING\r\n") :
    afterRead env firstFour m = .answering (ascii "PONG\r\n") := by
  rw [afterRead_eq, if_neg (by rw [ping]; decide), classify_eq_ping.mpr ping]
  exact congrArg Handler.answering (pingReply_val m.buffer)

/-- Thread `i` answers a PING. -/
def pinged (i : Nat) : List Event :=
  [.handler i (.received ping), .handler i (.wrote (ascii "PONG\r\n"))]

theorem pinged_run (env : Env) {n i : Nat} (inside : i < n) : Run (Step env) (start n) (pinged i) (start n) := by
  have received := @Handler.Step.receive env 0 (Vector.replicate 5 0) ping
  rw [afterRead_ping env (by decide)] at received
  have alive : (start n).main ≠ .gone := nofun
  have here : (start n).handlers[i]? = some .reading := by simp [start, inside]
  have read : Step env (start n) (.handler i (.received ping))
      { start n with handlers := (start n).handlers.set i (.answering (ascii "PONG\r\n")) } := by
    simpa using Step.handler (start n) i _ _ _ _ alive here received
  have wrote := Step.handler
    { start n with handlers := (start n).handlers.set i (.answering (ascii "PONG\r\n")) } i _ _ _ _ alive
    (List.getElem?_set_self (by simpa [start] using inside))
    (@Handler.Step.write env 0 (ascii "PONG\r\n"))
  apply (Run.single read).snoc
  simpa [start] using wrote

theorem threads_take_turns_sample : writes 0 (pinged 0) = [ascii "PONG\r\n"] ∧
    ∃ answered pending, reads 0 (pinged 0) = answered ++ pending ∧ pending.length ≤ 1 ∧
      List.Forall₂ (Answers sampleEnv fun _ => True) answered (writes 0 (pinged 0)) :=
  ⟨rfl, threads_take_turns (pinged_run sampleEnv (show 0 < 1 by omega)) 0⟩

end WorkServer

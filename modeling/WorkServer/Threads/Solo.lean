import WorkServer.Threads.Clients
import WorkServer.Threads.Turns

/-!
# A thread alone

`turn` is the loop body of `work_function` as one function, and a thread of the server
takes it in steps. While the other threads stand still the two say the same: the stretches
in which a thread goes from one read to a later one are the sequences of turns, and they
leave the server as it was.
-/

namespace WorkServer
open Tracing CString Runs

def SoloStep (env : Env) (i : Nat) (s : State) (e : Event) (t : State) : Prop :=
  Step env s e t ∧ ∃ a, e = .handler i a

/-- A step of a thread that finds in `work_num` what the others hold, and its own slot. -/
def OwnStep (env : Env) (others : Int) (h : Handler) (a : Action) (h' : Handler) : Prop :=
  ∃ e, Handler.Step env (others + h.holds.toNat) h a e h'

/-- The server `s`, in which thread `i` was about to read, once that thread has come to `h`. -/
def State.put (s : State) (i : Nat) (h : Handler) : State :=
  { s with
    client_num := s.client_num + h.counted.toNat - 1
    work_num := s.work_num + h.holds.toNat
    handlers := s.handlers.set i h }

section Solo
variable {env : Env} {s t : State} {i : Nat} {others : Int}

theorem put_reading (here : s.handlers[i]? = some .reading) : s.put i .reading = s := by
  have client : s.client_num + Handler.reading.counted.toNat - 1 = s.client_num := Int.add_sub_cancel _ 1
  have slot : s.work_num + Handler.reading.holds.toNat = s.work_num := Int.add_zero _
  unfold State.put
  rw [set_here here, client, slot]

/-! ### The steps of the server and those of the thread -/

theorem OwnStep.put {h h' : Handler} {a : Action} (alive : s.main ≠ .gone) (inside : i < s.handlers.length)
    (sound : h.onFlagPath = false) (step : OwnStep env s.work_num h a h') :
    h'.onFlagPath = false ∧ SoloStep env i (s.put i h) (.handler i a) (s.put i h') := by
  obtain ⟨e, moved⟩ := step
  obtain ⟨sound', slot, -⟩ := moved.slot sound
  have client := moved.client.1
  have taken := Step.handler (s.put i h) i h h' a e alive (List.getElem?_set_self inside) moved
  refine ⟨sound', ?_, a, rfl⟩
  convert taken using 1
  unfold State.put
  simp only [List.set_set, client, slot, State.mk.injEq, and_true]
  omega

theorem SoloStep.own {h : Handler} {e : Event} (inside : i < s.handlers.length) (sound : h.onFlagPath = false)
    (step : SoloStep env i (s.put i h) e t) :
    ∃ a h', e = .handler i a ∧ OwnStep env s.work_num h a h' ∧ h'.onFlagPath = false ∧ t = s.put i h' := by
  obtain ⟨step, a, rfl⟩ := step
  obtain ⟨g, effect, h', -, there, moved, rfl⟩ := step.of_handler
  obtain rfl : h = g := by
    have here : (s.put i h).handlers[i]? = some h := List.getElem?_set_self inside
    rw [here] at there
    exact Option.some.inj there
  obtain ⟨sound', slot, -⟩ := moved.slot sound
  have client := moved.client.1
  refine ⟨a, h', rfl, ⟨effect, moved⟩, sound', ?_⟩
  unfold State.put
  simp only [List.set_set, client, slot, State.mk.injEq, and_true]
  omega

theorem solo_run_iff {es : List Event} (alive : s.main ≠ .gone) (here : s.handlers[i]? = some .reading) :
    Run (SoloStep env i) s es t ↔
      ∃ acts h, es = acts.map (.handler i) ∧ Run (OwnStep env s.work_num) .reading acts h ∧ t = s.put i h := by
  have inside : i < s.handlers.length := (List.getElem?_eq_some_iff.mp here).1
  constructor
  · intro run
    obtain ⟨acts, h, spelt, own, -, at_h⟩ := run.history
      (P := fun es t => ∃ acts h, es = acts.map (.handler i) ∧
        Run (OwnStep env s.work_num) .reading acts h ∧ h.onFlagPath = false ∧ t = s.put i h)
      ⟨[], .reading, rfl, Run.nil, rfl, (put_reading here).symm⟩ (by
        intro es t e u reached step
        obtain ⟨acts, h, rfl, own, sound, rfl⟩ := reached
        obtain ⟨a, h', rfl, moved, sound', rfl⟩ := step.own inside sound
        exact ⟨acts ++ [a], h', by simp, own.snoc moved, sound', rfl⟩)
    exact ⟨acts, h, spelt, own, at_h⟩
  · intro reached
    obtain ⟨acts, h, rfl, own, rfl⟩ := reached
    refine (own.history (P := fun acts h => h.onFlagPath = false ∧
      Run (SoloStep env i) s (acts.map (.handler i)) (s.put i h)) ⟨rfl, ?_⟩ ?_).2
    · rw [put_reading here]
      exact Run.nil
    · intro acts h a h' inv step
      obtain ⟨sound, before⟩ := inv
      obtain ⟨sound', taken⟩ := step.put alive inside sound
      refine ⟨sound', ?_⟩
      rw [List.map_append]
      exact before.snoc taken

/-! ### The steps of the thread and the turns -/

theorem OwnStep.thread {h h' : Handler} {a : Action} (step : OwnStep env others h a h') :
    ThreadStep env (· = others + 1) h a h' := by
  obtain ⟨e, moved⟩ := step
  refine ⟨_, e, fun holds => ?_, moved⟩
  rw [holds]
  rfl

theorem answers_of_run {acts : List Action} (run : Run (OwnStep env others) .reading acts .reading) :
    List.Forall₂ (Answers env (· = others + 1)) (acts.flatMap Action.reads) (acts.flatMap Action.writes) := by
  have own : Run (ThreadStep env (· = others + 1)) .reading acts .reading := run.mono fun _ _ _ => OwnStep.thread
  have talk := @talk_run env (· = others + 1) ⟨others + 1, rfl⟩ _ _ own
  generalize acts.flatMap Action.reads = rs at talk ⊢
  cases talk with
  | idle _ answered => exact answered
  | busy m busy _ => cases busy

theorem turn_run {m : Message} {bytes : List BYTE} (answers : Answers env (· = others + 1) m bytes) :
    ∃ acts, Run (OwnStep env others) .reading acts .reading ∧ acts.flatMap Action.reads = [m] ∧
      acts.flatMap Action.writes = [bytes] := by
  obtain ⟨fuel, work_num, firstFour, buffer, rfl, answered⟩ := answers
  have received : OwnStep env others .reading (.received m) (afterRead env firstFour m) :=
    ⟨_, .receive firstFour m⟩
  rw [afterRead_eq] at received
  cases branch : classify (entry firstFour 4) m.text with
  | plain kind =>
    rw [turn_plain env fuel buffer branch] at answered
    split at answered
    · cases answered
    · rename_i begun
      obtain rfl := Turn.answers.inj answered
      rw [if_neg begun, branch] at received
      exact ⟨_, (Run.single received).snoc ⟨_, .write _⟩, rfl, rfl⟩
  | work =>
    have begun : m.text ≠ [] := by
      intro empty
      rw [empty] at branch
      exact absurd (classify_eq_work.mp branch).2 (by decide)
    rw [if_neg begun, branch] at received
    have counted : OwnStep env others (.counting m.buffer) .runs (.testing m.buffer) := ⟨_, .count _⟩
    have tested : OwnStep env others (.testing m.buffer) .runs (afterTest env (others + 1) m.buffer) :=
      ⟨_, .test _⟩
    rw [afterTest_val, text_buffer] at tested
    rw [turn_work env fuel buffer branch] at answered
    have begins := (Run.single received).snoc counted
    by_cases refused : MAX_WORK ≤ others + 1 ∨ m.text.length ≠ 100
    · rw [if_pos refused] at answered tested
      obtain rfl := Turn.answers.inj answered
      rw [← shortError_val m.buffer]
      exact ⟨_, ((begins.snoc tested).snoc ⟨_, .refuse _⟩).snoc ⟨_, .release false⟩, rfl, rfl⟩
    · rw [if_neg refused] at answered tested
      rw [admittedReply_val env fuel (by rw [text_buffer]; omega)] at answered
      split at answered
      · cases answered
      · rename_i reply returned
        obtain rfl := Turn.answers.inj answered
        exact ⟨_, (((begins.snoc tested).snoc ⟨_, .mine _ _ _ _ returned⟩).snoc ⟨_, .finish _⟩).snoc
          ⟨_, .write _⟩, rfl, rfl⟩

theorem turns_run {rs : List Message} {ws : List (List BYTE)}
    (turns : List.Forall₂ (Answers env (· = others + 1)) rs ws) :
    ∃ acts, Run (OwnStep env others) .reading acts .reading ∧ acts.flatMap Action.reads = rs ∧
      acts.flatMap Action.writes = ws := by
  induction turns with
  | nil => exact ⟨[], Run.nil, rfl, rfl⟩
  | cons first _ ih =>
    obtain ⟨acts, run, read, wrote⟩ := turn_run first
    obtain ⟨later, rest, reads, writes⟩ := ih
    refine ⟨acts ++ later, run.append rest, ?_, ?_⟩
    · rw [List.flatMap_append, read, reads, List.singleton_append]
    · rw [List.flatMap_append, wrote, writes, List.singleton_append]

/-! ### Both at once -/

theorem actions_map (i : Nat) (acts : List Action) : actions i (acts.map (.handler i)) = acts := by
  simp [actions, List.flatMap_map, Event.of]

theorem thread_put (inside : i < s.handlers.length) (h : Handler) : (s.put i h).thread i = h := by
  simp [State.thread, State.put, List.getD_eq_getElem?_getD, List.getElem?_set_self inside]

/-- A thread that runs alone from a read to a read has taken turns, and the server is as it was. -/
theorem solo_iff_turns (alive : s.main ≠ .gone) (here : s.handlers[i]? = some .reading) (rs : List Message)
    (ws : List (List BYTE)) :
    (∃ es, Run (SoloStep env i) s es t ∧ t.thread i = .reading ∧ reads i es = rs ∧ writes i es = ws) ↔
      t = s ∧ List.Forall₂ (Answers env (· = s.work_num + 1)) rs ws := by
  have inside : i < s.handlers.length := (List.getElem?_eq_some_iff.mp here).1
  simp only [solo_run_iff alive here]
  constructor
  · intro reached
    obtain ⟨_, ⟨acts, h, rfl, run, rfl⟩, reading, rfl, rfl⟩ := reached
    rw [thread_put inside] at reading
    subst reading
    rw [reads, writes, actions_map]
    exact ⟨put_reading here, answers_of_run run⟩
  · intro taken
    obtain ⟨rfl, turns⟩ := taken
    obtain ⟨acts, run, read, wrote⟩ := turns_run turns
    refine ⟨_, ⟨acts, .reading, rfl, run, (put_reading here).symm⟩, ?_, ?_, ?_⟩
    · rw [State.thread, List.getD_eq_getElem?_getD, here, Option.getD_some]
    · rw [reads, actions_map, read]
    · rw [writes, actions_map, wrote]

end Solo

theorem solo_iff_turns_sample : ∃ es, Run (SoloStep sampleEnv 0) (start 1) es (start 1) ∧
    writes 0 es = [ascii "PONG\r\n"] := by
  have answers : Answers sampleEnv (· = (start 1).work_num + 1) ping (ascii "PONG\r\n") :=
    ⟨0, 1, Vector.replicate 5 0, Vector.replicate 256 0, rfl, turn_ping sampleEnv 0 _ (by decide)⟩
  obtain ⟨es, run, -, -, wrote⟩ := (solo_iff_turns (show (start 1).main ≠ .gone from nofun)
    (show (start 1).handlers[0]? = some .reading from rfl) [ping] [ascii "PONG\r\n"]).mpr
    ⟨rfl, List.Forall₂.cons answers List.Forall₂.nil⟩
  exact ⟨es, run, wrote⟩

end WorkServer

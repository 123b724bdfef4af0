import WorkServer.Handler.Grammar
import WorkServer.Threads.Slots

/-!
# The fate of an admitted request

A thread inside `work` goes on to give its slot back and to answer if its puzzle has a
solution. If it has none the thread takes no further step, and the slot is gone.
-/

namespace WorkServer
open Tracing CString HexText Runs

theorem turn_answers_iff (env : Env) {work_num : Int} {firstFour : Arr 5} (buffer : Arr 256) {m : Message}
    (fifth : entry firstFour 4 = 0) (word : ascii "WORK" <+: m.text) (len : m.text.length = 100)
    (free : work_num < MAX_WORK) :
    (∃ fuel reply, (turn env fuel work_num firstFour buffer m).val = .answers reply) ↔
      Solvable env.sha256 (targetField env m.text) (seedField env m.text) := by
  rw [← text_buffer, ← admittedReply_returns_iff env (by rw [text_buffer]; omega)]
  refine exists_congr fun fuel => ?_
  rw [turn_work env fuel buffer (fifth ▸ classify_eq_work.mpr ⟨rfl, word⟩), if_neg (by omega)]
  cases (admittedReply env fuel m.buffer).val <;> simp

/-! ### Threads inside `work` -/

def Handler.Admissible (env : Env) : Handler → Prop
  | .working fields buffer => fields = (copyFields env buffer).val ∧ (text buffer).length = 100
  | _ => True

theorem Handler.Step.admissible {env : Env} {work_num : Int} {h h' : Handler} {a : Action} {e : Effect}
    (step : Handler.Step env work_num h a e h') : h'.Admissible env := by
  cases step with
  | receive firstFour m =>
    have shape := afterRead_val env firstFour m
    generalize afterRead env firstFour m = h at shape ⊢
    rcases shape with rfl | ⟨bytes, rfl⟩ | rfl <;> exact True.intro
  | test buffer =>
    rw [afterTest_val]
    split
    · exact True.intro
    · exact ⟨rfl, by omega⟩
  | release failed => cases failed <;> exact True.intro
  | _ => exact True.intro

theorem admissible_run {env : Env} {n : Nat} {es : List Event} {s : State}
    (run : Run (Step env) (start n) es s) : ∀ h ∈ s.handlers, h.Admissible env := by
  refine run.invariant (P := fun s => ∀ h ∈ s.handlers, h.Admissible env) ?_ ?_
  · intro h hh
    rw [List.eq_of_mem_replicate hh]
    exact True.intro
  · intro t e u inv step
    cases step with
    | spawn _ =>
      intro h hh
      rcases List.mem_append.mp hh with old | new
      · exact inv h old
      · rw [List.mem_singleton.mp new]
        exact True.intro
    | handler i h h' a effect _ here moved => exact forall_mem_move inv moved.admissible
    | _ => exact inv

theorem answer_run {env : Env} {s : State} {i fuel : Nat} {fields : Fields} {buffer : Arr 256}
    {reply : List BYTE} (alive : s.main ≠ .gone) (here : s.handlers[i]? = some (.working fields buffer))
    (returned : (minedReply env fuel fields buffer).val = some reply) :
    Run (Step env) s [.handler i .runs, .handler i .runs, .handler i (.wrote reply)]
      { s with work_num := s.work_num - 1, handlers := s.handlers.set i .reading } := by
  have inside : i < s.handlers.length := (List.getElem?_eq_some_iff.mp here).1
  have mined : Step env s (.handler i .runs) { s with handlers := s.handlers.set i (.worked reply) } := by
    simpa using Step.handler s i _ _ _ _ alive here (.mine fuel fields buffer reply returned)
  have released : Step env { s with handlers := s.handlers.set i (.worked reply) } (.handler i .runs)
      { s with work_num := s.work_num - 1, handlers := s.handlers.set i (.answering reply) } := by
    simpa [Int.sub_eq_add_neg] using Step.handler
      { s with handlers := s.handlers.set i (.worked reply) } i _ _ _ _ alive
      (List.getElem?_set_self inside) (.finish reply)
  have wrote : Step env
      { s with work_num := s.work_num - 1, handlers := s.handlers.set i (.answering reply) }
      (.handler i (.wrote reply))
      { s with work_num := s.work_num - 1, handlers := s.handlers.set i .reading } := by
    simpa using Step.handler
      { s with work_num := s.work_num - 1, handlers := s.handlers.set i (.answering reply) } i _ _ _ _
      alive (List.getElem?_set_self inside) (.write reply)
  exact ((Run.single mined).snoc released).snoc wrote

/-- A thread whose search cannot end takes no step, whatever the others do. -/
theorem stuck_run {env : Env} {s t : State} {es : List Event} {i : Nat} {fields : Fields} {buffer : Arr 256}
    (here : s.handlers[i]? = some (.working fields buffer))
    (endless : ∀ fuel, (minedReply env fuel fields buffer).val = none) (run : Run (Step env) s es t) :
    t.handlers[i]? = some (.working fields buffer) ∧ ∀ a, .handler i a ∉ es := by
  refine run.history
    (P := fun es t => t.handlers[i]? = some (.working fields buffer) ∧ ∀ a, .handler i a ∉ es)
    ⟨here, fun _ => List.not_mem_nil⟩ ?_
  intro es t e u inv step
  obtain ⟨stays, silent⟩ := inv
  have others : ∀ j a, e = .handler j a → j ≠ i := by
    rintro j a rfl rfl
    obtain ⟨h, effect, h', -, tested, moved, -⟩ := step.of_handler
    obtain rfl : h = .working fields buffer := by rw [stays] at tested; exact (Option.some.inj tested).symm
    cases moved with
    | mine fuel _ _ bytes returned =>
      rw [endless fuel] at returned
      cases returned
  refine ⟨?_, fun a listed => ?_⟩
  · cases step with
    | spawn _ =>
      rw [List.getElem?_append_left (List.getElem?_eq_some_iff.mp stays).1]
      exact stays
    | handler j h h' a effect _ _ _ =>
      rw [List.getElem?_set_ne (others j a rfl)]
      exact stays
    | _ => exact stays
  · rcases List.mem_append.mp listed with old | new
    · exact silent a old
    · exact others i a (List.mem_singleton.mp new).symm rfl

/-- A thread inside `work` gives its slot back and answers if and only if some nonce solves
its puzzle; otherwise it stays there in every run. -/
theorem work_answered_iff {env : Env} {n : Nat} {es : List Event} {s : State} {i : Nat} {fields : Fields}
    {m : Message} (run : Run (Step env) (start n) es s) (alive : s.main ≠ .gone)
    (here : s.handlers[i]? = some (.working fields m.buffer)) :
    ((∃ fuel out, (work env fuel m.buffer (decode env fields).val.difficultyBYTE
        (decode env fields).val.seedBYTE (decode env fields).val.thirdBYTE).val = some out) ↔
      Solvable env.sha256 (targetField env m.text) (seedField env m.text)) ∧
    (Solvable env.sha256 (targetField env m.text) (seedField env m.text) → ∃ reply,
      Run (Step env) s [.handler i .runs, .handler i .runs, .handler i (.wrote reply)]
        { s with work_num := s.work_num - 1, handlers := s.handlers.set i .reading }) ∧
    (¬ Solvable env.sha256 (targetField env m.text) (seedField env m.text) →
      ∀ fs t, Run (Step env) s fs t →
        t.handlers[i]? = some (.working fields m.buffer) ∧ ∀ a, .handler i a ∉ fs) := by
  obtain ⟨rfl, len⟩ := admissible_run run _ (List.mem_of_getElem? here)
  have long : 98 ≤ (text m.buffer).length := by omega
  obtain ⟨target, seed, -⟩ := fields_val env m.buffer (by omega)
  have ends := admittedReply_returns_iff env long
  simp only [admittedReply_val env _ long, text_buffer] at ends
  refine ⟨?_, fun solvable => ?_, fun endless fs t => stuck_run here fun fuel => ?_⟩
  · rw [work_returns_iff, target, seed, text_buffer]
  · obtain ⟨fuel, reply, returned⟩ := ends.mpr solvable
    exact ⟨reply, answer_run alive here returned⟩
  · cases returned : (minedReply env fuel (copyFields env m.buffer).val m.buffer).val with
    | none => rfl
    | some reply => exact absurd (ends.mp ⟨fuel, reply, returned⟩) endless

def mining : State where
  client_num := 1
  work_num := 1
  main := .accepting
  handlers := [.working (copyFields sampleEnv sampleWork.buffer).val sampleWork.buffer]
  queue := []
  worker := .polling

theorem mining_reachable : ∃ es, Run (Step sampleEnv) (start 1) es mining := by
  obtain ⟨es, run⟩ := @arrive sampleEnv (start 1) 0 sampleWork nofun rfl (by decide)
  have moved := @Handler.Step.test sampleEnv 1 sampleWork.buffer
  rw [afterTest_val, if_neg (by rw [length_sampleWork]; decide)] at moved
  have entered := run.snoc (Step.handler _ 0 _ _ _ _ (by decide) rfl moved)
  exact ⟨_, entered⟩

theorem work_answered_iff_sample : ∃ reply,
    Run (Step sampleEnv) mining [.handler 0 .runs, .handler 0 .runs, .handler 0 (.wrote reply)]
      { mining with work_num := mining.work_num - 1, handlers := mining.handlers.set 0 .reading } := by
  obtain ⟨es, run⟩ := mining_reachable
  have solvable := solvable_sampleWork
  rw [text_buffer] at solvable
  exact (work_answered_iff run nofun rfl).2.1 solvable

/-! ### A request that is never answered -/

def zeroWork : Message where
  bytes := ascii "WORK" ++ fieldsText (List.replicate 8 (chr '0')) (List.replicate 64 (chr '0'))
    (List.replicate 16 (chr '0')) ++ ascii " " ++ List.replicate 2 (chr '0') ++ ascii "\r\n"
  fits := by decide

theorem zeroWork_grammar : WorkGrammar zeroWork.bytes :=
  ⟨_, _, _, _, ⟨by decide, by decide, by decide, by decide⟩, by decide, by decide, rfl⟩

/-- A target of zero: the turn on this message goes on searching under every bound. -/
theorem zero_target_searches : ¬ ∀ (env : Env) (work_num : Int) (firstFour : Arr 5) (buffer : Arr 256)
    (m : Message), entry firstFour 4 = 0 → work_num < MAX_WORK → WorkGrammar m.bytes →
    ∃ fuel reply, (turn env fuel work_num firstFour buffer m).val = .answers reply := by
  intro claimed
  have answered := claimed sampleEnv 0 (Vector.replicate 5 0) (Vector.replicate 256 0) zeroWork (by decide)
    (by decide) zeroWork_grammar
  obtain ⟨plain, word, len⟩ := zeroWork_grammar.shape
  rw [← text_of_literal plain] at word len
  have solvable := (turn_answers_iff sampleEnv _ (by decide) word len (by decide)).mp answered
  rw [show targetField sampleEnv zeroWork.text = 0 by decide +kernel] at solvable
  exact not_solvable_zero _ _ solvable

end WorkServer

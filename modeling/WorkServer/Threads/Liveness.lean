import WorkServer.Threads.Clients
import WorkServer.Threads.Progress
import WorkServer.Threads.Turns

/-!
# What a thread waits for

A turn is at most six steps of its thread, from the read to the next one. A thread that has
not exited waits for its socket, in `read` or in `write`, or can take its next step by itself,
unless it searches for a nonce that does not exist. The other threads hold it up nowhere.
-/

namespace WorkServer
open Tracing CString Runs

/-- The steps that a thread can still take before it reads another message. -/
def Handler.rank : Handler → Nat
  | .counting _ => 7
  | .testing _ => 6
  | .working _ _ => 5
  | .refusing _ | .worked _ => 4
  | .answering _ | .refused false | .flagged _ => 3
  | .reading | .refused true | .flagFailed | .hungUp => 2
  | .departed | .failing => 1
  | .exited | .aborted => 0

theorem rank_le (h : Handler) : h.rank ≤ 7 := by
  cases h with
  | refused failed => cases failed <;> simp [Handler.rank]
  | _ => simp [Handler.rank]

theorem Handler.Step.rank {env : Env} {work_num : Int} {h h' : Handler} {a : Action} {e : Effect}
    (step : Handler.Step env work_num h a e h') : h'.rank + 1 ≤ h.rank + 6 * a.reads.length := by
  cases step with
  | receive firstFour m =>
    rcases afterRead_val env firstFour m with same | ⟨bytes, same⟩ | same <;> rw [same] <;>
      simp [Handler.rank, Action.reads]
  | test buffer =>
    rw [afterTest_val]
    split <;> simp [Handler.rank, Action.reads]
  | release failed => cases failed <;> simp [Handler.rank, Action.reads]
  | _ => simp [Handler.rank, Action.reads]

theorem rank_run {env : Env} {tested : Int → Prop} {acts : List Action} {h h' : Handler}
    (run : Run (ThreadStep env tested) h acts h') :
    acts.length + h'.rank ≤ 6 * (acts.flatMap Action.reads).length + h.rank := by
  refine run.history
    (P := fun acts h' => acts.length + h'.rank ≤ 6 * (acts.flatMap Action.reads).length + h.rank)
    (by simp) ?_
  intro acts h₁ a h₂ before moved
  obtain ⟨work_num, e, -, step⟩ := moved
  have spent := step.rank
  rw [List.length_append, List.length_singleton, List.flatMap_append, List.flatMap_singleton,
    List.length_append]
  omega

/-- In every stretch of a run a thread takes at most six steps for each message that it reads
there, two more if it begins with a read, and seven more anyhow. All of `work` is one step. -/
theorem steps_bounded {env : Env} {es : List Event} {s t : State} (run : Run (Step env) s es t) (i : Nat) :
    (actions i es).length ≤ 6 * (reads i es).length + 7 ∧
      (s.thread i = .reading → (actions i es).length ≤ 6 * (reads i es).length + 2) := by
  have bound := rank_run (thread_run run i)
  have most := rank_le (s.thread i)
  constructor
  · unfold reads
    omega
  · intro reading
    have two : (s.thread i).rank = 2 := by rw [reading]; rfl
    unfold reads
    omega

theorem steps_bounded_sample : (reads 0 (pinged 0)).length = 1 ∧ (actions 0 (pinged 0)).length ≤ 8 :=
  ⟨rfl, (steps_bounded (pinged_run sampleEnv (show 0 < 1 by omega)) 0).2 (thread_start 1 0)⟩

/-! ### The next step -/

/-- The thread searches for a nonce that does not exist. -/
def Handler.Endless (env : Env) (h : Handler) : Prop :=
  ∃ buffer, h = .working (copyFields env buffer).val buffer ∧
    ¬ Solvable env.sha256 (targetField env (text buffer)) (seedField env (text buffer))

/-- The bytes that a thread is about to write. -/
def Handler.toWrite : Handler → Option (List BYTE)
  | .answering bytes => some bytes
  | .refusing buffer | .flagged buffer => some (shortError buffer).val
  | _ => none

/-- In `read` or in `write`, where the next step is up to the socket. -/
def Handler.AtSocket (h : Handler) : Prop := h = .reading ∨ ∃ bytes, h.toWrite = some bytes

/-- A thread that neither reads nor searches has a step to take, in which nothing fails. -/
theorem Handler.Step.goes_on (env : Env) (work_num : Int) {h : Handler} (live : h.live = true) (busy : h ≠ .reading)
    (moves : h.inWork = false) :
    ∃ a e h', a.fails = false ∧ a.reads = [] ∧ Handler.Step env work_num h a e h' := by
  cases h with
  | reading => exact absurd rfl busy
  | answering bytes => exact ⟨_, _, _, rfl, rfl, .write bytes⟩
  | counting buffer => exact ⟨_, _, _, rfl, rfl, .count buffer⟩
  | testing buffer => exact ⟨_, _, _, rfl, rfl, .test buffer⟩
  | refusing buffer => exact ⟨_, _, _, rfl, rfl, .refuse buffer⟩
  | refused failed => exact ⟨_, _, _, rfl, rfl, .release failed⟩
  | flagged buffer => exact ⟨_, _, _, rfl, rfl, .flag buffer⟩
  | flagFailed => exact ⟨_, _, _, rfl, rfl, .flagRelease⟩
  | worked bytes => exact ⟨_, _, _, rfl, rfl, .finish bytes⟩
  | hungUp => exact ⟨_, _, _, rfl, rfl, .depart⟩
  | departed => exact ⟨_, _, _, rfl, rfl, .exit⟩
  | failing => exact ⟨_, _, _, rfl, rfl, .abort⟩
  | working fields buffer => cases moves
  | exited => cases live
  | aborted => cases live

theorem Handler.Step.receives_iff {env : Env} {work_num : Int} {h : Handler} {m : Message} :
    (∃ e h', Handler.Step env work_num h (.received m) e h') ↔ h = .reading := by
  constructor
  · intro taken
    obtain ⟨e, h', step⟩ := taken
    cases step
    rfl
  · rintro rfl
    exact ⟨_, _, .receive (Vector.replicate 5 0) m⟩

theorem Handler.Step.writes_iff {env : Env} {work_num : Int} {h : Handler} {bytes : List BYTE} :
    (∃ e h', Handler.Step env work_num h (.wrote bytes) e h') ↔ h.toWrite = some bytes := by
  constructor
  · intro taken
    obtain ⟨e, h', step⟩ := taken
    generalize wrote : Action.wrote bytes = a at step
    cases step with
    | write reply | refuse buffer | flag buffer => simp only [Handler.toWrite, Action.wrote.inj wrote]
    | _ => cases wrote
  · intro next
    cases h with
    | answering reply =>
      obtain rfl : reply = bytes := Option.some.inj next
      exact ⟨_, _, .write reply⟩
    | refusing buffer =>
      obtain rfl : (shortError buffer).val = bytes := Option.some.inj next
      exact ⟨_, _, .refuse buffer⟩
    | flagged buffer =>
      obtain rfl : (shortError buffer).val = bytes := Option.some.inj next
      exact ⟨_, _, .flag buffer⟩
    | _ => cases next

theorem Handler.Step.not_atSocket {env : Env} {work_num : Int} {h h' : Handler} {e : Effect}
    (step : Handler.Step env work_num h .runs e h') : ¬ h.AtSocket := by
  rintro (rfl | ⟨bytes, next⟩)
  · cases step
  · cases step <;> cases next

/-- A thread elsewhere that does not search has a step of its own. -/
theorem Handler.Step.runs (env : Env) (work_num : Int) {h : Handler} (live : h.live = true)
    (apart : ¬ h.AtSocket) (moves : h.inWork = false) : ∃ e h', Handler.Step env work_num h .runs e h' := by
  obtain ⟨a, e, h', succeeds, silent, step⟩ :=
    Handler.Step.goes_on env work_num live (fun reading => apart (.inl reading)) moves
  cases a with
  | received m => cases silent
  | readFails | writeFails => cases succeeds
  | wrote bytes => exact absurd (.inr ⟨bytes, Handler.Step.writes_iff.mp ⟨e, h', step⟩⟩) apart
  | runs => exact ⟨e, h', step⟩

theorem runs_working_iff {env : Env} {work_num : Int} {fields : Fields} {buffer : Arr 256} :
    (∃ e h', Handler.Step env work_num (.working fields buffer) .runs e h') ↔
      ∃ fuel reply, (minedReply env fuel fields buffer).val = some reply := by
  constructor
  · intro taken
    obtain ⟨e, h', step⟩ := taken
    cases step with
    | mine fuel _ _ reply returned => exact ⟨fuel, reply, returned⟩
  · intro returns
    obtain ⟨fuel, reply, returned⟩ := returns
    exact ⟨_, _, .mine fuel fields buffer reply returned⟩

theorem Step.handler_iff {env : Env} {s : State} {i : Nat} {h : Handler} {a : Action} (alive : s.main ≠ .gone)
    (here : s.handlers[i]? = some h) :
    (∃ t, Step env s (.handler i a) t) ↔ ∃ e h', Handler.Step env s.work_num h a e h' := by
  constructor
  · intro taken
    obtain ⟨t, step⟩ := taken
    obtain ⟨g, e, h', -, there, moved, -⟩ := step.of_handler
    obtain rfl : g = h := by rw [here] at there; exact (Option.some.inj there).symm
    exact ⟨e, h', moved⟩
  · intro enabled
    obtain ⟨e, h', moved⟩ := enabled
    exact ⟨_, Step.handler s i h h' a e alive here moved⟩

theorem minedReply_iff {env : Env} {fields : Fields} {buffer : Arr 256}
    (admissible : (Handler.working fields buffer).Admissible env) :
    (¬ ∃ fuel reply, (minedReply env fuel fields buffer).val = some reply) ↔
      (Handler.working fields buffer).Endless env := by
  obtain ⟨rfl, len⟩ := admissible
  have long : 98 ≤ (text buffer).length := by omega
  have ends := admittedReply_returns_iff env long
  simp only [admittedReply_val env _ long] at ends
  rw [ends]
  refine ⟨fun endless => ⟨buffer, rfl, endless⟩, ?_⟩
  rintro ⟨other, same, endless⟩
  obtain ⟨-, rfl⟩ := Handler.working.inj same
  exact endless

theorem inWork_of_endless {env : Env} {h : Handler} (endless : h.Endless env) : h.inWork = true ∧ ¬ h.AtSocket := by
  obtain ⟨buffer, rfl, -⟩ := endless
  refine ⟨rfl, ?_⟩
  rintro (reading | ⟨bytes, next⟩)
  · cases reading
  · cases next

theorem runs_iff {env : Env} (work_num : Int) {h : Handler} (admissible : h.Admissible env) (live : h.live = true) :
    (¬ ∃ e h', Handler.Step env work_num h .runs e h') ↔ h.AtSocket ∨ h.Endless env := by
  cases inside : h.inWork with
  | false =>
    constructor
    · intro held
      left
      by_contra apart
      exact held (Handler.Step.runs env work_num live apart inside)
    · rintro (socket | endless) ⟨e, h', step⟩
      · exact step.not_atSocket socket
      · rw [(inWork_of_endless endless).1] at inside
        cases inside
  | true =>
    obtain ⟨fields, buffer, rfl⟩ : ∃ fields buffer, h = .working fields buffer := by
      cases h <;> first | exact ⟨_, _, rfl⟩ | cases inside
    rw [runs_working_iff, minedReply_iff admissible]
    exact ⟨.inr, fun either => either.resolve_left fun socket => by rcases socket with h | ⟨bytes, h⟩ <;> cases h⟩

/-- Where no read or write fails, a thread has no step to take only in an endless search. -/
theorem succeeds_iff {env : Env} (work_num : Int) {h : Handler} (admissible : h.Admissible env) (live : h.live = true) :
    (¬ ∃ a e h', a.fails = false ∧ Handler.Step env work_num h a e h') ↔ h.Endless env := by
  constructor
  · intro held
    refine ((runs_iff work_num admissible live).mp ?_).resolve_left ?_
    · rintro ⟨e, h', step⟩
      exact held ⟨_, e, h', rfl, step⟩
    · rintro (reading | ⟨bytes, next⟩)
      · obtain ⟨e, h', step⟩ := (Handler.Step.receives_iff (m := ping)).mpr reading
        exact held ⟨_, e, h', rfl, step⟩
      · obtain ⟨e, h', step⟩ := Handler.Step.writes_iff.mpr next
        exact held ⟨_, e, h', rfl, step⟩
  · rintro endless ⟨a, e, h', -, step⟩
    have held := (runs_iff work_num admissible live).mpr (.inr endless)
    have inside := (inWork_of_endless endless).1
    cases step with
    | mine fuel fields buffer reply returned => exact held ⟨_, _, .mine fuel fields buffer reply returned⟩
    | _ => cases inside

/-- The steps of others leave a thread where it is. -/
theorem stays_run {env : Env} {es : List Event} {s t : State} {i : Nat} {h : Handler}
    (run : Run (Step env) s es t) (here : s.handlers[i]? = some h) :
    actions i es = [] → t.handlers[i]? = some h := by
  refine run.history (P := fun es t => actions i es = [] → t.handlers[i]? = some h) (fun _ => here) ?_
  intro es t e u before step still
  rw [actions_snoc, List.append_eq_nil_iff] at still
  have stands := before still.1
  cases step with
  | spawn _ =>
    rw [List.getElem?_append_left (List.getElem?_eq_some_iff.mp stands).1]
    exact stands
  | handler j _ _ a effect _ _ _ =>
    have other : j ≠ i := by
      rintro rfl
      have moved := still.2
      simp [Event.of] at moved
    rw [List.getElem?_set_ne other]
    exact stands
  | _ => exact stands

/-- Where a thread that has not exited waits, for as long as only the others take steps: it goes
on by itself unless it is at its socket or in an endless search. At the socket it is in `read`,
and can be given every message, or in `write`, with these bytes. -/
theorem blocked_iff {env : Env} {n : Nat} {es fs : List Event} {s t : State} {i : Nat} {h : Handler}
    (run : Run (Step env) (start n) es s) (here : s.handlers[i]? = some h) (live : h.live = true)
    (later : Run (Step env) s fs t) (still : actions i fs = []) (alive : t.main ≠ .gone) :
    ((¬ ∃ u, Step env t (.handler i .runs) u) ↔ h.AtSocket ∨ h.Endless env) ∧
    (∀ m, (∃ u, Step env t (.handler i (.received m)) u) ↔ h = .reading) ∧
    (∀ bytes, (∃ u, Step env t (.handler i (.wrote bytes)) u) ↔ h.toWrite = some bytes) ∧
    ((¬ ∃ a u, a.fails = false ∧ Step env t (.handler i a) u) ↔ h.Endless env) := by
  have admissible := admissible_run run h (List.mem_of_getElem? here)
  have stands := stays_run later here still
  have taken (a : Action) : (∃ u, Step env t (.handler i a) u) ↔ ∃ e h', Handler.Step env t.work_num h a e h' :=
    Step.handler_iff alive stands
  refine ⟨?_, fun m => ?_, fun bytes => ?_, ?_⟩
  · rw [taken, runs_iff t.work_num admissible live]
  · rw [taken, Handler.Step.receives_iff]
  · rw [taken, Handler.Step.writes_iff]
  · simp only [exists_and_left, taken]
    rw [← succeeds_iff t.work_num admissible live]
    simp only [exists_and_left]

/-- The thread that mines the sample request goes on by itself. A thread that reads does not. -/
theorem blocked_iff_sample : (∃ u, Step sampleEnv mining (.handler 0 .runs) u) ∧
    (¬ ∃ u, Step sampleEnv (start 1) (.handler 0 .runs) u) ∧
    ∀ m, ∃ u, Step sampleEnv (start 1) (.handler 0 (.received m)) u := by
  obtain ⟨es, run⟩ := mining_reachable
  have solvable := solvable_sampleWork
  have waits := blocked_iff (@Run.nil _ _ (Step sampleEnv) (start 1)) (show (start 1).handlers[0]? = some _ from rfl)
    rfl Run.nil rfl nofun
  refine ⟨?_, waits.1.mpr (.inl (.inl rfl)), fun m => (waits.2.1 m).mpr rfl⟩
  by_contra blocked
  rcases (blocked_iff run rfl rfl Run.nil rfl nofun).1.mp blocked with socket | endless
  · rcases socket with reading | ⟨bytes, next⟩
    · cases reading
    · cases next
  · obtain ⟨buffer, same, endless⟩ := endless
    obtain ⟨-, rfl⟩ := Handler.working.inj same
    exact endless solvable

end WorkServer

import WorkServer.Handler.Verdict
import WorkServer.Threads

/-!
# The work slots

`work_num` counts the threads between the increment at the head of the WORK branch and
its matching decrement. The flag path would break this, and so would the queue thread; a
message of the right length is never flagged, and the queue is always empty.
-/

namespace WorkServer
open Tracing CString Runs

/-- Past `work_num++` and not yet past the matching `work_num--`. -/
def Handler.holds : Handler → Bool
  | .testing _ | .refusing _ | .refused _ | .flagged _ | .flagFailed | .working _ _ | .worked _ => true
  | _ => false

/-- Past the test of `work_num`, and the slot not yet given back. -/
def Handler.admitted : Handler → Bool
  | .working _ _ | .worked _ => true
  | _ => false

def Handler.inWork : Handler → Bool
  | .working _ _ => true
  | _ => false

def Handler.onFlagPath : Handler → Bool
  | .flagged _ | .flagFailed => true
  | _ => false

@[simp] theorem holds_reading : Handler.reading.holds = false := rfl

@[simp] theorem admitted_reading : Handler.reading.admitted = false := rfl

theorem admitted_of_inWork {h : Handler} (inside : h.inWork = true) : h.admitted = true := by
  cases h <;> first | rfl | cases inside

theorem holds_of_admitted {h : Handler} (past : h.admitted = true) : h.holds = true := by
  cases h <;> first | rfl | cases past

/-! ### One step of a thread -/

theorem afterRead_val (env : Env) (firstFour : Arr 5) (m : Message) : afterRead env firstFour m = .hungUp ∨
    (∃ bytes, afterRead env firstFour m = .answering bytes) ∨
      afterRead env firstFour m = .counting m.buffer := by
  unfold afterRead
  split
  · exact Or.inl rfl
  · split
    · exact Or.inr (Or.inl ⟨_, rfl⟩)
    · exact Or.inr (Or.inr rfl)

theorem afterTest_val (env : Env) (work_num : Int) (buffer : Arr 256) : afterTest env work_num buffer =
    if MAX_WORK ≤ work_num ∨ (text buffer).length ≠ 100 then .refusing buffer
    else .working (copyFields env buffer).val buffer := by
  unfold afterTest
  by_cases refused : MAX_WORK ≤ work_num ∨ (text buffer).length ≠ 100
  · rw [if_pos ((refuses_val work_num buffer).mpr refused), if_pos refused]
  · rw [if_neg (fun refuses => refused ((refuses_val work_num buffer).mp refuses)), if_neg refused,
      workFields_val env buffer (by omega)]

/-- What a step does to the thread's slot. Only the test admits, and only below the limit. -/
theorem Handler.Step.slot {env : Env} {work_num : Int} {h h' : Handler} {a : Action} {e : Effect}
    (step : Handler.Step env work_num h a e h') (sound : h.onFlagPath = false) :
    h'.onFlagPath = false ∧ (h'.holds.toNat : Int) = h.holds.toNat + e.work_num ∧
      (h'.admitted = true → h.admitted = true ∨ h.holds = true ∧ h.admitted = false ∧
        work_num < MAX_WORK) := by
  cases step with
  | receive firstFour m =>
    rcases afterRead_val env firstFour m with same | ⟨bytes, same⟩ | same <;> rw [same] <;>
      exact ⟨rfl, rfl, fun past => absurd past Bool.false_ne_true⟩
  | test buffer =>
    rw [afterTest_val]
    split
    · exact ⟨rfl, rfl, fun past => absurd past Bool.false_ne_true⟩
    · exact ⟨rfl, rfl, fun _ => Or.inr ⟨rfl, rfl, by omega⟩⟩
  | release failed =>
    cases failed <;> exact ⟨rfl, rfl, fun past => absurd past Bool.false_ne_true⟩
  | mine fuel fields buffer bytes returned => exact ⟨rfl, rfl, fun _ => Or.inl rfl⟩
  | flag buffer => cases sound
  | flagFails buffer => cases sound
  | flagRelease => cases sound
  | _ => exact ⟨rfl, rfl, fun past => absurd past Bool.false_ne_true⟩

/-! ### Every run -/

structure SlotInvariant (s : State) : Prop where
  queue : s.queue = []
  worker : s.worker = .polling
  sound : ∀ h ∈ s.handlers, h.onFlagPath = false
  count : s.work_num = s.handlers.countP Handler.holds
  bound : (s.handlers.countP Handler.admitted : Int) < MAX_WORK

theorem slotInvariant_start (n : Nat) : SlotInvariant (start n) where
  queue := rfl
  worker := rfl
  sound h hh := by rw [List.eq_of_mem_replicate hh]; rfl
  count := by simp [start, List.countP_replicate]
  bound := by simp [start, List.countP_replicate, MAX_WORK]

theorem slotInvariant_step {env : Env} {s s' : State} {e : Event} (inv : SlotInvariant s)
    (step : Step env s e s') : SlotInvariant s' := by
  obtain ⟨queue, worker, sound, count, bound⟩ := inv
  cases step with
  | accept ok _ => exact ⟨queue, worker, sound, count, bound⟩
  | count ok _ => exact ⟨queue, worker, sound, count, bound⟩
  | test _ => exact ⟨queue, worker, sound, count, bound⟩
  | undo _ => exact ⟨queue, worker, sound, count, bound⟩
  | spawnFails _ => exact ⟨queue, worker, sound, count, bound⟩
  | spawn _ =>
    refine ⟨queue, worker, fun h hh => ?_, ?_, ?_⟩
    · rcases List.mem_append.mp hh with old | new
      · exact sound h old
      · rw [List.mem_singleton.mp new]
        rfl
    · simpa using count
    · simpa using bound
  | handler i h h' a effect _ here moved =>
    obtain ⟨sound', slot, admits⟩ := moved.slot (sound h (List.mem_of_getElem? here))
    have holders := countP_move (b := h') Handler.holds here
    have admitted := countP_move (b := h') Handler.admitted here
    refine ⟨queue, worker, forall_mem_move sound sound', ?_, ?_⟩
    · simp only [count]
      omega
    · change ((s.handlers.set i h').countP Handler.admitted : Int) < MAX_WORK
      cases past : h'.admitted with
      | false =>
        rw [past, Bool.toNat_false] at admitted
        omega
      | true =>
        rcases admits past with before | ⟨held, fresh, free⟩
        · rw [past, before] at admitted
          omega
        · -- The thread held a slot without being admitted, so the count exceeds the admitted.
          have others : (s.handlers.eraseIdx i).countP Handler.admitted ≤
              (s.handlers.eraseIdx i).countP Handler.holds :=
            List.countP_mono_left fun h _ => holds_of_admitted
          have split := countP_others Handler.holds here
          have split' := countP_others Handler.admitted here
          rw [held, Bool.toNat_true] at split
          rw [past, fresh, Bool.toNat_false, Bool.toNat_true] at admitted
          rw [fresh, Bool.toNat_false] at split'
          omega
  | take job rest _ _ filled => rw [queue] at filled; cases filled
  | solve job fuel buffer left seed _ busy _ => rw [worker] at busy; cases busy
  | pop buffer _ busy => rw [worker] at busy; cases busy
  | release buffer _ busy => rw [worker] at busy; cases busy
  | write buffer _ busy => rw [worker] at busy; cases busy

theorem slotInvariant_run {env : Env} {n : Nat} {es : List Event} {s : State}
    (run : Run (Step env) (start n) es s) : SlotInvariant s :=
  run.invariant (slotInvariant_start n) fun _ _ _ => slotInvariant_step

/-! ### A crowd of malformed requests -/

theorem arrive (env : Env) {s : State} {i : Nat} {m : Message} (alive : s.main ≠ .gone)
    (here : s.handlers[i]? = some .reading) (work : ascii "WORK" <+: m.text) :
    ∃ es, Run (Step env) s es
      { s with work_num := s.work_num + 1, handlers := s.handlers.set i (.testing m.buffer) } := by
  have inside : i < s.handlers.length := (List.getElem?_eq_some_iff.mp here).1
  have begun : entry m.buffer 0 ≠ 0 := by
    have four : 4 ≤ m.text.length := work.length_le
    exact entry_ne_zero m.buffer (by rw [text_buffer]; omega)
  have counting : afterRead env (Vector.replicate 5 0) m = .counting m.buffer := by
    have zero : entry (Vector.replicate 5 (0 : BYTE)) 4 = 0 := by decide
    unfold afterRead
    rw [if_neg begun, dispatch_val, text_buffer, zero, classify_eq_work.mpr ⟨rfl, work⟩]
  have received : Step env s (.handler i (.received m))
      { s with handlers := s.handlers.set i (.counting m.buffer) } := by
    have moved := @Handler.Step.receive env s.work_num (Vector.replicate 5 0) m
    rw [counting] at moved
    simpa using Step.handler s i _ _ _ _ alive here moved
  have counted : Step env { s with handlers := s.handlers.set i (.counting m.buffer) } (.handler i .runs)
      { s with work_num := s.work_num + 1, handlers := s.handlers.set i (.testing m.buffer) } := by
    simpa using Step.handler { s with handlers := s.handlers.set i (.counting m.buffer) } i _ _ _ _ alive
      (List.getElem?_set_self inside) (.count m.buffer)
  exact ⟨_, Run.snoc (Run.single received) counted⟩

theorem refuse (env : Env) {s : State} {i : Nat} {buffer : Arr 256} (alive : s.main ≠ .gone)
    (here : s.handlers[i]? = some (.testing buffer)) (full : MAX_WORK ≤ s.work_num) :
    Step env s (.handler i .runs) { s with handlers := s.handlers.set i (.refusing buffer) } := by
  have moved := @Handler.Step.test env s.work_num buffer
  rw [afterTest_val, if_pos (Or.inl full)] at moved
  simpa using Step.handler s i _ _ _ _ alive here moved

/-- `start n` after its first `k` threads have received and counted the message. -/
def crowded (n k : Nat) (m : Message) : State where
  client_num := n
  work_num := k
  main := .accepting
  handlers := List.replicate k (.testing m.buffer) ++ List.replicate (n - k) .reading
  queue := []
  worker := .polling

theorem crowd (env : Env) {n : Nat} {m : Message} (work : ascii "WORK" <+: m.text) (k : Nat)
    (enough : k ≤ n) : ∃ es, Run (Step env) (start n) es (crowded n k m) := by
  induction k with
  | zero => exact ⟨[], Run.nil⟩
  | succ k ih =>
    obtain ⟨es, run⟩ := ih (by omega)
    have rest : List.replicate (n - k) Handler.reading =
        .reading :: List.replicate (n - (k + 1)) .reading := by
      rw [show n - k = n - (k + 1) + 1 by omega, List.replicate_succ]
    have here : (crowded n k m).handlers[k]? = some .reading := by
      unfold crowded
      simp only [rest]
      rw [List.getElem?_append_right (by simp), List.length_replicate, Nat.sub_self]
      rfl
    obtain ⟨fs, last⟩ := arrive env (show (crowded n k m).main ≠ .gone from nofun) here work
    refine ⟨es ++ fs, run.append ?_⟩
    have moved : (crowded n k m).handlers.set k (.testing m.buffer) =
        List.replicate (k + 1) (.testing m.buffer) ++ List.replicate (n - (k + 1)) .reading := by
      unfold crowded
      simp only [rest]
      rw [List.set_append_right _ _ (by simp), List.length_replicate, Nat.sub_self, List.set_cons_zero,
        List.replicate_succ', List.append_assoc]
      rfl
    rw [moved] at last
    exact last

def junk : Message where
  bytes := ascii "WORK\r\n"
  fits := by decide

/-! ### The count -/

/-- `work_num` is the number of slots held, and fewer than `MAX_WORK` threads are inside `work`. -/
theorem work_num_counts {env : Env} {n : Nat} {es : List Event} {s : State}
    (run : Run (Step env) (start n) es s) :
    s.work_num = s.handlers.countP Handler.holds ∧
      (s.handlers.countP Handler.inWork : Int) ≤ MAX_WORK - 1 := by
  have inv := slotInvariant_run run
  have inside : s.handlers.countP Handler.inWork ≤ s.handlers.countP Handler.admitted :=
    List.countP_mono_left fun h _ => admitted_of_inWork
  have bound := inv.bound
  exact ⟨inv.count, by omega⟩

theorem work_num_counts_sample : ∃ es s, Run (Step sampleEnv) (start 12) es s ∧
    s.work_num = 11 ∧ s.handlers.countP Handler.holds = 11 := by
  obtain ⟨es, run⟩ := @crowd sampleEnv 12 junk (by decide) 11 (by omega)
  have count : ((11 : Nat) : Int) = _ := (work_num_counts run).1
  exact ⟨es, _, run, rfl, by exact_mod_cast count.symm⟩

/-! ### Admission -/

theorem Step.of_handler {env : Env} {s s' : State} {i : Nat} {a : Action}
    (step : Step env s (.handler i a) s') :
    ∃ h e h', s.main ≠ .gone ∧ s.handlers[i]? = some h ∧ Handler.Step env s.work_num h a e h' ∧
      s' = { s with
        client_num := s.client_num + e.client_num
        work_num := s.work_num + e.work_num
        handlers := s.handlers.set i h' } := by
  cases step with
  | handler _ h h' _ effect alive here moved => exact ⟨h, effect, h', alive, here, moved, rfl⟩

/-- A thread that tests a message of the right length goes to `work`, or is refused exactly
when the other threads hold at least `MAX_WORK - 1` slots. -/
theorem refused_iff_slots_held {env : Env} {n : Nat} {es : List Event} {s s' : State} {i : Nat} {a : Action}
    {buffer : Arr 256} (run : Run (Step env) (start n) es s) (here : s.handlers[i]? = some (.testing buffer))
    (len : (text buffer).length = 100) (step : Step env s (.handler i a) s') :
    (s'.handlers[i]? = some (.refusing buffer) ∧
      MAX_WORK - 1 ≤ ((s.handlers.eraseIdx i).countP Handler.holds : Int)) ∨
    (s'.handlers[i]? = some (.working (copyFields env buffer).val buffer) ∧
      ((s.handlers.eraseIdx i).countP Handler.holds : Int) < MAX_WORK - 1) := by
  obtain ⟨h, e, h', -, tested, moved, rfl⟩ := step.of_handler
  obtain rfl : h = .testing buffer := by rw [here] at tested; exact (Option.some.inj tested).symm
  have count := (slotInvariant_run run).count
  have others := countP_others Handler.holds here
  have one : (Handler.testing buffer).holds.toNat = 1 := rfl
  have inside : i < s.handlers.length := (List.getElem?_eq_some_iff.mp here).1
  cases moved with
  | test _ =>
    rw [afterTest_val]
    by_cases full : MAX_WORK ≤ s.work_num
    · rw [if_pos (Or.inl full)]
      exact Or.inl ⟨List.getElem?_set_self inside, by omega⟩
    · rw [if_neg (by omega)]
      exact Or.inr ⟨List.getElem?_set_self inside, by omega⟩

def squeezed : State where
  client_num := 12
  work_num := 12
  main := .accepting
  handlers := (crowded 12 11 junk).handlers.set 11 (.testing sampleWork.buffer)
  queue := []
  worker := .polling

theorem squeezed_here : squeezed.handlers[11]? = some (.testing sampleWork.buffer) :=
  List.getElem?_set_self (show 11 < (crowded 12 11 junk).handlers.length by decide)

theorem squeezed_reachable : ∃ es, Run (Step sampleEnv) (start 12) es squeezed := by
  obtain ⟨es, run⟩ := @crowd sampleEnv 12 junk (by decide) 11 (by omega)
  obtain ⟨fs, last⟩ := @arrive sampleEnv (crowded 12 11 junk) 11 sampleWork nofun rfl (by decide)
  exact ⟨es ++ fs, run.append last⟩

theorem squeezed_refuses : Step sampleEnv squeezed (.handler 11 .runs)
    { squeezed with handlers := squeezed.handlers.set 11 (.refusing sampleWork.buffer) } :=
  refuse sampleEnv nofun squeezed_here (by decide)

theorem refused_iff_slots_held_sample : ∃ s', Step sampleEnv squeezed (.handler 11 .runs) s' ∧
    s'.handlers[11]? = some (.refusing sampleWork.buffer) ∧
    MAX_WORK - 1 ≤ ((squeezed.handlers.eraseIdx 11).countP Handler.holds : Int) := by
  obtain ⟨es, run⟩ := squeezed_reachable
  rcases refused_iff_slots_held run squeezed_here length_sampleWork squeezed_refuses with full | ⟨-, free⟩
  · exact ⟨_, squeezed_refuses, full⟩
  · exact absurd free (by decide)

/-- The good message is refused although no thread is admitted. -/
theorem crowded_out : ¬ ∀ (env : Env) (n : Nat) (es : List Event) (s s' : State) (i : Nat) (a : Action)
    (buffer : Arr 256), Run (Step env) (start n) es s → s.handlers[i]? = some (.testing buffer) →
    (text buffer).length = 100 → Step env s (.handler i a) s' → s'.handlers[i]? = some (.refusing buffer) →
    MAX_WORK - 1 ≤ ((s.handlers.eraseIdx i).countP Handler.admitted : Int) := by
  intro claimed
  obtain ⟨es, run⟩ := squeezed_reachable
  have bound := claimed sampleEnv 12 es squeezed _ 11 .runs sampleWork.buffer run squeezed_here
    length_sampleWork squeezed_refuses (List.getElem?_set_self (show 11 < squeezed.handlers.length by decide))
  exact absurd bound (by decide)

end WorkServer

import WorkServer.Threads.Liveness

/-!
# Places and slots

A connection gets a thread only while fewer than `MAX_CLIENTS - 1` threads are counted, and
a thread whose `read` or `write` failed is counted for good. So the server has
`MAX_CLIENTS - 1` places, each failure takes one of them away, and once they are all gone
every client is turned away. In the same way each search for a nonce that does not exist
takes one of the `MAX_WORK - 1` slots of `work`, and once they are all gone every WORK
message is refused.
-/

namespace WorkServer
open Tracing CString Runs

/-- The socket of the thread is open. -/
def Handler.served : Handler → Bool
  | .hungUp | .departed | .exited | .flagFailed | .failing | .aborted => false
  | _ => true

/-! ### One step -/

theorem counted_of_place (h : Handler) : h.served.toNat + h.hasAborted.toNat ≤ h.counted.toNat := by
  cases h <;> first | exact Nat.le_refl _ | exact Nat.zero_le _

theorem countP_places_le (pool : List Handler) :
    pool.countP Handler.served + pool.countP Handler.hasAborted ≤ pool.countP Handler.counted :=
  countP_add_le fun h _ => counted_of_place h

theorem Handler.Step.counted_le {env : Env} {work_num : Int} {h h' : Handler} {a : Action} {e : Effect}
    (step : Handler.Step env work_num h a e h') : h'.counted.toNat ≤ h.counted.toNat := by
  have client := step.client.1
  have given : e.client_num ≤ 0 := by
    cases step <;> decide
  omega

theorem Handler.Step.not_aborted {env : Env} {work_num : Int} {h h' : Handler} {a : Action} {e : Effect}
    (step : Handler.Step env work_num h a e h') : h.hasAborted = false := by
  cases step <;> rfl

/-! ### Every run -/

/-- The counted threads leave room for one more wherever `main` is about to create it. -/
structure PlaceInvariant (n : Nat) (s : State) : Prop where
  room : s.main = .spawning → (s.handlers.countP Handler.counted : Int) + 1 < MAX_CLIENTS
  bound : (s.handlers.countP Handler.counted : Int) ≤ max (n : Int) (MAX_CLIENTS - 1)

theorem placeInvariant_start (n : Nat) : PlaceInvariant n (start n) where
  room := nofun
  bound := by
    have all : (start n).handlers.countP Handler.counted = n := by
      simp [start, List.countP_replicate, Handler.counted]
    rw [all]
    exact le_max_left _ _

theorem placeInvariant_step {env : Env} {n : Nat} {s s' : State} {e : Event} (inv : PlaceInvariant n s)
    (count : s.client_num = s.main.pending + s.handlers.countP Handler.counted) (step : Step env s e s') :
    PlaceInvariant n s' := by
  obtain ⟨room, bound⟩ := inv
  cases step with
  | accept ok _ => exact ⟨fun spawning => (by cases spawning), bound⟩
  | count ok _ => cases ok <;> exact ⟨fun spawning => (by cases spawning), bound⟩
  | test here =>
    refine ⟨fun spawning => ?_, bound⟩
    have free : ¬ s.client_num ≥ MAX_CLIENTS := by
      intro full
      rw [if_pos full] at spawning
      cases spawning
    have one : Acceptor.testing.pending = 1 := rfl
    rw [count, here, one] at free
    change (s.handlers.countP Handler.counted : Int) + 1 < MAX_CLIENTS
    omega
  | undo _ => exact ⟨fun spawning => (by cases spawning), bound⟩
  | spawn here =>
    have free := room here
    have one : (s.handlers ++ [Handler.reading]).countP Handler.counted =
        s.handlers.countP Handler.counted + 1 := by
      simp [Handler.counted]
    refine ⟨fun spawning => (by cases spawning), ?_⟩
    simp only [one]
    omega
  | spawnFails _ => exact ⟨fun spawning => (by cases spawning), bound⟩
  | handler i h h' a effect _ here moved =>
    have counts := countP_move (b := h') Handler.counted here
    have fewer := moved.counted_le
    constructor
    · intro spawning
      have free := room spawning
      simp only
      omega
    · simp only
      omega
  | _ => exact ⟨room, bound⟩

theorem placeInvariant_run {env : Env} {n : Nat} {es : List Event} {s : State}
    (run : Run (Step env) (start n) es s) : PlaceInvariant n s := by
  refine (run.history (P := fun es s => ClientInvariant es s ∧ PlaceInvariant n s) ?_ ?_).2
  · exact ⟨clientInvariant_start n, placeInvariant_start n⟩
  · intro es t e u inv step
    obtain ⟨clients, places⟩ := inv
    exact ⟨clientInvariant_step clients step, placeInvariant_step places clients.count step⟩

/-! ### Every place can be taken, or lost -/

theorem connect (env : Env) {s : State} (waiting : s.main = .accepting)
    (free : s.client_num + 1 < MAX_CLIENTS) : ∃ es, Run (Step env) s es
      { s with client_num := s.client_num + 1, handlers := s.handlers ++ [.reading] } := by
  have accepted := Run.single (@Step.accept env s true waiting)
  have counted := accepted.snoc (Step.count _ true rfl)
  have tested := counted.snoc (Step.test _ rfl)
  simp only [if_neg (show ¬ s.client_num + 1 ≥ MAX_CLIENTS by omega)] at tested
  have spawned := tested.snoc (Step.spawn _ rfl)
  rw [← waiting] at spawned
  exact ⟨_, spawned⟩

theorem lose (env : Env) {s : State} (pool : List Handler) (alive : s.main ≠ .gone)
    (last : s.handlers = pool ++ [.reading]) :
    ∃ es, Run (Step env) s es { s with handlers := pool ++ [.aborted] } := by
  have moves : ∀ h h' : Handler, (pool ++ [h]).set pool.length h' = pool ++ [h'] := by
    intro h h'
    rw [List.set_append_right _ _ (Nat.le_refl _), Nat.sub_self, List.set_cons_zero]
  have failed : Step env s (.handler pool.length .readFails) { s with handlers := pool ++ [.failing] } := by
    have step := Step.handler s pool.length _ _ _ _ alive (by rw [last]; simp)
      (@Handler.Step.readFails env s.work_num)
    rw [last, moves] at step
    simpa using step
  have aborted : Step env { s with handlers := pool ++ [.failing] } (.handler pool.length .runs)
      { s with handlers := pool ++ [.aborted] } := by
    have step := Step.handler { s with handlers := pool ++ [.failing] } pool.length _ _ _ _ alive (by simp)
      (@Handler.Step.abort env s.work_num)
    simpa [moves] using step
  exact ⟨_, (Run.single failed).snoc aborted⟩

/-- `lost` failures have taken their places, and `served` clients are connected. -/
def seated (lost served : Nat) : State where
  client_num := lost + served
  work_num := 0
  main := .accepting
  handlers := List.replicate lost .aborted ++ List.replicate served .reading
  queue := []
  worker := .polling

theorem seated_counts (lost served : Nat) : (seated lost served).handlers.countP Handler.served = served ∧
    (seated lost served).handlers.countP Handler.hasAborted = lost ∧
    (seated lost served).handlers.length = lost + served := by
  simp [seated, List.countP_replicate, Handler.served, Handler.hasAborted]

theorem seated_connect (env : Env) (lost served : Nat) (free : (lost + served + 1 : Int) < MAX_CLIENTS) :
    ∃ es, Run (Step env) (seated lost served) es (seated lost (served + 1)) := by
  obtain ⟨es, run⟩ := connect env (show (seated lost served).main = .accepting from rfl) free
  refine ⟨es, ?_⟩
  convert run using 1
  simp [seated, List.replicate_succ', Int.add_assoc]

theorem seated_lose (env : Env) (lost : Nat) :
    ∃ es, Run (Step env) (seated lost 1) es (seated (lost + 1) 0) := by
  obtain ⟨es, run⟩ := lose env (List.replicate lost .aborted)
    (show (seated lost 1).main ≠ .gone from nofun) rfl
  refine ⟨es, ?_⟩
  convert run using 1
  simp [seated, List.replicate_succ']

theorem seated_run (env : Env) (lost served : Nat) (room : (lost + served : Int) ≤ MAX_CLIENTS - 1) :
    ∃ es, Run (Step env) (start 0) es (seated lost served) := by
  induction served with
  | zero =>
    induction lost with
    | zero => exact ⟨[], Run.nil⟩
    | succ lost ih =>
      obtain ⟨es, before⟩ := ih (by push_cast at room ⊢; omega)
      obtain ⟨fs, connected⟩ := seated_connect env lost 0 (by push_cast at room ⊢; omega)
      obtain ⟨gs, failed⟩ := seated_lose env lost
      exact ⟨_, (before.append connected).append failed⟩
  | succ served ih =>
    obtain ⟨es, before⟩ := ih (by push_cast at room ⊢; omega)
    obtain ⟨fs, connected⟩ := seated_connect env lost served (by push_cast at room ⊢; omega)
    exact ⟨_, before.append connected⟩

/-- The clients served and the clients lost to a failure share `MAX_CLIENTS - 1` places, in
every proportion and never more. -/
theorem places_iff (env : Env) (served lost : Nat) :
    (∃ es s, Run (Step env) (start 0) es s ∧ s.handlers.countP Handler.served = served ∧
      s.handlers.countP Handler.hasAborted = lost) ↔ (served + lost : Int) ≤ MAX_CLIENTS - 1 := by
  constructor
  · intro reached
    obtain ⟨es, s, run, rfl, rfl⟩ := reached
    have bound := (placeInvariant_run run).bound
    have taken := countP_places_le s.handlers
    have some_place : (0 : Int) ≤ MAX_CLIENTS - 1 := by decide
    rw [Nat.cast_zero, max_eq_right some_place] at bound
    omega
  · intro room
    obtain ⟨es, run⟩ := seated_run env lost served (by omega)
    obtain ⟨connected, failed, -⟩ := seated_counts lost served
    exact ⟨es, _, run, connected, failed⟩

/-- After `MAX_CLIENTS - 1` failures the server never creates a thread again. -/
theorem closed_for_good {env : Env} {n : Nat} {es fs : List Event} {s t : State}
    (run : Run (Step env) (start n) es s) (lost : MAX_CLIENTS - 1 ≤ (s.handlers.countP Handler.hasAborted : Int))
    (rest : Run (Step env) s fs t) : t.main ≠ .spawning ∧ t.handlers.length = s.handlers.length := by
  have shut : ∀ {es u}, Run (Step env) (start n) es u →
      MAX_CLIENTS - 1 ≤ (u.handlers.countP Handler.hasAborted : Int) → u.main ≠ .spawning := by
    intro es u run lost spawning
    have room := (placeInvariant_run run).room spawning
    have taken := countP_places_le u.handlers
    omega
  obtain ⟨⟨gs, whole⟩, lost', same⟩ := rest.invariant
    (P := fun u => (∃ es, Run (Step env) (start n) es u) ∧
      MAX_CLIENTS - 1 ≤ (u.handlers.countP Handler.hasAborted : Int) ∧ u.handlers.length = s.handlers.length)
    ⟨⟨es, run⟩, lost, rfl⟩ (by
      intro u e v inv step
      obtain ⟨⟨gs, run⟩, lost, same⟩ := inv
      refine ⟨⟨_, run.snoc step⟩, ?_⟩
      cases step with
      | spawn spawning => exact absurd spawning (shut run lost)
      | handler i h h' a effect _ here moved =>
        have counts := countP_move (b := h') Handler.hasAborted here
        rw [moved.not_aborted] at counts
        refine ⟨?_, by rw [List.length_set, same]⟩
        simp only [Bool.toNat_false] at counts ⊢
        omega
      | _ => exact ⟨lost, same⟩)
  exact ⟨shut whole lost', same⟩

theorem closed_for_good_sample : ∃ es s, Run (Step sampleEnv) (start 0) es s ∧
    ∀ fs t, Run (Step sampleEnv) s fs t → t.main ≠ .spawning ∧ t.handlers.length = 109 := by
  obtain ⟨es, run⟩ := seated_run sampleEnv 109 0 (by decide)
  refine ⟨es, _, run, fun fs t rest => ?_⟩
  obtain ⟨-, lost, threads⟩ := seated_counts 109 0
  rw [← show (seated 109 0).handlers.length = 109 from threads]
  exact closed_for_good run (by rw [lost]; decide) rest

/-! ### Every slot can be lost -/

theorem endless_stays {env : Env} {n : Nat} {es fs : List Event} {s t : State} {i : Nat} {h : Handler}
    (run : Run (Step env) (start n) es s) (here : s.handlers[i]? = some h) (endless : h.Endless env)
    (rest : Run (Step env) s fs t) : t.handlers[i]? = some h := by
  have admissible := admissible_run run h (List.mem_of_getElem? here)
  have same := endless
  obtain ⟨buffer, rfl, -⟩ := same
  have none_returns := (minedReply_iff admissible).mpr endless
  refine (stuck_run here (fun fuel => ?_) rest).1
  rcases Option.eq_none_or_eq_some (minedReply env fuel (copyFields env buffer).val buffer).val with
    searches | ⟨reply, returned⟩
  · exact searches
  · exact absurd ⟨fuel, reply, returned⟩ none_returns

theorem admitted_of_endless {env : Env} {h : Handler} (endless : h.Endless env) : h.admitted = true := by
  obtain ⟨buffer, rfl, -⟩ := endless
  rfl

/-- With `MAX_WORK - 1` endless searches no other thread is ever admitted to `work` again, and
every WORK message is refused. -/
theorem work_closed_for_good {env : Env} {n : Nat} {es fs : List Event} {s t : State} {stuck : List Nat}
    (run : Run (Step env) (start n) es s) (distinct : stuck.Nodup)
    (endless : ∀ i ∈ stuck, ∃ h, s.handlers[i]? = some h ∧ h.Endless env)
    (all : MAX_WORK - 1 ≤ (stuck.length : Int)) (rest : Run (Step env) s fs t) :
    (∀ j h, t.handlers[j]? = some h → h.admitted = true → j ∈ stuck) ∧
      ∀ j buffer a u, t.handlers[j]? = some (.testing buffer) → Step env t (.handler j a) u →
        u.handlers[j]? = some (.refusing buffer) := by
  have alone : ∀ {gs u}, Run (Step env) s gs u →
      ∀ j h, u.handlers[j]? = some h → h.admitted = true → j ∈ stuck := by
    intro gs u later j h here admitted
    by_contra other
    -- One admitted thread more than the slots.
    have bound := (slotInvariant_run (run.append later)).bound
    have crowd : (j :: stuck).length ≤ u.handlers.countP Handler.admitted := by
      apply length_le_countP _ (List.nodup_cons.mpr ⟨other, distinct⟩)
      intro i hi
      rcases List.mem_cons.mp hi with rfl | hi
      · exact ⟨h, here, admitted⟩
      · obtain ⟨g, there, endless⟩ := endless i hi
        exact ⟨g, endless_stays run there endless later, admitted_of_endless endless⟩
    rw [List.length_cons] at crowd
    omega
  refine ⟨alone rest, fun j buffer a u here step => ?_⟩
  obtain ⟨h, e, h', -, tested, moved, rfl⟩ := step.of_handler
  obtain rfl : h = .testing buffer := by rw [here] at tested; exact (Option.some.inj tested).symm
  have inside : j < t.handlers.length := (List.getElem?_eq_some_iff.mp here).1
  cases moved with
  | test _ =>
    have after := @List.getElem?_set_self _ _ _ (afterTest env t.work_num buffer) inside
    have shape := afterTest_val env t.work_num buffer
    split at shape
    · exact after.trans (congrArg some shape)
    · obtain ⟨g, there, endless⟩ := endless j (alone (rest.snoc step) j _ after (by rw [shape]; rfl))
      have still := endless_stays run there endless rest
      rw [here] at still
      obtain rfl := Option.some.inj still
      exact absurd (admitted_of_endless endless) Bool.false_ne_true

theorem enter (env : Env) {s : State} {i : Nat} {m : Message} (alive : s.main ≠ .gone)
    (here : s.handlers[i]? = some .reading) (word : ascii "WORK" <+: m.text) (len : m.text.length = 100)
    (free : s.work_num + 1 < MAX_WORK) : ∃ es, Run (Step env) s es
      { s with
        work_num := s.work_num + 1
        handlers := s.handlers.set i (.working (copyFields env m.buffer).val m.buffer) } := by
  have inside : i < s.handlers.length := (List.getElem?_eq_some_iff.mp here).1
  obtain ⟨es, run⟩ := arrive env alive here word
  have moved := @Handler.Step.test env (s.work_num + 1) m.buffer
  rw [afterTest_val, if_neg (by rw [text_buffer]; omega)] at moved
  have tested := Step.handler
    { s with work_num := s.work_num + 1, handlers := s.handlers.set i (.testing m.buffer) } i _ _ _ _ alive
    (List.getElem?_set_self inside) moved
  exact ⟨es ++ [.handler i .runs], run.snoc (by simpa using tested)⟩

def besieger : Handler := .working (copyFields sampleEnv zeroWork.buffer).val zeroWork.buffer

/-- `start n` after its first `k` threads have begun to search under a target of zero. -/
def besieged (n k : Nat) : State where
  client_num := n
  work_num := k
  main := .accepting
  handlers := List.replicate k besieger ++ List.replicate (n - k) .reading
  queue := []
  worker := .polling

theorem besieger_endless : besieger.Endless sampleEnv := by
  refine ⟨zeroWork.buffer, rfl, ?_⟩
  rw [text_buffer, show targetField sampleEnv zeroWork.text = 0 by decide +kernel]
  exact not_solvable_zero _ _

theorem besieged_here {n k i : Nat} (inside : i < k) : (besieged n k).handlers[i]? = some besieger := by
  unfold besieged
  rw [List.getElem?_append_left (by simpa using inside), List.getElem?_replicate, if_pos inside]

theorem siege {n : Nat} (k : Nat) (enough : k ≤ n) (free : (k : Int) < MAX_WORK) :
    ∃ es, Run (Step sampleEnv) (start n) es (besieged n k) := by
  obtain ⟨plain, word, len⟩ := zeroWork_grammar.shape
  rw [← text_of_literal plain] at word len
  induction k with
  | zero => exact ⟨[], Run.nil⟩
  | succ k ih =>
    rw [Nat.cast_add_one] at free
    obtain ⟨es, run⟩ := ih (by omega) (by omega)
    obtain ⟨here, moved⟩ := @set_replicate _ .reading besieger n k (by omega)
    obtain ⟨fs, last⟩ := enter sampleEnv (show (besieged n k).main ≠ .gone from nofun) here word len free
    use es ++ fs
    apply run.append
    have same : (besieged n k).handlers.set k besieger = (besieged n (k + 1)).handlers := moved
    rw [← besieger, same] at last
    exact last

theorem work_closed_for_good_sample : ∃ es s, Run (Step sampleEnv) (start 12) es s ∧
    ∀ fs t, Run (Step sampleEnv) s fs t → ∀ j buffer a u, t.handlers[j]? = some (.testing buffer) →
      Step sampleEnv t (.handler j a) u → u.handlers[j]? = some (.refusing buffer) := by
  obtain ⟨es, run⟩ := @siege 12 11 (by omega) (by decide)
  refine ⟨es, _, run, fun fs t rest => ?_⟩
  refine (work_closed_for_good run (@List.nodup_range 11) (fun i hi => ?_) (by decide) rest).2
  exact ⟨besieger, besieged_here (List.mem_range.mp hi), besieger_endless⟩

end WorkServer

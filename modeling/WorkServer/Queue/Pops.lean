import WorkServer.Queue.Links

/-!
# Popping the job list

`pop_head` takes the first job off a list, but it follows the link to the second one before it
knows that there is one. The last job of a list is never popped.
-/

namespace WorkServer.Queue
open Runs LinkedHeap

/-- A caller that stores what `pop_head` returns as its `head`. -/
def pop (l : JobList) : Except Fault JobList := do
  let listed ← popHead l.head l.curr l.heap
  return ⟨listed.heap, listed.result, listed.curr⟩

/-- `n` pops, with the job that is at the head before each of them. -/
def popMany : Nat → JobList → Except Fault (List Item × JobList)
  | 0, l => .ok ([], l)
  | n + 1, l => do
    let node ← deref l.heap l.head
    let l ← pop l
    let (items, l) ← popMany n l
    return (node.item :: items, l)

/-- What `pop_head` is there for: it takes the first job off, and `curr` is NULL when none is left. -/
def Pops (l : JobList) (items : List Item) : Prop :=
  ∃ l', pop l = .ok l' ∧ WellLinked l' items.tail ∧ (l'.curr = none ↔ items.tail = [])

section Popping
variable {l : JobList} {items : List Item} {first second : Item}

theorem WellLinked.unique {items' : List Item} (linked : WellLinked l items) (linked' : WellLinked l items') :
    items = items' := by
  obtain ⟨-, cells, rfl, list⟩ := linked
  obtain ⟨-, cells', rfl, list'⟩ := linked'
  rw [list.forward.unique list'.forward]

theorem WellLinked.curr_eq_none_iff (linked : WellLinked l items) : l.curr = none ↔ items = [] := by
  obtain ⟨-, cells, rfl, list⟩ := linked
  rw [(doublyLinked_iff.mp list).2.last_eq_none_iff, List.map_eq_nil_iff]

theorem pop_last (linked : WellLinked l [first]) : pop l = .error .null := by
  obtain ⟨-, cells, contents, list⟩ := linked
  obtain ⟨c, rfl, -⟩ := List.map_eq_singleton_iff.mp contents
  obtain ⟨head, node, here, -, last⟩ := list.forward
  unfold pop
  rw [head, popHead_last l.curr here last]
  rfl

theorem pop_first (linked : WellLinked l (first :: second :: items)) :
    ∃ l', pop l = .ok l' ∧ WellLinked l' (second :: items) := by
  obtain ⟨-, cells, contents, list⟩ := linked
  obtain ⟨c, cells, rfl, -, contents⟩ := List.map_eq_cons_iff.mp contents
  obtain ⟨d, cells, rfl, rfl, rfl⟩ := List.map_eq_cons_iff.mp contents
  obtain ⟨head, node, here, -, next, node', there, -⟩ := list.forward
  have apart : c.1 ≠ d.1 := by
    have distinct := (List.nodup_cons.mp list.distinct).1
    exact fun same => distinct (same ▸ List.mem_cons_self)
  have rest : DoublyLinked layout (free (put l.heap d.1 { node' with prev := none }) c.1) (some d.1) l.curr
      (d :: cells) := list.pop_front there rfl rfl rfl
  refine ⟨⟨_, some d.1, l.curr⟩, ?_, wellLinked_of_cells (l := ⟨_, some d.1, l.curr⟩) rest⟩
  unfold pop
  rw [head, popHead_of_second l.curr here next there apart]
  rfl

/-- All but the last job can be popped, and come in their order. -/
theorem popMany_take (linked : WellLinked l items) {n : Nat} (h : n < items.length) :
    ∃ l', popMany n l = .ok (items.take n, l') ∧ WellLinked l' (items.drop n) := by
  induction n generalizing l items with
  | zero => exact ⟨l, rfl, linked⟩
  | succ n ih =>
    match items, linked, h with
    | first :: second :: items, linked, h =>
      obtain ⟨p, node, head, here, rfl⟩ := linked.head
      obtain ⟨l', popped, linked'⟩ := pop_first linked
      obtain ⟨l'', rest, linked''⟩ := ih linked' (Nat.lt_of_succ_lt_succ h)
      refine ⟨l'', ?_, linked''⟩
      unfold popMany
      rw [head, deref_of here]
      show (pop l >>= _) = _
      rw [popped]
      show (popMany n l' >>= _) = _
      rw [rest]
      rfl

/-- The pop of the last job faults. -/
theorem popMany_all (linked : WellLinked l (first :: items)) : popMany (items.length + 1) l = .error .null := by
  induction items generalizing l first with
  | nil =>
    obtain ⟨p, node, head, here, -⟩ := linked.head
    unfold popMany
    rw [head, deref_of here]
    show (pop l >>= _) = _
    rw [pop_last linked]
    rfl
  | cons second items ih =>
    obtain ⟨p, node, head, here, -⟩ := linked.head
    obtain ⟨l', popped, linked'⟩ := pop_first linked
    unfold popMany
    rw [head, deref_of here]
    show (pop l >>= _) = _
    rw [popped]
    show (popMany (items.length + 1) l' >>= _) = _
    rw [ih linked']
    rfl

theorem pops_iff (linked : WellLinked l items) (nonempty : items ≠ []) : Pops l items ↔ 2 ≤ items.length := by
  match items, linked, nonempty with
  | [first], linked, _ =>
    constructor
    · rintro ⟨l', popped, -⟩
      rw [pop_last linked] at popped
      cases popped
    · intro two
      exact absurd two (by simp)
  | first :: second :: items, linked, _ =>
    obtain ⟨l', popped, linked'⟩ := pop_first linked
    exact ⟨fun _ => by simp, fun _ => ⟨l', popped, linked', linked'.curr_eq_none_iff⟩⟩

/-- As many pops as there are jobs take each of them off in turn. -/
def Drains (l : JobList) (items : List Item) : Prop :=
  ∃ l', popMany items.length l = .ok (items, l') ∧ WellLinked l' []

theorem drains_iff (linked : WellLinked l items) : Drains l items ↔ items = [] := by
  constructor
  · rintro ⟨l', popped, -⟩
    cases items with
    | nil => rfl
    | cons first items =>
      rw [List.length_cons, popMany_all linked] at popped
      cases popped
  · rintro rfl
    exact ⟨l, rfl, linked⟩

end Popping

/-- Every call adds its job at the end, and gets its memory. -/
def EndAdds (calls : List Call) : Prop := ∀ c ∈ calls, c.malloc ≠ none ∧ c.add_to_end = true

theorem foldl_added {calls : List Call} (ends : EndAdds calls) (items : List Item) :
    calls.foldl added items = items ++ calls.map Call.item := by
  induction calls generalizing items with
  | nil => simp
  | cons c calls ih =>
    obtain ⟨memory, last⟩ := ends c List.mem_cons_self
    rw [List.foldl_cons, ih fun d hd => ends d (List.mem_cons_of_mem c hd)]
    simp [added, memory, last]

/-- `pop_head` does what it is there for if and only if a second job is on the list. Jobs added
at the end are popped in their order, and the pop of the last one faults. -/
theorem popHead_iff {l : JobList} {items : List Item} (linked : WellLinked l items) :
    (items ≠ [] → (Pops l items ↔ 2 ≤ items.length)) ∧
    (∀ n < items.length, ∃ l', popMany n l = .ok (items.take n, l') ∧ WellLinked l' (items.drop n)) ∧
    ∀ start calls, WellLinked start [] → EndAdds calls → Run AddStep (.ok start) calls (.ok l) →
      items = calls.map Call.item ∧ (Drains l (calls.map Call.item) ↔ calls = []) ∧
        (calls ≠ [] → popMany calls.length l = .error .null) := by
  refine ⟨pops_iff linked, fun n => popMany_take linked, ?_⟩
  intro start calls empty ends run
  obtain ⟨l', same, linked'⟩ := empty.run run
  cases same
  rw [foldl_added ends, List.nil_append] at linked'
  refine ⟨linked.unique linked', ?_, fun nonempty => ?_⟩
  · rw [drains_iff linked', List.map_eq_nil_iff]
  · obtain ⟨c, calls, rfl⟩ := List.exists_cons_of_ne_nil nonempty
    have faults := popMany_all linked'
    rwa [List.length_map] at faults

theorem popHead_iff_sample : Pops threeJobs [plainItem 1 4, plainItem 2 5, plainItem 3 6] :=
  ((popHead_iff wellLinked_threeJobs).1 (by simp)).mpr (by simp)

/-- The only job of a list: `head->next->prev` follows a NULL. -/
theorem pop_of_one_faults : ¬ ∀ (l : JobList) (items : List Item), WellLinked l items → items ≠ [] →
    Pops l items := by
  intro claimed
  obtain ⟨l', popped, -⟩ := claimed _ _ wellLinked_oneJob (by simp)
  rw [pop_last wellLinked_oneJob] at popped
  cases popped

end WorkServer.Queue

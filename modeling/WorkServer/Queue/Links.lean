import WorkServer.Lib.DoublyLinked
import WorkServer.Queue

/-!
# The job list from both ends

`add_to_list` on a list that can be followed from `head` and, backwards, from `curr`. A caller
that keeps `head` when it adds at the end, and otherwise takes the pointer it gets back, holds
such a list after any sequence of calls.
-/

namespace WorkServer.Queue
open Runs LinkedHeap

/-- What a node holds besides its links. -/
structure Item where
  seed : Arr 40
  difficulty : Arr 32
  start : Arr 32
  id : Int
  client_fd : Int
  info : ClientInfo

def Node.item (node : Node) : Item :=
  ⟨node.seed, node.difficulty, node.start, node.id, node.client_fd, node.info⟩

def layout : Layout Node Item := ⟨Node.next, Node.prev, Node.item⟩

/-- The list as its callers hold it. -/
structure JobList where
  heap : Heap Node
  head : Option Addr
  curr : Option Addr

/-- From `head` on and, backwards, from `curr` on lie the nodes of the `items`. -/
def WellLinked (l : JobList) (items : List Item) : Prop :=
  (l.head = none ↔ items = []) ∧
    ∃ cells, cells.map Prod.snd = items ∧ DoublyLinked layout l.heap l.head l.curr cells

theorem wellLinked_of_cells {l : JobList} {cells : List (Addr × Item)}
    (list : DoublyLinked layout l.heap l.head l.curr cells) : WellLinked l (cells.map Prod.snd) := by
  refine ⟨?_, cells, rfl, list⟩
  rw [(doublyLinked_iff.mp list).2.first_eq_none_iff, List.map_eq_nil_iff]

theorem WellLinked.head {l : JobList} {items : List Item} {first : Item} (linked : WellLinked l (first :: items)) :
    ∃ p node, l.head = some p ∧ l.heap p = some node ∧ node.item = first := by
  obtain ⟨-, cells, contents, list⟩ := linked
  cases cells with
  | nil => cases contents
  | cons c cells =>
    obtain ⟨rfl, rfl⟩ := List.cons.inj contents
    obtain ⟨head, node, here, holds, -⟩ := list.forward
    exact ⟨c.1, node, head, here, holds⟩

/-! ### Adding a job -/

/-- A call of `add_to_list`, with the address that its `malloc` returns. -/
structure Call where
  malloc : Option Addr
  item : Item
  add_to_end : Bool

def Call.result (c : Call) (l : JobList) : Except Fault Listed :=
  addToList c.malloc c.item.seed c.item.difficulty c.item.start c.item.client_fd c.item.id c.add_to_end
    l.head l.curr c.item.info l.heap

/-- What the caller goes on with as `head`: its own pointer after a failure and after an add at
the end of a list, and what the call returns otherwise. -/
def nextHead (add_to_end : Bool) (head result : Option Addr) : Option Addr :=
  if result = none ∨ add_to_end = true ∧ head ≠ none then head else result

def add (c : Call) (l : JobList) : Except Fault JobList := do
  let listed ← c.result l
  return ⟨listed.heap, nextHead c.add_to_end l.head listed.result, listed.curr⟩

/-- The jobs on the list after a call. -/
def added (items : List Item) (c : Call) : List Item :=
  if c.malloc = none then items else if c.add_to_end then items ++ [c.item] else c.item :: items

/-- `malloc` returns NULL or an address that is not in use. Nothing follows a fault. -/
inductive AddStep : Except Fault JobList → Call → Except Fault JobList → Prop where
  | call (l : JobList) (c : Call) : (∀ p, c.malloc = some p → l.heap p = none) → AddStep (.ok l) c (add c l)

/-- The node of a new job, before it is linked. -/
def Item.node (item : Item) : Node :=
  ⟨item.seed, item.difficulty, item.start, item.id, item.client_fd, item.info, none, none⟩

theorem result_of_null {c : Call} (failed : c.malloc = none) (l : JobList) :
    c.result l = .ok ⟨none, l.curr, l.heap⟩ := by
  unfold Call.result addToList
  rw [failed]
  cases l.head <;> rfl

theorem add_of_null {c : Call} (failed : c.malloc = none) (l : JobList) : add c l = .ok l := by
  unfold add
  rw [result_of_null failed]
  rfl

section Adding
variable {l : JobList} {ptr p q : Addr} {node : Node}

theorem add_empty (head : l.head = none) (item : Item) (add_to_end : Bool) :
    add ⟨some ptr, item, add_to_end⟩ l = .ok ⟨put l.heap ptr item.node, some ptr, some ptr⟩ := by
  unfold add Call.result addToList
  rw [head]
  cases add_to_end <;> rfl

theorem add_at_end (head : l.head = some p) (curr : l.curr = some q) (there : l.heap q = some node)
    (apart : q ≠ ptr) (item : Item) : add ⟨some ptr, item, true⟩ l =
      .ok ⟨put (put l.heap ptr { item.node with prev := some q }) q { node with next := some ptr },
        l.head, some ptr⟩ := by
  unfold add Call.result addToList
  simp only [head, curr, if_true]
  rw [modify_of _ (put_same _ _ _), put_put]
  show (modify _ _ (some q) >>= _) >>= _ = _
  rw [modify_of _ (by rw [put_other _ _ apart, there])]
  rfl

theorem add_at_front (head : l.head = some p) (there : l.heap p = some node) (apart : p ≠ ptr) (item : Item) :
    add ⟨some ptr, item, false⟩ l =
      .ok ⟨put (put l.heap ptr { item.node with next := l.head }) p { node with prev := some ptr },
        some ptr, l.curr⟩ := by
  unfold add Call.result addToList
  simp only [head, Bool.false_eq_true, if_false]
  rw [modify_of _ (put_same _ _ _), put_put]
  show (modify _ _ (some p) >>= _) >>= _ = _
  rw [modify_of _ (by rw [put_other _ _ apart, there])]
  rfl

theorem linked_at_end {cs : List (Addr × Item)} {c : Addr × Item}
    (list : DoublyLinked layout l.heap l.head l.curr (cs ++ [c])) (free : l.heap ptr = none) (item : Item) :
    ∃ l', add ⟨some ptr, item, true⟩ l = .ok l' ∧
      DoublyLinked layout l'.heap l'.head l'.curr (cs ++ [c] ++ [(ptr, item)]) := by
  have seg := (doublyLinked_iff.mp list).2
  obtain ⟨curr, node, there, -⟩ := segment_snoc.mp seg
  obtain ⟨p, -, head⟩ := seg.first_mem (by simp)
  refine ⟨_, add_at_end head curr there (ne_of_allocated there free) item, ?_⟩
  exact list.push_back free there rfl rfl rfl rfl curr.symm

theorem linked_at_front {cs : List (Addr × Item)} {c : Addr × Item}
    (list : DoublyLinked layout l.heap l.head l.curr (c :: cs)) (free : l.heap ptr = none) (item : Item) :
    ∃ l', add ⟨some ptr, item, false⟩ l = .ok l' ∧
      DoublyLinked layout l'.heap l'.head l'.curr ((ptr, item) :: c :: cs) := by
  obtain ⟨head, node, there, -⟩ := (doublyLinked_iff.mp list).2
  refine ⟨_, add_at_front head there (ne_of_allocated there free) item, ?_⟩
  exact list.push_front free there rfl rfl rfl rfl rfl

end Adding

/-- A call keeps the list well linked, with its job at the end that it names. -/
theorem WellLinked.step {l : JobList} {items : List Item} (linked : WellLinked l items) {c : Call}
    (fresh : ∀ p, c.malloc = some p → l.heap p = none) :
    ∃ l', add c l = .ok l' ∧ WellLinked l' (added items c) := by
  obtain ⟨malloc, item, add_to_end⟩ := c
  unfold added
  cases malloc with
  | none => exact ⟨l, add_of_null rfl l, linked⟩
  | some ptr =>
    have free := fresh ptr rfl
    obtain ⟨empty, cells, rfl, list⟩ := linked
    dsimp only
    rw [if_neg (by simp)]
    cases cells with
    | nil =>
      have single : DoublyLinked layout (put l.heap ptr item.node) (some ptr) (some ptr) [(ptr, item)] :=
        doublyLinked_single rfl rfl
      have linked' := wellLinked_of_cells (l := ⟨put l.heap ptr item.node, some ptr, some ptr⟩) single
      refine ⟨_, add_empty (empty.mpr rfl) item add_to_end, ?_⟩
      cases add_to_end <;> exact linked'
    | cons c cs =>
      cases add_to_end with
      | false =>
        obtain ⟨l', result, list'⟩ := linked_at_front list free item
        exact ⟨l', result, wellLinked_of_cells list'⟩
      | true =>
        obtain ⟨ds, d, last⟩ := (List.eq_nil_or_concat (c :: cs)).resolve_left (List.cons_ne_nil c cs)
        rw [List.concat_eq_append] at last
        rw [last] at list ⊢
        obtain ⟨l', result, list'⟩ := linked_at_end list free item
        have linked' := wellLinked_of_cells list'
        rw [List.map_append] at linked'
        exact ⟨l', result, linked'⟩

theorem WellLinked.run {l : JobList} {items : List Item} (linked : WellLinked l items) {calls : List Call}
    {r : Except Fault JobList} (run : Run AddStep (.ok l) calls r) :
    ∃ l', r = .ok l' ∧ WellLinked l' (calls.foldl added items) := by
  refine run.history (P := fun calls r => ∃ l', r = .ok l' ∧ WellLinked l' (calls.foldl added items))
    ⟨l, rfl, linked⟩ ?_
  rintro calls _ c _ ⟨l', rfl, linked'⟩ ⟨_, _, fresh⟩
  rw [List.foldl_append]
  exact linked'.step fresh

/-- Any calls of `add_to_list`, from a well linked list on, leave one that holds the jobs they
have added, and a call without memory returns NULL and leaves all as it was. -/
theorem addToList_linked {l : JobList} {items : List Item} (linked : WellLinked l items) {calls : List Call}
    {r : Except Fault JobList} (run : Run AddStep (.ok l) calls r) :
    ∃ l', r = .ok l' ∧ WellLinked l' (calls.foldl added items) ∧
      ∀ c : Call, c.malloc = none → c.result l' = .ok ⟨none, l'.curr, l'.heap⟩ ∧ add c l' = .ok l' := by
  obtain ⟨l', same, linked'⟩ := linked.run run
  exact ⟨l', same, linked', fun c failed => ⟨result_of_null failed l', add_of_null failed l'⟩⟩

/-- `head` and `curr` as the server starts. -/
def emptyList : JobList := ⟨fun _ => none, none, none⟩

theorem wellLinked_empty : WellLinked emptyList [] := by
  have nothing : DoublyLinked layout emptyList.heap emptyList.head emptyList.curr [] := doublyLinked_nil
  exact wellLinked_of_cells nothing

def plainItem (id client_fd : Int) : Item :=
  ⟨Vector.replicate 40 0, Vector.replicate 32 0, Vector.replicate 32 0, id, client_fd, ⟨client_fd⟩⟩

/-- One job, of client 4. -/
def oneJob : JobList := ⟨put emptyList.heap 0 (plainItem 1 4).node, some 0, some 0⟩

theorem wellLinked_oneJob : WellLinked oneJob [plainItem 1 4] := by
  have list : DoublyLinked layout oneJob.heap oneJob.head oneJob.curr [(0, plainItem 1 4)] :=
    doublyLinked_single rfl rfl
  exact wellLinked_of_cells list

/-- Three jobs, of the clients 4, 5 and 6. -/
def threeJobs : JobList where
  heap p :=
    if p = 0 then some { (plainItem 1 4).node with next := some 1 }
    else if p = 1 then some { (plainItem 2 5).node with next := some 2, prev := some 0 }
    else if p = 2 then some { (plainItem 3 6).node with prev := some 1 }
    else none
  head := some 0
  curr := some 2

theorem wellLinked_threeJobs : WellLinked threeJobs [plainItem 1 4, plainItem 2 5, plainItem 3 6] := by
  have list : DoublyLinked layout threeJobs.heap threeJobs.head threeJobs.curr
      [(0, plainItem 1 4), (1, plainItem 2 5), (2, plainItem 3 6)] := by
    rw [doublyLinked_iff]
    exact ⟨by simp, rfl, _, rfl, rfl, rfl, rfl, _, rfl, rfl, rfl, rfl, _, rfl, rfl, rfl, rfl, rfl⟩
  exact wellLinked_of_cells list

theorem addToList_linked_sample : ∃ l,
    Run AddStep (.ok emptyList) [⟨some 0, plainItem 1 4, true⟩, ⟨some 1, plainItem 2 5, false⟩] (.ok l) ∧
      WellLinked l [plainItem 2 5, plainItem 1 4] := by
  have first : Run AddStep (.ok emptyList) [⟨some 0, plainItem 1 4, true⟩] _ :=
    Run.single (.call emptyList ⟨some 0, plainItem 1 4, true⟩ fun _ _ => rfl)
  rw [add_empty rfl] at first
  have second := Run.snoc first (.call _ ⟨some 1, plainItem 2 5, false⟩ (by
    rintro p here
    cases here
    rfl))
  obtain ⟨l, result, linked, -⟩ := addToList_linked wellLinked_empty second
  rw [result] at second
  exact ⟨l, second, linked⟩

end WorkServer.Queue

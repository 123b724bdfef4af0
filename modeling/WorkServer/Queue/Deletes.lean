import Mathlib.Data.Option.Basic
import WorkServer.Queue.Links

/-!
# Deleting the jobs of a client

`delete_from_list` takes out each node that `search_in_list` finds for it. It moves its own
`head` and not its caller's, and it follows the link behind each node that it takes out, so it
is right for jobs that are neither first nor last.
-/

namespace WorkServer.Queue
open LinkedHeap

/-- What `search_in_list` returns, and what it leaves in `*prev`. -/
structure Found where
  result : Option Addr
  prev : Option Addr

/-- The loop of `search_in_list`, with `none` where `fuel` rounds are not enough. -/
def searchFrom (client_fd : Int) (prev : Option Addr) (heap : Heap Node) :
    Nat → Option Addr → Option Addr → Except Fault (Option Found)
  | 0, _, _ => .ok none
  | fuel + 1, tmp, ptr =>
    if ptr = none then
      .ok (some ⟨none, prev⟩)
    else do
      let node ← deref heap ptr
      if node.client_fd = client_fd then
        return some ⟨ptr, tmp⟩
      else
        searchFrom client_fd prev heap fuel ptr node.next

def searchInList (fuel : Nat) (client_fd : Int) (prev head : Option Addr) (heap : Heap Node) :
    Except Fault (Option Found) := searchFrom client_fd prev heap fuel none head

/-- A round of the loop of `delete_from_list`, up to `free (del)`. The `head` here is its own. -/
def unlink (del : Addr) (prev : Option Addr) (l : JobList) : Except Fault JobList := do
  let heap ←
    if prev ≠ none then do
      let node ← deref l.heap (some del)
      modify l.heap (fun before => { before with next := node.next }) prev
    else
      pure l.heap
  -- The test of `prev` covers the line above only.
  let node ← deref heap (some del)
  let heap ← modify heap (fun behind => { behind with prev := node.prev }) node.next
  if some del = l.curr then
    return ⟨free heap del, l.head, prev⟩
  else if some del = l.head then do
    let node ← deref heap (some del)
    let heap ← modify heap (fun behind => { behind with prev := none }) node.next
    return ⟨free heap del, node.next, l.curr⟩
  else
    return ⟨free heap del, l.head, l.curr⟩

/-- What `delete_from_list` returns, and what it leaves in the heap and in `*curr`. -/
structure Deleted where
  result : Int
  heap : Heap Node
  curr : Option Addr

/-- The loop of `delete_from_list`, with `none` where `fuel` rounds are not enough. -/
def deleteLoop (client_fd : Int) : Nat → Found → JobList → Except Fault (Option Deleted)
  | 0, _, _ => .ok none
  | fuel + 1, found, l =>
    match found.result with
    | none => .ok (some ⟨0, l.heap, l.curr⟩)
    | some del => do
      let l ← unlink del found.prev l
      match ← searchInList fuel client_fd found.prev l.head l.heap with
      | none => return none
      | some found => deleteLoop client_fd fuel found l

def deleteFromList (fuel : Nat) (client_fd : Int) (l : JobList) : Except Fault (Option Deleted) := do
  match ← searchInList fuel client_fd none l.head l.heap with
  | none => return none
  | some found =>
    if found.result = none then
      return some ⟨-1, l.heap, l.curr⟩
    else
      deleteLoop client_fd fuel found l

/-- The jobs of other clients. -/
def others (client_fd : Int) (items : List Item) : List Item :=
  items.filter fun item => item.client_fd ≠ client_fd

/-- What `delete_from_list` is there for. It ends without a fault, and its caller goes on with the
`head` that it had. -/
def Deletes (client_fd : Int) (l : JobList) (items : List Item) : Prop :=
  ∃ enough d, (∀ fuel ≥ enough, deleteFromList fuel client_fd l = .ok (some d)) ∧
    ((∀ item ∈ items, item.client_fd ≠ client_fd) → d = ⟨-1, l.heap, l.curr⟩) ∧
    ((∃ item ∈ items, item.client_fd = client_fd) →
      d.result = 0 ∧ WellLinked ⟨d.heap, l.head, d.curr⟩ (others client_fd items))

/-! ### The search -/

section Search
variable {client_fd : Int} {heap : Heap Node} {head last : Option Addr} {cs ds : List (Addr × Item)}

theorem searchFrom_match {p : Addr} {node : Node} (here : heap p = some node) (own : node.client_fd = client_fd)
    (prev tmp : Option Addr) (fuel : Nat) :
    searchFrom client_fd prev heap (fuel + 1) tmp (some p) = .ok (some ⟨some p, tmp⟩) := by
  unfold searchFrom
  rw [if_neg (by simp), deref_of here]
  exact if_pos own

theorem searchFrom_pass {p : Addr} {node : Node} (here : heap p = some node) (other : node.client_fd ≠ client_fd)
    (prev tmp : Option Addr) (fuel : Nat) :
    searchFrom client_fd prev heap (fuel + 1) tmp (some p) =
      searchFrom client_fd prev heap fuel (some p) node.next := by
  rw [searchFrom, if_neg (by simp), deref_of here]
  exact if_neg other

/-- The search passes over the nodes of other clients, and keeps the one before in `tmp`. -/
theorem searchFrom_skip {first before after : Option Addr} (seg : Segment layout heap first before cs last after)
    (apart : ∀ c ∈ cs, c.2.client_fd ≠ client_fd) (prev : Option Addr) (fuel : Nat) :
    searchFrom client_fd prev heap (fuel + cs.length) before first =
      searchFrom client_fd prev heap fuel last after := by
  induction cs generalizing first before with
  | nil =>
    obtain ⟨rfl, rfl⟩ := seg
    rfl
  | cons c cs ih =>
    obtain ⟨rfl, node, here, holds, -, rest⟩ := seg
    have other : node.client_fd ≠ client_fd := by
      have different := apart c List.mem_cons_self
      rwa [← holds] at different
    rw [← ih rest fun d hd => apart d (List.mem_cons_of_mem c hd)]
    exact searchFrom_pass here other prev before (fuel + cs.length)

theorem search_missing (seg : Segment layout heap head none cs last none)
    (apart : ∀ c ∈ cs, c.2.client_fd ≠ client_fd) (prev : Option Addr) {fuel : Nat} (enough : cs.length < fuel) :
    searchInList fuel client_fd prev head heap = .ok (some ⟨none, prev⟩) := by
  obtain ⟨more, rfl⟩ : ∃ more, fuel = more + 1 + cs.length := ⟨fuel - 1 - cs.length, by omega⟩
  unfold searchInList
  rw [searchFrom_skip seg apart]
  rfl

theorem search_found {d : Addr × Item} {node : Node} (here : heap d.1 = some node) (holds : node.item = d.2)
    (seg : Segment layout heap head none cs node.prev (some d.1)) (apart : ∀ c ∈ cs, c.2.client_fd ≠ client_fd)
    (own : d.2.client_fd = client_fd) (prev : Option Addr) {fuel : Nat} (enough : cs.length < fuel) :
    searchInList fuel client_fd prev head heap = .ok (some ⟨some d.1, node.prev⟩) := by
  obtain ⟨more, rfl⟩ : ∃ more, fuel = more + 1 + cs.length := ⟨fuel - 1 - cs.length, by omega⟩
  unfold searchInList
  rw [searchFrom_skip seg apart]
  refine searchFrom_match here ?_ prev node.prev more
  rw [← own, ← holds]
  rfl

end Search

/-! ### One round -/

section Unlink
variable {l : JobList} {del : Addr} {node : Node}

theorem unlink_last {prev : Option Addr} (here : l.heap del = some node) (last : node.next = none)
    (before : ∀ p, prev = some p → p ≠ del ∧ ∃ x, l.heap p = some x) : unlink del prev l = .error .null := by
  unfold unlink
  cases prev with
  | none =>
    rw [if_neg (by simp)]
    show (deref l.heap (some del) >>= _) = _
    rw [deref_of here]
    show (modify l.heap _ node.next >>= _) = _
    rw [last]
    rfl
  | some p =>
    obtain ⟨apart, x, there⟩ := before p rfl
    rw [if_pos (by simp), deref_of here]
    show (modify l.heap _ (some p) >>= _) = _
    rw [modify_of _ there]
    show (deref (put l.heap p _) (some del) >>= _) = _
    rw [deref_of (by rw [put_other _ _ apart.symm, here])]
    show (modify _ _ node.next >>= _) = _
    rw [last]
    rfl

theorem unlink_first {e : Addr} {behind : Node} (head : l.head = some del) (here : l.heap del = some node)
    (next : node.next = some e) (there : l.heap e = some behind) (apart : e ≠ del) (notLast : l.curr ≠ some del) :
    unlink del none l = .ok ⟨free (put l.heap e { behind with prev := none }) del, some e, l.curr⟩ := by
  unfold unlink
  rw [if_neg (by simp)]
  show (deref l.heap (some del) >>= _) = _
  rw [deref_of here]
  show (modify l.heap _ node.next >>= _) = _
  rw [next, modify_of _ there]
  show (if some del = l.curr then _ else _) = _
  rw [if_neg notLast.symm, if_pos head.symm, deref_of (by rw [put_other _ _ apart.symm, here])]
  show (modify _ _ node.next >>= _) = _
  rw [next, modify_of _ (put_same _ _ _), put_put]
  rfl

theorem unlink_middle {b e : Addr} {before behind : Node} (here : l.heap del = some node)
    (prev : node.prev = some b) (next : node.next = some e) (left : l.heap b = some before)
    (right : l.heap e = some behind) (apart : b ≠ del) (distinct : e ≠ b)
    (notLast : l.curr ≠ some del) (notFirst : l.head ≠ some del) : unlink del (some b) l =
      .ok ⟨free (put (put l.heap b { before with next := some e }) e { behind with prev := some b }) del,
        l.head, l.curr⟩ := by
  unfold unlink
  rw [if_pos (by simp), deref_of here]
  show (modify l.heap _ (some b) >>= _) = _
  rw [modify_of _ left]
  show (deref (put l.heap b _) (some del) >>= _) = _
  rw [deref_of (by rw [put_other _ _ apart.symm, here])]
  show (modify _ _ node.next >>= _) = _
  rw [next, modify_of _ (by rw [put_other _ _ distinct, right]), prev]
  show (if some del = l.curr then _ else _) = _
  rw [if_neg notLast.symm, if_neg notFirst.symm]
  rfl

/-- A round takes its node out and frees it. The local `head` moves on if it was the first. -/
theorem unlink_removes {cs ds : List (Addr × Item)} {d e : Addr × Item}
    (list : DoublyLinked layout l.heap l.head l.curr (cs ++ d :: e :: ds)) (here : l.heap d.1 = some node) :
    ∃ l', unlink d.1 node.prev l = .ok l' ∧ DoublyLinked layout l'.heap l'.head l'.curr (cs ++ e :: ds) ∧
      l'.curr = l.curr ∧ (cs ≠ [] → l'.head = l.head) ∧ l'.heap d.1 = none ∧
      ∀ p, l.heap p = none → l'.heap p = none := by
  obtain ⟨x, here', -, left, right⟩ := segment_middle.mp (doublyLinked_iff.mp list).2
  obtain rfl := Option.some.inj (here.symm.trans here')
  obtain ⟨next, behind, there, -⟩ := right
  have notLast := list.last_ne (List.cons_ne_nil e ds)
  have apart : e.1 ≠ d.1 := list.apart (by simp)
  rcases List.eq_nil_or_concat cs with rfl | ⟨bs, b, rfl⟩
  · have prev : node.prev = none := left.2
    rw [prev]
    refine ⟨_, unlink_first left.1 here next there apart notLast, ?_, rfl,
      fun nonempty => absurd rfl nonempty, free_same _ _, fun p absent => ?_⟩
    · exact list.pop_front there rfl rfl rfl
    · exact free_unallocated d.1 (put_unallocated there absent)
  · rw [List.concat_eq_append] at *
    obtain ⟨prev, before, atB, -⟩ := segment_snoc.mp left
    change node.prev = some b.1 at prev
    have notFirst := list.head_ne (by simp)
    have others : b.1 ≠ d.1 := list.apart (by simp)
    have distinct : e.1 ≠ b.1 := by
      rw [List.append_assoc, List.singleton_append] at list
      exact list.apart (by simp)
    have behindLeft : put l.heap b.1 { before with next := some e.1 } e.1 = some behind :=
      (put_other _ _ distinct).trans there
    rw [prev]
    refine ⟨_, unlink_middle here prev next atB there others distinct notLast notFirst, ?_, rfl,
      fun _ => rfl, free_same _ _, fun p absent => ?_⟩
    · exact list.remove atB rfl rfl rfl there rfl rfl rfl
    · exact free_unallocated d.1 (put_unallocated behindLeft (put_unallocated atB absent))

end Unlink

/-! ### All rounds -/

/-- The search that ends a round, and the rounds after it. -/
def deleteRest (client_fd : Int) (fuel : Nat) (prev : Option Addr) (l : JobList) :
    Except Fault (Option Deleted) := do
  match ← searchInList fuel client_fd prev l.head l.heap with
  | none => return none
  | some found => deleteLoop client_fd fuel found l

section Rounds
variable {client_fd : Int} {l : JobList} {cells cs ds : List (Addr × Item)} {d : Addr × Item}

theorem first_match (client_fd : Int) (cells : List (Addr × Item)) :
    (∀ c ∈ cells, c.2.client_fd ≠ client_fd) ∨
      ∃ cs d ds, cells = cs ++ d :: ds ∧ (∀ c ∈ cs, c.2.client_fd ≠ client_fd) ∧ d.2.client_fd = client_fd := by
  cases found : cells.find? fun c => c.2.client_fd = client_fd with
  | none =>
    left
    simpa using List.find?_eq_none.mp found
  | some d =>
    right
    obtain ⟨own, cs, ds, split, before⟩ := List.find?_eq_some_iff_append.mp found
    exact ⟨cs, d, ds, split, by simpa using before, by simpa using own⟩

theorem deleteRest_missing (list : DoublyLinked layout l.heap l.head l.curr cells)
    (apart : ∀ c ∈ cells, c.2.client_fd ≠ client_fd) {fuel : Nat} (enough : cells.length ≤ fuel)
    (prev : Option Addr) : deleteRest client_fd (fuel + 1) prev l = .ok (some ⟨0, l.heap, l.curr⟩) := by
  have search := search_missing (doublyLinked_iff.mp list).2 apart prev (Nat.lt_succ_of_le enough)
  unfold deleteRest
  rw [search]
  rfl

theorem deleteRest_found {node : Node} (list : DoublyLinked layout l.heap l.head l.curr (cs ++ d :: ds))
    (here : l.heap d.1 = some node) (apart : ∀ c ∈ cs, c.2.client_fd ≠ client_fd) (own : d.2.client_fd = client_fd)
    {fuel : Nat} (enough : cs.length ≤ fuel) (prev : Option Addr) :
    deleteRest client_fd (fuel + 1) prev l = unlink d.1 node.prev l >>= deleteRest client_fd fuel node.prev := by
  obtain ⟨x, there, holds, left, -⟩ := segment_middle.mp (doublyLinked_iff.mp list).2
  obtain rfl := Option.some.inj (here.symm.trans there)
  have search := search_found here holds left apart own prev (Nat.lt_succ_of_le enough)
  unfold deleteRest
  rw [search]
  rfl

/-- What the rounds leave of a list whose last job is another client's. -/
structure Removed (client_fd : Int) (l : JobList) (cells : List (Addr × Item)) (d : Deleted) : Prop where
  result : d.result = 0
  curr : d.curr = l.curr
  linked : ∃ head, DoublyLinked layout d.heap head l.curr (cells.filter fun c => c.2.client_fd ≠ client_fd) ∧
    ((∀ c ∈ cells.head?, c.2.client_fd ≠ client_fd) → head = l.head)
  freed : ∀ c ∈ cells, c.2.client_fd = client_fd → d.heap c.1 = none
  absent : ∀ p, l.heap p = none → d.heap p = none

theorem removed_missing (list : DoublyLinked layout l.heap l.head l.curr cells)
    (apart : ∀ c ∈ cells, c.2.client_fd ≠ client_fd) : Removed client_fd l cells ⟨0, l.heap, l.curr⟩ where
  result := rfl
  curr := rfl
  linked := by
    refine ⟨l.head, ?_, fun _ => rfl⟩
    rwa [List.filter_eq_self.mpr fun c hc => by simpa using apart c hc]
  freed := fun c hc own => absurd own (apart c hc)
  absent := fun p gone => gone

/-- After one round, what the others leave is what all of them leave. -/
theorem Removed.round {l' : JobList} {e : Addr × Item} {r : Deleted} (own : d.2.client_fd = client_fd)
    (rest : Removed client_fd l' (cs ++ e :: ds) r) (curr : l'.curr = l.curr) (head : cs ≠ [] → l'.head = l.head)
    (gone : l'.heap d.1 = none) (absent : ∀ p, l.heap p = none → l'.heap p = none) :
    Removed client_fd l (cs ++ d :: e :: ds) r := by
  obtain ⟨result, sameCurr, ⟨newHead, list, keeps⟩, freed, stays⟩ := rest
  refine ⟨result, sameCurr.trans curr, ⟨newHead, ?_, ?_⟩, ?_, fun q gone => stays q (absent q gone)⟩
  · rw [curr] at list
    rw [List.filter_append, List.filter_cons_of_neg (by simpa using own), ← List.filter_append]
    exact list
  · intro first
    cases cs with
    | nil => exact absurd own (first d rfl)
    | cons c cs => rw [keeps first, head (List.cons_ne_nil c cs)]
  · intro c hc ownC
    rcases List.mem_append.mp hc with before | after
    · exact freed c (List.mem_append_left _ before) ownC
    · rcases List.mem_cons.mp after with rfl | behind
      · exact stays _ gone
      · exact freed c (List.mem_append_right cs behind) ownC

/-- The rounds take out every job of the client and end, if the last one is not the client's. -/
theorem deleteRest_removes (list : DoublyLinked layout l.heap l.head l.curr cells)
    (last : ∀ c ∈ cells.getLast?, c.2.client_fd ≠ client_fd) : ∃ r, Removed client_fd l cells r ∧
      ∀ fuel ≥ cells.length, ∀ prev, deleteRest client_fd (fuel + 1) prev l = .ok (some r) := by
  induction length : cells.length generalizing l cells with
  | zero =>
    have missing : ∀ c ∈ cells, c.2.client_fd ≠ client_fd := by simp [List.length_eq_zero_iff.mp length]
    exact ⟨_, removed_missing list missing, fun fuel enough => deleteRest_missing list missing (length ▸ enough)⟩
  | succ n ih =>
    rcases first_match client_fd cells with missing | ⟨cs, d, ds, rfl, before, own⟩
    · exact ⟨_, removed_missing list missing, fun fuel enough => deleteRest_missing list missing (length ▸ enough)⟩
    · cases ds with
      | nil => exact absurd own (last d (by simp))
      | cons e ds =>
        obtain ⟨node, here, -⟩ := segment_middle.mp (doublyLinked_iff.mp list).2
        obtain ⟨l', round, list', curr, head, gone, absent⟩ := unlink_removes list here
        have shorter : (cs ++ e :: ds).length = n := by
          simp only [List.length_append, List.length_cons] at length ⊢
          omega
        obtain ⟨r, rest, ends⟩ := ih list' (by simpa using last) shorter
        refine ⟨r, rest.round own curr head gone absent, ?_⟩
        intro fuel enough prev
        obtain ⟨more, rfl⟩ : ∃ more, fuel = more + 1 := ⟨fuel - 1, by omega⟩
        have left : cs.length ≤ more + 1 := by
          rw [List.length_append] at shorter
          omega
        rw [deleteRest_found list here before own left, round]
        exact ends more (by omega) node.prev

/-- If the last job is the client's, the round that finds it follows a NULL. -/
theorem deleteRest_faults (list : DoublyLinked layout l.heap l.head l.curr cells) {c : Addr × Item}
    (last : cells.getLast? = some c) (ownLast : c.2.client_fd = client_fd) {fuel : Nat}
    (enough : cells.length ≤ fuel) (prev : Option Addr) :
    deleteRest client_fd (fuel + 1) prev l = .error .null := by
  induction length : cells.length generalizing l cells fuel prev with
  | zero =>
    rw [List.length_eq_zero_iff.mp length] at last
    cases last
  | succ n ih =>
    rcases first_match client_fd cells with missing | ⟨cs, d, ds, rfl, before, own⟩
    · exact absurd ownLast (missing c (List.mem_of_getLast? last))
    · obtain ⟨node, here, -, left, right⟩ := segment_middle.mp (doublyLinked_iff.mp list).2
      rw [List.length_append, List.length_cons] at length enough
      rw [deleteRest_found list here before own (by omega)]
      cases ds with
      | nil =>
        have next : node.next = none := right.1
        have fault : unlink d.1 node.prev l = .error .null := by
          refine unlink_last here next fun p prev => ?_
          rcases List.eq_nil_or_concat cs with rfl | ⟨bs, b, rfl⟩
          · cases left.2.symm.trans prev
          · rw [List.concat_eq_append] at left list
            obtain ⟨back, x, there, -⟩ := segment_snoc.mp left
            obtain rfl := Option.some.inj (prev.symm.trans back)
            exact ⟨list.apart (by simp), x, there⟩
        rw [fault]
        rfl
      | cons e ds =>
        obtain ⟨l', round, list', -⟩ := unlink_removes list here
        obtain ⟨more, rfl⟩ : ∃ more, fuel = more + 1 := ⟨fuel - 1, by omega⟩
        rw [List.length_cons] at length enough
        have shorter : (cs ++ e :: ds).length = n := by
          rw [List.length_append, List.length_cons]
          omega
        rw [round]
        exact ih list' (by simpa using last) (by omega) node.prev shorter

end Rounds

/-! ### The whole function -/

section Delete
variable {client_fd : Int} {l : JobList} {cells : List (Addr × Item)} {items : List Item}

theorem deleteFromList_missing (list : DoublyLinked layout l.heap l.head l.curr cells)
    (apart : ∀ c ∈ cells, c.2.client_fd ≠ client_fd) {fuel : Nat} (enough : cells.length < fuel) :
    deleteFromList fuel client_fd l = .ok (some ⟨-1, l.heap, l.curr⟩) := by
  unfold deleteFromList
  rw [search_missing (doublyLinked_iff.mp list).2 apart none enough]
  rfl

theorem deleteFromList_found (list : DoublyLinked layout l.heap l.head l.curr cells)
    (own : ∃ c ∈ cells, c.2.client_fd = client_fd) {fuel : Nat} (enough : cells.length < fuel) :
    deleteFromList fuel client_fd l = deleteRest client_fd fuel none l := by
  rcases first_match client_fd cells with missing | ⟨cs, d, ds, rfl, before, own⟩
  · obtain ⟨c, hc, own⟩ := own
    exact absurd own (missing c hc)
  · obtain ⟨node, here, holds, left, -⟩ := segment_middle.mp (doublyLinked_iff.mp list).2
    have reach : cs.length < fuel := by
      rw [List.length_append] at enough
      omega
    have found := search_found here holds left before own none reach
    unfold deleteFromList deleteRest
    rw [found]
    rfl

theorem Deletes.last (deletes : Deletes client_fd l (cells.map Prod.snd))
    (list : DoublyLinked layout l.heap l.head l.curr cells) : ∀ c ∈ cells.getLast?, c.2.client_fd ≠ client_fd := by
  obtain ⟨enough, d, ends, -⟩ := deletes
  intro c hc own
  have result := ends (enough + cells.length + 1) (by omega)
  rw [deleteFromList_found list ⟨c, List.mem_of_getLast? hc, own⟩ (by omega),
    deleteRest_faults list hc own (by omega)] at result
  cases result

theorem not_wellLinked_of_freed {p : Addr} (head : l.head = some p) (freed : l.heap p = none) :
    ¬ WellLinked l items := by
  intro linked
  cases items with
  | nil =>
    have empty := linked.1.mpr rfl
    rw [head] at empty
    cases empty
  | cons item items =>
    obtain ⟨q, node, same, here, -⟩ := linked.head
    exact ne_of_allocated here freed (Option.some.inj (same.symm.trans head))

/-- The caller's `head` still points to the first job, which is gone if it was the client's. -/
theorem Deletes.first (deletes : Deletes client_fd l (cells.map Prod.snd))
    (list : DoublyLinked layout l.heap l.head l.curr cells) : ∀ c ∈ cells.head?, c.2.client_fd ≠ client_fd := by
  intro c hc own
  have mem := List.mem_of_head? hc
  obtain ⟨r, removed, rest⟩ := deleteRest_removes list (deletes.last list)
  obtain ⟨enough, d, ends, -, removes⟩ := deletes
  have result := ends (enough + cells.length + 1) (by omega)
  rw [deleteFromList_found list ⟨c, mem, own⟩ (by omega), rest _ (by omega)] at result
  cases result
  obtain ⟨-, linked⟩ := removes ⟨c.2, List.mem_map_of_mem mem, own⟩
  cases cells with
  | nil => cases hc
  | cons first cells =>
    obtain rfl : first = c := Option.some.inj hc
    exact not_wellLinked_of_freed (l := ⟨r.heap, l.head, r.curr⟩) list.forward.1 (removed.freed first mem own) linked

theorem others_map (client_fd : Int) (cells : List (Addr × Item)) : others client_fd (cells.map Prod.snd) =
    (cells.filter fun c => c.2.client_fd ≠ client_fd).map Prod.snd := by
  unfold others
  rw [List.filter_map]
  rfl

theorem deletes_of_ends (list : DoublyLinked layout l.heap l.head l.curr cells)
    (first : ∀ c ∈ cells.head?, c.2.client_fd ≠ client_fd) (last : ∀ c ∈ cells.getLast?, c.2.client_fd ≠ client_fd) :
    Deletes client_fd l (cells.map Prod.snd) := by
  by_cases own : ∃ c ∈ cells, c.2.client_fd = client_fd
  · obtain ⟨r, removed, rest⟩ := deleteRest_removes list last
    refine ⟨cells.length + 1, r, ?_, ?_, fun _ => ⟨removed.result, ?_⟩⟩
    · intro fuel enough
      obtain ⟨more, rfl⟩ : ∃ more, fuel = more + 1 := ⟨fuel - 1, by omega⟩
      rw [deleteFromList_found list own (by omega)]
      exact rest more (by omega) none
    · intro missing
      obtain ⟨c, hc, own⟩ := own
      exact absurd own (missing c.2 (List.mem_map_of_mem hc))
    · obtain ⟨head, list', same⟩ := removed.linked
      rw [same first, ← removed.curr] at list'
      rw [others_map]
      exact wellLinked_of_cells (l := ⟨r.heap, l.head, r.curr⟩) list'
  · have missing : ∀ c ∈ cells, c.2.client_fd ≠ client_fd := fun c hc same => own ⟨c, hc, same⟩
    refine ⟨cells.length + 1, _, fun fuel enough => deleteFromList_missing list missing enough, fun _ => rfl, ?_⟩
    rintro ⟨item, hitem, same⟩
    obtain ⟨c, hc, rfl⟩ := List.mem_map.mp hitem
    exact absurd same (missing c hc)

end Delete

/-- `delete_from_list` does what it is there for if and only if neither the first nor the last
job is the client's. -/
theorem deleteFromList_iff {l : JobList} {items : List Item} (linked : WellLinked l items) (client_fd : Int) :
    Deletes client_fd l items ↔ (∀ item ∈ items.head?, item.client_fd ≠ client_fd) ∧
      ∀ item ∈ items.getLast?, item.client_fd ≠ client_fd := by
  obtain ⟨-, cells, rfl, list⟩ := linked
  rw [List.head?_map, List.getLast?_map, Option.forall_mem_map, Option.forall_mem_map]
  constructor
  · intro deletes
    exact ⟨deletes.first list, deletes.last list⟩
  · intro apart
    exact deletes_of_ends list apart.1 apart.2

theorem deleteFromList_iff_sample : Deletes 5 threeJobs [plainItem 1 4, plainItem 2 5, plainItem 3 6] :=
  (deleteFromList_iff wellLinked_threeJobs 5).mpr ⟨by simp [plainItem], by simp [plainItem]⟩

/-- The only job of a list: `del->next->prev` follows a NULL. -/
theorem delete_of_one_faults : ¬ ∀ (l : JobList) (items : List Item) (client_fd : Int), WellLinked l items →
    Deletes client_fd l items := by
  intro claimed
  have list : DoublyLinked layout oneJob.heap oneJob.head oneJob.curr [(0, plainItem 1 4)] :=
    doublyLinked_single rfl rfl
  have deletes := claimed oneJob _ 4 (wellLinked_of_cells list)
  exact deletes.last list _ rfl rfl

end WorkServer.Queue

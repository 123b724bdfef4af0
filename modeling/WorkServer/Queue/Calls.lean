import WorkServer.Queue.Deletes
import WorkServer.Queue.Pops

/-!
# Any calls on a job list

The calls of `work.c` on one list, in any order, against the list of jobs that they are
there to keep. A call that fits the list does to it what it is there for; the first one
that does not fit faults or leaves pointers that are no list.
-/

namespace WorkServer.Queue
open Runs LinkedHeap

/-- `print_list` goes on from `ptr`: the `id` and the `client_fd` of each line, or `none` where
`fuel` rounds are not enough. -/
def printFrom (heap : Heap Node) : Nat → Option Addr → Except Fault (Option (List (Int × Int)))
  | 0, _ => .ok none
  | fuel + 1, ptr =>
    if ptr = none then
      .ok (some [])
    else do
      let node ← deref heap ptr
      match ← printFrom heap fuel node.next with
      | none => return none
      | some lines => return some ((node.id, node.client_fd) :: lines)

def printList (fuel : Nat) (l : JobList) : Except Fault (Option (List (Int × Int))) := printFrom l.heap fuel l.head

def Item.line (item : Item) : Int × Int := (item.id, item.client_fd)

theorem printFrom_val {heap : Heap Node} {cells : List (Addr × Item)} {first : Option Addr} {fuel : Nat}
    (path : Path layout.next layout.content heap first cells none) (enough : cells.length < fuel) :
    printFrom heap fuel first = .ok (some (cells.map fun c => c.2.line)) := by
  induction cells generalizing first fuel with
  | nil =>
    obtain ⟨more, rfl⟩ : ∃ more, fuel = more + 1 := ⟨fuel - 1, by omega⟩
    obtain rfl := path
    rfl
  | cons c cells ih =>
    obtain ⟨more, rfl⟩ : ∃ more, fuel = more + 1 := ⟨fuel - 1, by omega⟩
    obtain ⟨rfl, node, here, holds, rest⟩ := path
    have others : printFrom heap more node.next = _ := ih rest (Nat.lt_of_succ_lt_succ enough)
    unfold printFrom
    rw [if_neg (by simp), deref_of here]
    show (printFrom heap more node.next >>= _) = _
    rw [others, List.map_cons, ← holds]
    rfl

theorem WellLinked.printed {l : JobList} {items : List Item} (linked : WellLinked l items) {fuel : Nat}
    (enough : items.length < fuel) : printList fuel l = .ok (some (items.map Item.line)) := by
  obtain ⟨-, cells, rfl, list⟩ := linked
  rw [List.length_map] at enough
  rw [List.map_map]
  exact printFrom_val list.forward enough

/-! ### Calls and what they are for -/

inductive ListCall where
  | add (c : Call)
  | pop
  | delete (client_fd : Int)

/-- The jobs on the list after a call. -/
def ListCall.effect (items : List Item) : ListCall → List Item
  | .add c => added items c
  | .pop => items.tail
  | .delete client_fd => others client_fd items

/-- The lists that a call is right on. -/
def ListCall.Fits (items : List Item) : ListCall → Prop
  | .add _ => True
  | .pop => items.length ≠ 1
  | .delete client_fd =>
    (∀ item ∈ items.head?, item.client_fd ≠ client_fd) ∧ ∀ item ∈ items.getLast?, item.client_fd ≠ client_fd

/-- What a loop gives with enough rounds is what it gives. The caller of `delete_from_list` keeps the
`head` that it had. -/
inductive ListStep : Except Fault JobList → ListCall → Except Fault JobList → Prop where
  | add (l : JobList) (c : Call) : (∀ p, c.malloc = some p → l.heap p = none) → ListStep (.ok l) (.add c) (add c l)
  | pop (l : JobList) : ListStep (.ok l) .pop (pop l)
  | delete (l : JobList) (client_fd : Int) (enough : Nat) (r : Except Fault Deleted) :
    (∀ fuel ≥ enough, deleteFromList fuel client_fd l = r.map some) →
    ListStep (.ok l) (.delete client_fd) (r.map fun d => ⟨d.heap, l.head, d.curr⟩)

section Step
variable {l : JobList} {items : List Item} {cells : List (Addr × Item)} {c : ListCall} {r : Except Fault JobList}

theorem pop_empty (linked : WellLinked l []) : pop l = .ok l := by
  obtain ⟨heap, head, curr⟩ := l
  obtain rfl : head = none := linked.1.mpr rfl
  rfl

theorem pop_fits (linked : WellLinked l items) (fits : items.length ≠ 1) :
    ∃ l', pop l = .ok l' ∧ WellLinked l' items.tail := by
  match items, linked, fits with
  | [], linked, _ => exact ⟨l, pop_empty linked, linked⟩
  | [_], _, fits => exact absurd rfl fits
  | _ :: _ :: _, linked, _ => exact pop_first linked

/-- A call of `delete_from_list` has one end. -/
theorem delete_unique {client_fd : Int} {enough : Nat} {r r' : Except Fault Deleted}
    (ends : ∀ fuel ≥ enough, deleteFromList fuel client_fd l = r.map some) {enough' : Nat}
    (ends' : ∀ fuel ≥ enough', deleteFromList fuel client_fd l = r'.map some) : r = r' := by
  have same := (ends (enough + enough') (by omega)).symm.trans (ends' (enough + enough') (by omega))
  cases r <;> cases r' <;> cases same <;> rfl

theorem delete_ends (list : DoublyLinked layout l.heap l.head l.curr cells) (client_fd : Int) :
    ∃ enough r, ∀ fuel ≥ enough, deleteFromList fuel client_fd l = Except.map some r := by
  by_cases own : ∃ c ∈ cells, c.2.client_fd = client_fd
  · refine ⟨cells.length + 1, ?_⟩
    by_cases last : ∀ c ∈ cells.getLast?, c.2.client_fd ≠ client_fd
    · obtain ⟨r, -, rest⟩ := deleteRest_removes list last
      refine ⟨.ok r, fun fuel enough => ?_⟩
      obtain ⟨more, rfl⟩ : ∃ more, fuel = more + 1 := ⟨fuel - 1, by omega⟩
      rw [deleteFromList_found list own (by omega)]
      exact rest more (by omega) none
    · simp only [not_forall, not_not] at last
      obtain ⟨c, hc, ownLast⟩ := last
      refine ⟨.error .null, fun fuel enough => ?_⟩
      obtain ⟨more, rfl⟩ : ∃ more, fuel = more + 1 := ⟨fuel - 1, by omega⟩
      rw [deleteFromList_found list own (by omega)]
      exact deleteRest_faults list hc ownLast (by omega) none
  · have missing : ∀ c ∈ cells, c.2.client_fd ≠ client_fd := fun c hc same => own ⟨c, hc, same⟩
    exact ⟨cells.length + 1, .ok ⟨-1, l.heap, l.curr⟩, fun fuel enough => deleteFromList_missing list missing enough⟩

theorem delete_fits (linked : WellLinked l items) {client_fd : Int} (fits : (ListCall.delete client_fd).Fits items)
    {enough : Nat} {r : Except Fault Deleted}
    (ends : ∀ fuel ≥ enough, deleteFromList fuel client_fd l = r.map some) :
    ∃ d, r = .ok d ∧ WellLinked ⟨d.heap, l.head, d.curr⟩ (others client_fd items) := by
  obtain ⟨-, cells, rfl, list⟩ := linked
  obtain ⟨first, last⟩ := fits
  rw [List.head?_map, Option.forall_mem_map] at first
  rw [List.getLast?_map, Option.forall_mem_map] at last
  obtain ⟨enough', d, ends', missing, removed⟩ := deletes_of_ends list first last
  obtain rfl : r = .ok d := delete_unique ends ends'
  refine ⟨d, rfl, ?_⟩
  by_cases own : ∃ item ∈ cells.map Prod.snd, item.client_fd = client_fd
  · exact (removed own).2
  · have apart : ∀ item ∈ cells.map Prod.snd, item.client_fd ≠ client_fd := fun item hitem same => own ⟨item, hitem, same⟩
    rw [missing apart, others, List.filter_eq_self.mpr fun item hitem => by simpa using apart item hitem]
    exact wellLinked_of_cells (l := ⟨l.heap, l.head, l.curr⟩) list

/-- The last job is followed by a NULL, and behind the first one the caller's `head` is left in the air. -/
theorem delete_misfits (linked : WellLinked l items) {client_fd : Int} (misfit : ¬ (ListCall.delete client_fd).Fits items)
    {enough : Nat} {d : Deleted} (ends : ∀ fuel ≥ enough, deleteFromList fuel client_fd l = .ok (some d))
    (items' : List Item) : ¬ WellLinked ⟨d.heap, l.head, d.curr⟩ items' := by
  obtain ⟨-, cells, rfl, list⟩ := linked
  simp only [ListCall.Fits] at misfit
  rw [List.head?_map, List.getLast?_map, Option.forall_mem_map, Option.forall_mem_map] at misfit
  have result := ends (enough + cells.length + 1) (by omega)
  have mine : ∃ c ∈ cells, c.2.client_fd = client_fd := by
    by_contra others
    refine misfit ⟨fun c hc same => others ⟨c, List.mem_of_head? hc, same⟩, fun c hc same => ?_⟩
    exact others ⟨c, List.mem_of_getLast? hc, same⟩
  rw [deleteFromList_found list mine (by omega)] at result
  by_cases last : ∀ c ∈ cells.getLast?, c.2.client_fd ≠ client_fd
  · obtain ⟨r, removed, rest⟩ := deleteRest_removes list last
    rw [rest _ (by omega)] at result
    cases result
    cases cells with
    | nil => exact absurd ⟨by simp, by simp⟩ misfit
    | cons c cells =>
      have own : c.2.client_fd = client_fd := by
        by_contra apart
        refine misfit ⟨fun b hb => ?_, last⟩
        obtain rfl := Option.some.inj hb
        exact apart
      exact not_wellLinked_of_freed list.forward.1 (removed.freed c List.mem_cons_self own)
  · simp only [not_forall, not_not] at last
    obtain ⟨c, hc, ownLast⟩ := last
    rw [deleteRest_faults list hc ownLast (by omega)] at result
    cases result

theorem ListStep.fits (step : ListStep (.ok l) c r) (linked : WellLinked l items) (fits : c.Fits items) :
    ∃ l', r = .ok l' ∧ WellLinked l' (c.effect items) := by
  cases step with
  | add _ c fresh => exact linked.step fresh
  | pop => exact pop_fits linked fits
  | delete _ client_fd enough r ends =>
    obtain ⟨d, rfl, linked'⟩ := delete_fits linked fits ends
    exact ⟨_, rfl, linked'⟩

theorem ListStep.misfits (step : ListStep (.ok l) c r) (linked : WellLinked l items) (misfit : ¬ c.Fits items)
    {l' : JobList} (returned : r = .ok l') (items' : List Item) : ¬ WellLinked l' items' := by
  cases step with
  | add => exact absurd trivial misfit
  | pop =>
    obtain ⟨first, rfl⟩ : ∃ first, items = [first] := List.length_eq_one_iff.mp (not_not.mp misfit)
    rw [pop_last linked] at returned
    cases returned
  | delete _ client_fd enough r ends =>
    cases r with
    | error f => cases returned
    | ok d =>
      cases returned
      exact delete_misfits linked misfit ends items'

/-- No call on a list loops for ever. -/
theorem ListStep.exists (linked : WellLinked l items) (c : ListCall)
    (fresh : ∀ call, c = .add call → ∀ p, call.malloc = some p → l.heap p = none) : ∃ r, ListStep (.ok l) c r := by
  cases c with
  | add call => exact ⟨_, .add l call (fresh call rfl)⟩
  | pop => exact ⟨_, .pop l⟩
  | delete client_fd =>
    obtain ⟨-, cells, -, list⟩ := linked
    obtain ⟨enough, r, ends⟩ := delete_ends list client_fd
    exact ⟨_, .delete l client_fd enough r ends⟩

end Step

/-! ### Any calls -/

/-- Each call fits the jobs that the ones before it have left. -/
def AllFit : List Item → List ListCall → Prop
  | _, [] => True
  | items, c :: calls => c.Fits items ∧ AllFit (c.effect items) calls

theorem allFit_snoc {items : List Item} {calls : List ListCall} {c : ListCall} :
    AllFit items (calls ++ [c]) ↔ AllFit items calls ∧ c.Fits (calls.foldl ListCall.effect items) := by
  induction calls generalizing items with
  | nil => simp [AllFit]
  | cons d calls ih => simp only [List.cons_append, AllFit, ih, List.foldl_cons, and_assoc]

theorem ListStep.run {l : JobList} {items : List Item} (linked : WellLinked l items) {calls : List ListCall}
    {r : Except Fault JobList} (run : Run ListStep (.ok l) calls r) (fit : AllFit items calls) :
    ∃ l', r = .ok l' ∧ WellLinked l' (calls.foldl ListCall.effect items) := by
  refine run.history (P := fun calls r => AllFit items calls →
    ∃ l', r = .ok l' ∧ WellLinked l' (calls.foldl ListCall.effect items)) (fun _ => ⟨l, rfl, linked⟩) ?_ fit
  intro calls r c r' before step fit
  obtain ⟨fitBefore, fitNow⟩ := allFit_snoc.mp fit
  obtain ⟨l', rfl, linked'⟩ := before fitBefore
  rw [List.foldl_append]
  exact step.fits linked' fitNow

/-- Calls that fit keep a list of exactly the jobs that they should leave, which `print_list` prints in
order; each of them ends. The first one that does not fit faults, or leaves no list at all. -/
theorem calls_keep_list {l : JobList} {items : List Item} (linked : WellLinked l items) {calls : List ListCall}
    {r : Except Fault JobList} (run : Run ListStep (.ok l) calls r) (fit : AllFit items calls) :
    ∃ l', r = .ok l' ∧ WellLinked l' (calls.foldl ListCall.effect items) ∧
      (∃ enough, ∀ fuel ≥ enough, printList fuel l' =
        .ok (some ((calls.foldl ListCall.effect items).map Item.line))) ∧
      (∀ c : ListCall, (∀ call, c = .add call → ∀ p, call.malloc = some p → l'.heap p = none) →
        ∃ r', ListStep (.ok l') c r') ∧
      ∀ c r', ListStep (.ok l') c r' → ¬ c.Fits (calls.foldl ListCall.effect items) →
        ∀ l'' items', r' = .ok l'' → ¬ WellLinked l'' items' := by
  obtain ⟨l', rfl, linked'⟩ := ListStep.run linked run fit
  refine ⟨l', rfl, linked', ⟨_, fun fuel enough => linked'.printed (Nat.lt_of_succ_le enough)⟩, ?_, ?_⟩
  · exact fun c fresh => ListStep.exists linked' c fresh
  · exact fun c r' step misfit l'' items' returned => step.misfits linked' misfit returned items'

theorem calls_keep_list_sample : ∃ l, Run ListStep (.ok threeJobs) [.pop, .delete 7] (.ok l) ∧
    WellLinked l [plainItem 2 5, plainItem 3 6] := by
  obtain ⟨popped, first, linked⟩ := pop_first wellLinked_threeJobs
  have pops : Run ListStep (.ok threeJobs) [.pop] (.ok popped) := Run.single (first ▸ .pop threeJobs)
  obtain ⟨r, delete⟩ := ListStep.exists linked (.delete 7) (fun call none => by cases none)
  obtain ⟨l, rfl, linked', -⟩ := calls_keep_list wellLinked_threeJobs (pops.snoc delete) (by
    simp [AllFit, ListCall.Fits, ListCall.effect, plainItem])
  exact ⟨l, pops.snoc delete, by simpa [ListCall.effect, others, plainItem] using linked'⟩

end WorkServer.Queue

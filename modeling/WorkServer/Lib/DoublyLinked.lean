import Mathlib.Data.List.Nodup
import WorkServer.Lib.Heap

/-!
# Doubly linked lists

Cells of a heap that point both ways. A list is what can be followed from either end to a NULL;
a segment is the same with any pointers at its ends, so that it can be cut and joined. An
operation on a list sets one link at the end of a segment, and leaves the others alone.
-/

namespace LinkedHeap

/-- The links of a cell, and what it holds besides. -/
structure Layout (ν α : Type) where
  next : ν → Option Addr
  prev : ν → Option Addr
  content : ν → α

section Lists
variable {ν α : Type}

/-- `link` leads from `start` through the `cells`, each with its content, to `stop`. -/
def Path (link : ν → Option Addr) (content : ν → α) (h : Heap ν) :
    Option Addr → List (Addr × α) → Option Addr → Prop
  | start, [], stop => start = stop
  | start, c :: cs, stop =>
    start = some c.1 ∧ ∃ x, h c.1 = some x ∧ content x = c.2 ∧ Path link content h (link x) cs stop

/-- The same cells from `head` on and, backwards, from `last` on. -/
structure DoublyLinked (lay : Layout ν α) (h : Heap ν) (head last : Option Addr) (cells : List (Addr × α)) :
    Prop where
  distinct : (cells.map Prod.fst).Nodup
  forward : Path lay.next lay.content h head cells none
  backward : Path lay.prev lay.content h last cells.reverse none

/-- Cells linked both ways from `first` to `last`. The first one points back to `before`, the
last one on to `after`. -/
def Segment (lay : Layout ν α) (h : Heap ν) :
    Option Addr → Option Addr → List (Addr × α) → Option Addr → Option Addr → Prop
  | first, before, [], last, after => first = after ∧ last = before
  | first, before, c :: cs, last, after =>
    first = some c.1 ∧ ∃ x, h c.1 = some x ∧ lay.content x = c.2 ∧ lay.prev x = before ∧
      Segment lay h (lay.next x) (some c.1) cs last after

variable {lay : Layout ν α} {h h' : Heap ν} {first before last after : Option Addr} {cs ds : List (Addr × α)}
  {c : Addr × α}

theorem path_append {link : ν → Option Addr} {content : ν → α} {start stop : Option Addr} :
    Path link content h start (cs ++ ds) stop ↔
      ∃ mid, Path link content h start cs mid ∧ Path link content h mid ds stop := by
  induction cs generalizing start with
  | nil => simp [Path]
  | cons c cs ih =>
    simp only [List.cons_append, Path, ih]
    constructor
    · rintro ⟨rfl, x, here, holds, mid, on, rest⟩
      exact ⟨mid, ⟨rfl, x, here, holds, on⟩, rest⟩
    · rintro ⟨mid, ⟨rfl, x, here, holds, on⟩, rest⟩
      exact ⟨rfl, x, here, holds, mid, on, rest⟩

/-- A path to NULL has an end, so it passes through the same cells whenever it is followed. -/
theorem Path.unique {link : ν → Option Addr} {content : ν → α} {start : Option Addr}
    (left : Path link content h start cs none) (right : Path link content h start ds none) : cs = ds := by
  induction cs generalizing start ds with
  | nil =>
    obtain rfl := left
    cases ds with
    | nil => rfl
    | cons d ds => cases right.1
  | cons c cs ih =>
    obtain ⟨rfl, x, here, holds, rest⟩ := left
    cases ds with
    | nil => cases right
    | cons d ds =>
      obtain ⟨same, y, there, holds', rest'⟩ := right
      have addr : c.1 = d.1 := Option.some.inj same
      rw [← addr] at there
      obtain rfl := Option.some.inj (here.symm.trans there)
      rw [ih rest rest', Prod.ext addr (holds.symm.trans holds')]

/-- A segment is its two paths. -/
theorem segment_iff_paths : Segment lay h first before cs last after ↔
    Path lay.next lay.content h first cs after ∧ Path lay.prev lay.content h last cs.reverse before := by
  induction cs generalizing first before with
  | nil => rfl
  | cons c cs ih =>
    simp only [Segment, Path, List.reverse_cons, path_append, ih]
    constructor
    · rintro ⟨rfl, x, here, holds, rfl, on, back⟩
      exact ⟨⟨rfl, x, here, holds, on⟩, some c.1, back, rfl, x, here, holds, rfl⟩
    · rintro ⟨⟨rfl, x, here, holds, on⟩, mid, back, rfl, y, there, -, rfl⟩
      obtain rfl := Option.some.inj (here.symm.trans there)
      exact ⟨rfl, x, here, holds, rfl, on, back⟩

theorem doublyLinked_iff {head : Option Addr} : DoublyLinked lay h head last cs ↔
    (cs.map Prod.fst).Nodup ∧ Segment lay h head none cs last none := by
  rw [segment_iff_paths]
  exact ⟨fun ⟨distinct, on, back⟩ => ⟨distinct, on, back⟩, fun ⟨distinct, on, back⟩ => ⟨distinct, on, back⟩⟩

/-! ### Cutting and joining -/

theorem segment_append : Segment lay h first before (cs ++ ds) last after ↔
    ∃ m n, Segment lay h first before cs m n ∧ Segment lay h n m ds last after := by
  induction cs generalizing first before with
  | nil => simp [Segment]
  | cons c cs ih =>
    simp only [List.cons_append, Segment, ih]
    constructor
    · rintro ⟨rfl, x, here, holds, back, m, n, left, right⟩
      exact ⟨m, n, ⟨rfl, x, here, holds, back, left⟩, right⟩
    · rintro ⟨m, n, ⟨rfl, x, here, holds, back, left⟩, right⟩
      exact ⟨rfl, x, here, holds, back, m, n, left, right⟩

theorem segment_middle : Segment lay h first before (cs ++ c :: ds) last after ↔
    ∃ x, h c.1 = some x ∧ lay.content x = c.2 ∧ Segment lay h first before cs (lay.prev x) (some c.1) ∧
      Segment lay h (lay.next x) (some c.1) ds last after := by
  rw [segment_append]
  simp only [Segment]
  constructor
  · rintro ⟨m, n, left, rfl, x, here, holds, rfl, right⟩
    exact ⟨x, here, holds, left, right⟩
  · rintro ⟨x, here, holds, left, right⟩
    exact ⟨lay.prev x, some c.1, left, rfl, x, here, holds, rfl, right⟩

theorem segment_snoc : Segment lay h first before (cs ++ [c]) last after ↔
    last = some c.1 ∧ ∃ x, h c.1 = some x ∧ lay.content x = c.2 ∧ lay.next x = after ∧
      Segment lay h first before cs (lay.prev x) (some c.1) := by
  rw [segment_middle]
  simp only [Segment]
  constructor
  · rintro ⟨x, here, holds, left, on, rfl⟩
    exact ⟨rfl, x, here, holds, on, left⟩
  · rintro ⟨rfl, x, here, holds, on, left⟩
    exact ⟨x, here, holds, left, on, rfl⟩

theorem Segment.first_mem (seg : Segment lay h first before cs last after) (nonempty : cs ≠ []) :
    ∃ c ∈ cs, first = some c.1 := by
  cases cs with
  | nil => exact absurd rfl nonempty
  | cons c cs => exact ⟨c, List.mem_cons_self, seg.1⟩

theorem Segment.last_mem (seg : Segment lay h first before cs last after) (nonempty : cs ≠ []) :
    ∃ c ∈ cs, last = some c.1 := by
  obtain ⟨ds, d, rfl⟩ := (List.eq_nil_or_concat cs).resolve_left nonempty
  rw [List.concat_eq_append] at seg ⊢
  exact ⟨d, by simp, (segment_snoc.mp seg).1⟩

theorem Segment.first_eq_none_iff (seg : Segment lay h first before cs last none) : first = none ↔ cs = [] := by
  constructor
  · rintro rfl
    by_contra nonempty
    obtain ⟨c, -, same⟩ := seg.first_mem nonempty
    cases same
  · rintro rfl
    exact seg.1

theorem Segment.last_eq_none_iff (seg : Segment lay h first none cs last after) : last = none ↔ cs = [] := by
  constructor
  · rintro rfl
    by_contra nonempty
    obtain ⟨c, -, same⟩ := seg.last_mem nonempty
    cases same
  · rintro rfl
    exact seg.2

/-! ### Writing to a cell -/

/-- The cells of a segment are all that it depends on. -/
theorem Segment.congr (seg : Segment lay h first before cs last after) (same : ∀ c ∈ cs, h' c.1 = h c.1) :
    Segment lay h' first before cs last after := by
  induction cs generalizing first before with
  | nil => exact seg
  | cons c cs ih =>
    obtain ⟨rfl, x, here, holds, back, rest⟩ := seg
    refine ⟨rfl, x, ?_, holds, back, ih rest fun d hd => same d (List.mem_cons_of_mem c hd)⟩
    rw [same c List.mem_cons_self, here]

section Writes
variable {p : Addr} {x y : ν}

theorem Segment.put_other (seg : Segment lay h first before cs last after) (other : p ∉ cs.map Prod.fst) :
    Segment lay (put h p x) first before cs last after := by
  refine seg.congr fun c hc => LinkedHeap.put_other h x ?_
  rintro rfl
  exact other (List.mem_map_of_mem hc)

theorem Segment.free_other (seg : Segment lay h first before cs last after) (other : p ∉ cs.map Prod.fst) :
    Segment lay (free h p) first before cs last after := by
  refine seg.congr fun c hc => if_neg ?_
  rintro rfl
  exact other (List.mem_map_of_mem hc)

/-- A new link on from the last cell. -/
theorem Segment.set_next (seg : Segment lay h first before (cs ++ [c]) last after)
    (distinct : c.1 ∉ cs.map Prod.fst) (here : h c.1 = some x) (content : lay.content y = lay.content x)
    (prev : lay.prev y = lay.prev x) : Segment lay (put h c.1 y) first before (cs ++ [c]) last (lay.next y) := by
  obtain ⟨rfl, x', there, holds, -, left⟩ := segment_snoc.mp seg
  obtain rfl := Option.some.inj (here.symm.trans there)
  refine segment_snoc.mpr ⟨rfl, y, put_same _ _ _, content.trans holds, rfl, ?_⟩
  rw [prev]
  exact left.put_other distinct

/-- A new link back from the first cell. -/
theorem Segment.set_prev (seg : Segment lay h first before (c :: cs) last after)
    (distinct : c.1 ∉ cs.map Prod.fst) (here : h c.1 = some x) (content : lay.content y = lay.content x)
    (next : lay.next y = lay.next x) : Segment lay (put h c.1 y) first (lay.prev y) (c :: cs) last after := by
  obtain ⟨rfl, x', there, holds, -, right⟩ := seg
  obtain rfl := Option.some.inj (here.symm.trans there)
  refine ⟨rfl, y, put_same _ _ _, content.trans holds, rfl, ?_⟩
  rw [next]
  exact right.put_other distinct

end Writes

/-! ### Operations

Each is given by the cells that it writes: the new links are hypotheses, whatever else a cell
holds is kept. -/

theorem Segment.allocated (seg : Segment lay h first before cs last after) (hc : c ∈ cs) : ∃ x, h c.1 = some x := by
  induction cs generalizing first before with
  | nil => cases hc
  | cons d cs ih =>
    obtain ⟨-, x, here, -, -, rest⟩ := seg
    rcases List.mem_cons.mp hc with rfl | later
    · exact ⟨x, here⟩
    · exact ih rest later

theorem Segment.fresh {p : Addr} (seg : Segment lay h first before cs last after) (free : h p = none) :
    p ∉ cs.map Prod.fst := by
  intro hp
  obtain ⟨c, hc, same⟩ := List.mem_map.mp hp
  obtain ⟨x, here⟩ := seg.allocated hc
  exact ne_of_allocated here free same

theorem doublyLinked_nil : DoublyLinked lay h none none [] := ⟨List.nodup_nil, rfl, rfl⟩

section Operations
variable {head : Option Addr} {b d e : Addr × α} {p : Addr} {x x' y y' : ν}

theorem DoublyLinked.apart (list : DoublyLinked lay h head last (cs ++ d :: ds)) (hc : c ∈ cs ++ ds) :
    c.1 ≠ d.1 := by
  have distinct := list.distinct
  rw [List.map_append, List.map_cons, List.nodup_middle, ← List.map_append] at distinct
  intro same
  exact (List.nodup_cons.mp distinct).1 (same ▸ List.mem_map_of_mem hc)

/-- A list does not end in a cell that has others behind it. -/
theorem DoublyLinked.last_ne (list : DoublyLinked lay h head last (cs ++ d :: ds)) (more : ds ≠ []) :
    last ≠ some d.1 := by
  obtain ⟨x, -, -, -, right⟩ := segment_middle.mp (doublyLinked_iff.mp list).2
  obtain ⟨c, hc, same⟩ := right.last_mem more
  rw [same]
  exact fun same => list.apart (List.mem_append_right cs hc) (Option.some.inj same)

theorem DoublyLinked.head_ne (list : DoublyLinked lay h head last (cs ++ d :: ds)) (more : cs ≠ []) :
    head ≠ some d.1 := by
  obtain ⟨x, -, -, left, -⟩ := segment_middle.mp (doublyLinked_iff.mp list).2
  obtain ⟨c, hc, same⟩ := left.first_mem more
  rw [same]
  exact fun same => list.apart (List.mem_append_left ds hc) (Option.some.inj same)

theorem doublyLinked_single (next : lay.next x = none) (prev : lay.prev x = none) :
    DoublyLinked lay (put h p x) (some p) (some p) [(p, lay.content x)] := by
  rw [doublyLinked_iff]
  exact ⟨by simp, rfl, x, put_same _ _ _, rfl, prev, next, rfl⟩

theorem DoublyLinked.push_back (list : DoublyLinked lay h head last (cs ++ [c])) (free : h p = none)
    (here : h c.1 = some y) (content : lay.content y' = lay.content y) (keeps : lay.prev y' = lay.prev y)
    (on : lay.next y' = some p) (stop : lay.next x = none) (back : lay.prev x = last) :
    DoublyLinked lay (put (put h p x) c.1 y') head (some p) (cs ++ [c] ++ [(p, lay.content x)]) := by
  rw [doublyLinked_iff] at list ⊢
  obtain ⟨distinct, seg⟩ := list
  have new := seg.fresh free
  have apart : c.1 ∉ cs.map Prod.fst := by
    rw [List.map_append, List.map_singleton, List.nodup_middle, List.append_nil] at distinct
    exact (List.nodup_cons.mp distinct).1
  have other := (ne_of_allocated here free).symm
  constructor
  · rw [List.map_append, List.map_singleton, List.nodup_middle, List.append_nil]
    exact List.nodup_cons.mpr ⟨new, distinct⟩
  · refine segment_snoc.mpr ⟨rfl, x, (put_other _ _ other).trans (put_same _ _ _), rfl, stop, ?_⟩
    rw [back, ← on]
    exact (seg.put_other new).set_next apart ((put_other _ _ other.symm).trans here) content keeps

theorem DoublyLinked.push_front (list : DoublyLinked lay h head last (c :: cs)) (free : h p = none)
    (here : h c.1 = some y) (content : lay.content y' = lay.content y) (keeps : lay.next y' = lay.next y)
    (back : lay.prev y' = some p) (on : lay.next x = head) (start : lay.prev x = none) :
    DoublyLinked lay (put (put h p x) c.1 y') (some p) last ((p, lay.content x) :: c :: cs) := by
  rw [doublyLinked_iff] at list ⊢
  obtain ⟨distinct, seg⟩ := list
  have new := seg.fresh free
  have apart := (List.nodup_cons.mp distinct).1
  have other := (ne_of_allocated here free).symm
  constructor
  · exact List.nodup_cons.mpr ⟨new, distinct⟩
  · refine ⟨rfl, x, (put_other _ _ other).trans (put_same _ _ _), rfl, start, ?_⟩
    rw [on, ← back]
    exact (seg.put_other new).set_prev apart ((put_other _ _ other.symm).trans here) content keeps

theorem DoublyLinked.pop_front (list : DoublyLinked lay h head last (c :: d :: cs)) (here : h d.1 = some y)
    (content : lay.content y' = lay.content y) (keeps : lay.next y' = lay.next y) (start : lay.prev y' = none) :
    DoublyLinked lay (free (put h d.1 y') c.1) (some d.1) last (d :: cs) := by
  rw [doublyLinked_iff] at list ⊢
  obtain ⟨distinct, -, x, -, -, -, rest⟩ := list
  obtain ⟨gone, distinct⟩ := List.nodup_cons.mp distinct
  refine ⟨distinct, ?_⟩
  have first := rest.1
  have seg := rest.set_prev (List.nodup_cons.mp distinct).1 here content keeps
  rw [start, first] at seg
  exact seg.free_other gone

/-- The cell between `b` and `e` is taken out. -/
theorem DoublyLinked.remove (list : DoublyLinked lay h head last (cs ++ [b] ++ d :: e :: ds))
    (left : h b.1 = some x) (contentLeft : lay.content x' = lay.content x) (keepsLeft : lay.prev x' = lay.prev x)
    (on : lay.next x' = some e.1) (right : h e.1 = some y) (contentRight : lay.content y' = lay.content y)
    (keepsRight : lay.next y' = lay.next y) (back : lay.prev y' = some b.1) :
    DoublyLinked lay (free (put (put h b.1 x') e.1 y') d.1) head last (cs ++ [b] ++ e :: ds) := by
  rw [doublyLinked_iff] at list ⊢
  obtain ⟨distinct, seg⟩ := list
  obtain ⟨z, -, -, before, rest⟩ := segment_middle.mp seg
  have first := rest.1
  have final := (segment_snoc.mp before).1
  simp only [List.map_append, List.map_cons, List.map_nil] at distinct ⊢
  obtain ⟨gone, distinct⟩ := List.nodup_cons.mp (List.nodup_middle.mp distinct)
  refine ⟨distinct, ?_⟩
  obtain ⟨startOnly, -⟩ := List.nodup_cons.mp (List.nodup_middle.mp distinct)
  rw [List.append_assoc, List.singleton_append, List.nodup_middle] at distinct
  obtain ⟨endOnly, -⟩ := List.nodup_cons.mp distinct
  simp only [List.mem_append, List.mem_cons, List.not_mem_nil, or_false, not_or] at gone startOnly endOnly
  have onward : Segment lay (put h b.1 x') head none (cs ++ [b]) (some b.1) (some e.1) := by
    have moved := before.set_next endOnly.1 left contentLeft keepsLeft
    rwa [on, final] at moved
  have backward : Segment lay (put (put h b.1 x') e.1 y') (some e.1) (some b.1) (e :: ds) last none := by
    have kept := rest.put_other (p := b.1) (x := x') (by simpa using endOnly.2)
    have moved := kept.set_prev startOnly.2 ((put_other _ _ startOnly.1.2).trans right) contentRight keepsRight
    rwa [back, first] at moved
  refine segment_append.mpr ⟨some b.1, some e.1, ?_, ?_⟩
  · exact (onward.put_other (by simpa using startOnly.1)).free_other (by simpa using gone.1)
  · exact backward.free_other (by simpa using gone.2)

end Operations

end Lists

end LinkedHeap

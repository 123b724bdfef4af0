import WorkServer.Handler.Framing
import WorkServer.Handler.Leftover

/-!
# Replies and the byte stream

A handler takes each read for a message: it keeps nothing of a read for the next one. So
its replies are the turns of its reads, one by one, and two cuttings of one stream get the
same reply where they put the same bytes in one read. Elsewhere they need not: already the
number of the replies is that of the reads.
-/

namespace WorkServer
open Tracing CString Lines

def stream (reads : List Message) : List BYTE := (reads.map Message.bytes).flatten

/-- `reads` is a way of cutting a stream of NUL-free messages. -/
structure Cuts (lines : List (List BYTE)) (reads : List Message) : Prop where
  framed : ∀ l ∈ lines, Framed l
  begun : ∀ m ∈ reads, m.bytes ≠ []
  whole : stream reads = lines.flatten

theorem Cuts.text_ne_nil {lines : List (List BYTE)} {reads : List Message} (cuts : Cuts lines reads)
    {m : Message} (hm : m ∈ reads) : m.text ≠ [] := by
  rw [text_of_literal]
  · exact cuts.begun m hm
  · intro c hc
    have inside : c ∈ stream reads := List.mem_flatten.mpr ⟨m.bytes, List.mem_map_of_mem hm, hc⟩
    rw [cuts.whole] at inside
    obtain ⟨l, hl, hc⟩ := List.mem_flatten.mp inside
    exact (cuts.framed l hl).1 c hc

/-- What two turns have to find in common: the counter, and whether the fifth byte of `firstFour`
is NUL. -/
structure Found.Agrees (f g : Found) : Prop where
  work_num : f.work_num = g.work_num
  fifth : entry f.firstFour 4 = 0 ↔ entry g.firstFour 4 = 0

theorem Found.Agrees.refl (f : Found) : f.Agrees f := ⟨rfl, Iff.rfl⟩

/-- The turns of a list up to the first that is no answer. -/
def throughStop : List Turn → List Turn
  | .answers bytes :: rest => .answers bytes :: throughStop rest
  | t :: _ => [t]
  | [] => []

theorem throughStop_getElem {ts : List Turn} {j : Nat} {t : Turn} (taken : (throughStop ts)[j]? = some t) :
    ts[j]? = some t := by
  induction ts generalizing j with
  | nil => cases taken
  | cons first rest ih =>
    cases j with
    | zero => cases first <;> exact taken
    | succ j =>
      cases first with
      | answers bytes => exact ih taken
      | leaves | searching => cases taken

section Serve
variable (env : Env) (fuel : Nat)

theorem serve_cons (found : Nat → Found) (k : Nat) (m : Message) (rest : List Message) :
    (serve env fuel found k (m :: rest)).val =
      (turn env fuel (found k).work_num (found k).firstFour (found k).buffer m).val ::
        match (turn env fuel (found k).work_num (found k).firstFour (found k).buffer m).val with
        | .answers _ => (serve env fuel found (k + 1) rest).val
        | _ => [] := by
  simp only [serve, val_bind]
  cases (turn env fuel (found k).work_num (found k).firstFour (found k).buffer m).val <;> rfl

variable {env} {other : Nat → Env} {found left : Nat → Found}

theorem serve_turns (same : ∀ k, Alike env (other k)) (agree : ∀ k, (found k).Agrees (left k))
    (reads : List Message) (k : Nat) : (serve env fuel found k reads).val =
      throughStop (reads.mapIdx fun j m => (turn (other (k + j)) fuel (left (k + j)).work_num
        (left (k + j)).firstFour (left (k + j)).buffer m).val) := by
  induction reads generalizing k with
  | nil => rfl
  | cons m rest ih =>
    have first := turn_alike (same k) fuel (found k).work_num (agree k).fifth (found k).buffer (left k).buffer m
    rw [(agree k).work_num] at first
    rw [serve_cons, (agree k).work_num, first, List.mapIdx_cons, Nat.add_zero, ih (k + 1)]
    simp only [Nat.add_right_comm k 1, Nat.add_assoc k]
    cases (turn (other k) fuel (left k).work_num (left k).firstFour (left k).buffer m).val <;> rfl

theorem serve_getElem {reads : List Message} {j : Nat} {t : Turn}
    (taken : (serve env fuel found 0 reads).val[j]? = some t) : ∃ m, reads[j]? = some m ∧ t =
      (turn env fuel (found j).work_num (found j).firstFour (found j).buffer m).val := by
  rw [serve_turns fuel (fun _ => .refl env) (fun k => .refl (found k))] at taken
  have place := throughStop_getElem taken
  rw [List.getElem?_mapIdx, Option.map_eq_some_iff] at place
  obtain ⟨m, read, rfl⟩ := place
  exact ⟨m, read, by rw [Nat.zero_add]⟩

variable (env found)

theorem turn_stays (work_num : Int) (firstFour : Arr 5) (buffer : Arr 256) {m : Message} (begun : m.text ≠ []) :
    (turn env fuel work_num firstFour buffer m).val ≠ .leaves := by
  rw [turn_val, if_neg begun]
  cases (respond env fuel work_num firstFour m.buffer).val <;> exact fun left => by cases left

theorem Cuts.stays {lines : List (List BYTE)} {reads : List Message} (cuts : Cuts lines reads) :
    .leaves ∉ (serve env fuel found 0 reads).val := by
  intro left
  obtain ⟨j, taken⟩ := List.mem_iff_getElem?.mp left
  obtain ⟨m, read, leaves⟩ := serve_getElem fuel taken
  exact turn_stays env fuel _ _ _ (cuts.text_ne_nil (List.mem_of_getElem? read)) leaves.symm

end Serve

def ping : Message := ⟨ascii "PING\r\n", by decide⟩

def front : Message := ⟨ascii "PI", by decide⟩

def back : Message := ⟨ascii "NG\r\n", by decide⟩

end WorkServer

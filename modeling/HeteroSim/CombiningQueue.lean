import Mathlib.Data.List.Nodup

/-!
Histories of a FIFO queue of pending writes that takes a second write to a
waiting address in and answers reads of it. `waiting` replays the queue from
the history; `Legal` is the queue's discipline on it. Newest entries first.
-/

namespace HeteroSim.CombiningQueue

/-- A request is presented; it meets a waiting write of its address, joins the
queue, or goes out; and writes leave the queue. -/
inductive Note (α : Type) where
  | presented (a : α) (w : Bool)
  | merged (a : α)
  | forwarded (a : α)
  | accepted (a : α)
  | committed (a : α) (w : Bool)

section Histories

variable {α : Type}

/-- The addresses in the queue, oldest first. -/
def waiting : List (Note α) → List α
  | [] => []
  | .accepted a :: older => waiting older ++ [a]
  | .committed _ true :: older => (waiting older).tail
  | .committed _ false :: older => waiting older
  | .presented _ _ :: older => waiting older
  | .merged _ :: older => waiting older
  | .forwarded _ :: older => waiting older

def Allowed (queue : List α) : Note α → Prop
  | .presented _ _ => True
  | .merged a => a ∈ queue
  | .forwarded a => a ∈ queue
  | .accepted a => a ∉ queue
  | .committed a true => queue.head? = some a
  | .committed a false => a ∉ queue

def Legal : List (Note α) → Prop
  | [] => True
  | note :: older => Allowed (waiting older) note ∧ Legal older

/-- The writes that joined the queue, oldest first. -/
def accepted : List (Note α) → List α
  | [] => []
  | .accepted a :: older => accepted older ++ [a]
  | _ :: older => accepted older

/-- The writes that left the queue, oldest first. -/
def issued : List (Note α) → List α
  | [] => []
  | .committed a true :: older => issued older ++ [a]
  | _ :: older => issued older

/-- The requests of a history. -/
def presented : List (Note α) → List (α × Bool)
  | [] => []
  | .presented a w :: older => (a, w) :: presented older
  | _ :: older => presented older

/-- What a note settles: a write that merges or joins the queue, a read that is
forwarded or fetched. -/
def Note.settles : Note α → Option (α × Bool)
  | .merged a => some (a, true)
  | .accepted a => some (a, true)
  | .forwarded a => some (a, false)
  | .committed a false => some (a, false)
  | .committed _ true => none
  | .presented _ _ => none

/-- The requests a history settled. -/
def settled (trace : List (Note α)) : List (α × Bool) := trace.filterMap Note.settles

def Note.isMerged : Note α → Bool
  | .merged _ => true
  | _ => false

def Note.isForwarded : Note α → Bool
  | .forwarded _ => true
  | _ => false

def Note.isCommitted : Note α → Bool
  | .committed _ _ => true
  | _ => false

theorem waiting_nodup (trace : List (Note α)) (legal : Legal trace) : (waiting trace).Nodup := by
  induction trace with
  | nil => exact List.nodup_nil
  | cons note older ih =>
      obtain ⟨allowed, before⟩ := legal
      have nodup := ih before
      cases note with
      | accepted a =>
          rw [waiting, List.nodup_append]
          refine ⟨nodup, List.nodup_singleton a, ?_⟩
          intro b old c new same
          rw [List.mem_singleton.mp new] at same
          exact allowed (same ▸ old)
      | committed a w =>
          cases w with
          | true => exact nodup.sublist (List.tail_sublist _)
          | false => exact nodup
      | presented a w => exact nodup
      | merged a => exact nodup
      | forwarded a => exact nodup

theorem fifo (trace : List (Note α)) (legal : Legal trace) :
    accepted trace = issued trace ++ waiting trace := by
  induction trace with
  | nil => rfl
  | cons note older ih =>
      obtain ⟨allowed, before⟩ := legal
      have kept := ih before
      cases note with
      | accepted a => simp [accepted, issued, waiting, kept]
      | committed a w =>
          cases w with
          | true =>
              obtain ⟨rest, split⟩ := List.head?_eq_some_iff.mp allowed
              rw [split] at kept
              simp [accepted, issued, waiting, kept, split]
          | false => simpa [accepted, issued, waiting] using kept
      | presented a w => simpa [accepted, issued, waiting] using kept
      | merged a => simpa [accepted, issued, waiting] using kept
      | forwarded a => simpa [accepted, issued, waiting] using kept

theorem balance (trace : List (Note α)) (legal : Legal trace) :
    trace.countP Note.isCommitted + (waiting trace).length + trace.countP Note.isMerged +
      trace.countP Note.isForwarded = (settled trace).length := by
  induction trace with
  | nil => rfl
  | cons note older ih =>
      obtain ⟨allowed, before⟩ := legal
      have kept := ih before
      cases note with
      | committed a w =>
          cases w with
          | true =>
              obtain ⟨rest, split⟩ := List.head?_eq_some_iff.mp allowed
              rw [split] at kept
              simp only [List.countP_cons, Note.isCommitted, Note.isMerged, Note.isForwarded,
                waiting, split, settled, List.filterMap_cons, Note.settles, List.length_cons,
                List.tail_cons] at kept ⊢
              simp only [if_true, Bool.false_eq_true, if_false]
              omega
          | false =>
              simp only [List.countP_cons, Note.isCommitted, Note.isMerged, Note.isForwarded,
                waiting, settled, List.filterMap_cons, Note.settles, List.length_cons] at kept ⊢
              simp only [if_true, Bool.false_eq_true, if_false]
              omega
      | _ =>
          simp only [List.countP_cons, Note.isCommitted, Note.isMerged, Note.isForwarded,
            waiting, settled, List.filterMap_cons, Note.settles, List.length_cons,
            List.length_append, List.length_nil] at kept ⊢
          simp only [if_true, Bool.false_eq_true, if_false]
          omega

end Histories

end HeteroSim.CombiningQueue

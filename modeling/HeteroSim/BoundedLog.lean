import Mathlib.Data.List.Basic

/-!
A log of bounded length that drops its oldest line to take a new one.
-/

namespace HeteroSim.BoundedLog

variable {A : Type}

def push (bound : Nat) (log : List A) (line : A) : List A :=
  (if log.length = bound then log.tail else log) ++ [line]

def last (bound : Nat) (lines : List A) : List A :=
  lines.drop (lines.length - bound)

theorem push_last {bound : Nat} (room : 0 < bound) (lines : List A) (line : A) :
    push bound (last bound lines) line = last bound (lines ++ [line]) := by
  have length : (last bound lines).length = min bound lines.length := by
    rw [last, List.length_drop]
    omega
  by_cases full : bound ≤ lines.length
  · have tail : (last bound lines).tail = lines.drop (lines.length + 1 - bound) := by
      rw [last, List.tail_drop]
      congr 1
      omega
    rw [push, if_pos (by omega), tail, last, List.length_append, List.length_singleton,
      List.drop_append_of_le_length (by omega)]
  · have short : lines.length - bound = 0 := by omega
    rw [push, if_neg (by omega), last, last, short, List.length_append, List.length_singleton,
      show lines.length + 1 - bound = 0 by omega, List.drop_zero, List.drop_zero]

end HeteroSim.BoundedLog

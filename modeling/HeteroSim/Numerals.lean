import Mathlib.Data.List.Basic
import Mathlib.Tactic.Ring

/-!
Numerals as texts. A digit is a decimal figure or a letter of either case, worth ten and
up; a radix says which digits there are. Integers are written in decimal with a minus.
-/

namespace HeteroSim.Numerals

def digit (c : Char) : Option Nat :=
  if c.isDigit then some (c.toNat - 48)
  else if c.isLower then some (c.toNat - 87)
  else if c.isUpper then some (c.toNat - 55)
  else none

def toDigit (radix : Nat) (c : Char) : Option Nat := (digit c).filter fun d => decide (d < radix)

/-- The number that digits after `n` make. -/
def digitsFrom (radix : Nat) : Nat → List Char → Option Nat
  | n, [] => some n
  | n, c :: rest =>
      match toDigit radix c with
      | some d => digitsFrom radix (n * radix + d) rest
      | none => none

def numeral (radix : Nat) (text : List Char) : Option Nat :=
  if text = [] then none else digitsFrom radix 0 text

def spelled : Int → List Char
  | .ofNat n => Nat.toDigits 10 n
  | .negSucc n => '-' :: Nat.toDigits 10 (n + 1)

section Digits

variable {radix : Nat}

theorem isDigit_bounds (c : Char) : c.isDigit = true ↔ 48 ≤ c.toNat ∧ c.toNat ≤ 57 := by
  simp only [Char.isDigit, Char.toNat, Bool.and_eq_true, decide_eq_true_eq, ge_iff_le,
    UInt32.le_iff_toNat_le]
  rfl

theorem isLower_bounds (c : Char) : c.isLower = true ↔ 97 ≤ c.toNat ∧ c.toNat ≤ 122 := by
  delta Char.isLower Char.toNat
  simp only [Bool.and_eq_true, decide_eq_true_eq, ge_iff_le, UInt32.le_iff_toNat_le]
  rfl

theorem isUpper_bounds (c : Char) : c.isUpper = true ↔ 65 ≤ c.toNat ∧ c.toNat ≤ 90 := by
  delta Char.isUpper Char.toNat
  simp only [decide_eq_true_eq, ge_iff_le, UInt32.le_iff_toNat_le]
  rfl

theorem isUpper_range (c : Char) : c.isUpper = true ↔ 'A'.val ≤ c.val ∧ c.val ≤ 'Z'.val := by
  delta Char.isUpper
  exact decide_eq_true_iff

theorem isAlpha_bounds (c : Char) : c.isAlpha = true ↔
    (65 ≤ c.toNat ∧ c.toNat ≤ 90) ∨ 97 ≤ c.toNat ∧ c.toNat ≤ 122 := by
  rw [← isUpper_bounds, ← isLower_bounds]
  exact Bool.or_eq_true_iff

theorem toLower_upper {c : Char} (upper : c.isUpper = true) : c.toLower.toNat = c.toNat + 32 := by
  have bounds := (isUpper_bounds c).mp upper
  have lower : c.toLower.val = c.val + 32 := by
    delta Char.toLower
    rw [dif_pos ((isUpper_range c).mp upper)]
    rfl
  show c.toLower.val.toNat = c.val.toNat + 32
  rw [lower]
  rw [UInt32.toNat_add, show (32 : UInt32).toNat = 32 from rfl]
  exact Nat.mod_eq_of_lt (by simp only [Char.toNat] at bounds; omega)

theorem toLower_other {c : Char} (other : c.isUpper = false) : c.toLower = c := by
  have range : ¬ ('A'.val ≤ c.val ∧ c.val ≤ 'Z'.val) := by
    rw [← isUpper_range, other]
    exact Bool.false_ne_true
  delta Char.toLower
  rw [dif_neg range]

theorem toLower_toLower (c : Char) : c.toLower.toLower = c.toLower := by
  cases upper : c.isUpper with
  | false => rw [toLower_other upper, toLower_other upper]
  | true =>
      have lower := toLower_upper upper
      have bounds := (isUpper_bounds c).mp upper
      apply toLower_other
      rw [Bool.eq_false_iff, ne_eq, isUpper_bounds]
      omega

theorem digit_toLower (c : Char) : digit c.toLower = digit c := by
  cases upper : c.isUpper with
  | false => rw [toLower_other upper]
  | true =>
      have lower := toLower_upper upper
      have bounds := (isUpper_bounds c).mp upper
      have notDigit : c.isDigit = false := by
        rw [Bool.eq_false_iff, ne_eq, isDigit_bounds]
        omega
      have notLower : c.isLower = false := by
        rw [Bool.eq_false_iff, ne_eq, isLower_bounds]
        omega
      have notDigit' : c.toLower.isDigit = false := by
        rw [Bool.eq_false_iff, ne_eq, isDigit_bounds]
        omega
      have isLower' : c.toLower.isLower = true := by
        rw [isLower_bounds]
        omega
      simp only [digit, notDigit, notLower, upper, notDigit', isLower', if_true, Bool.false_eq_true,
        if_false, lower]
      congr 1

theorem digitsFrom_lower (n : Nat) (text : List Char) :
    digitsFrom radix n (text.map Char.toLower) = digitsFrom radix n text := by
  induction text generalizing n with
  | nil => rfl
  | cons c rest ih => simp only [List.map_cons, digitsFrom, toDigit, digit_toLower, ih]

theorem numeral_lower (text : List Char) :
    numeral radix (text.map Char.toLower) = numeral radix text := by
  simp only [numeral, List.map_eq_nil_iff, digitsFrom_lower]

theorem toDigit_some {c : Char} {d : Nat} : toDigit radix c = some d ↔ digit c =
    some d ∧ d < radix := by
  simp only [toDigit, Option.filter_eq_some_iff, decide_eq_true_eq]

theorem digitsFrom_digits {n m : Nat} {text : List Char} (read : digitsFrom radix n text = some m) :
    ∀ c ∈ text, ∃ d, toDigit radix c = some d := by
  induction text generalizing n with
  | nil => exact fun c member => absurd member List.not_mem_nil
  | cons c rest ih =>
      rw [digitsFrom] at read
      cases known : toDigit radix c with
      | none => rw [known] at read; cases read
      | some d =>
          rw [known] at read
          exact List.forall_mem_cons.mpr ⟨⟨d, known⟩, ih read⟩

theorem numeral_digits {n : Nat} {text : List Char} (read : numeral radix text = some n) :
    text ≠ [] ∧ ∀ c ∈ text, ∃ d, toDigit radix c = some d := by
  rw [numeral] at read
  split at read
  next => cases read
  next nonempty => exact ⟨nonempty, digitsFrom_digits read⟩

theorem toDigit_isDigit {c : Char} (figure : c.isDigit = true) : toDigit 10 c =
    some (c.toNat - 48) := by
  have bounds := (isDigit_bounds c).mp figure
  rw [toDigit_some, digit, if_pos figure]
  exact ⟨rfl, by omega⟩

theorem isDigit_toDigit {c : Char} {d : Nat} (known : toDigit 10 c = some d) :
    c.isDigit = true := by
  obtain ⟨worth, small⟩ := toDigit_some.mp known
  by_contra other
  rw [digit, if_neg other] at worth
  split at worth
  next lower =>
    have bounds := (isLower_bounds c).mp lower
    cases worth
    omega
  next =>
    split at worth
    next upper =>
      have bounds := (isUpper_bounds c).mp upper
      cases worth
      omega
    next => cases worth

theorem digitsFrom_decimal (n : Nat) (text : List Char) (figures : ∀ c ∈ text, c.isDigit = true) :
    digitsFrom 10 n text = some (Nat.ofDigitChars 10 text n) := by
  induction text generalizing n with
  | nil => rfl
  | cons c rest ih =>
      obtain ⟨first, others⟩ := List.forall_mem_cons.mp figures
      rw [digitsFrom, toDigit_isDigit first]
      simp only [ih _ others, Nat.ofDigitChars_cons, Nat.mul_comm n]
      rfl

theorem numeral_toDigits (n : Nat) : numeral 10 (Nat.toDigits 10 n) = some n := by
  have figures : ∀ c ∈ Nat.toDigits 10 n, c.isDigit = true := fun c member =>
    Nat.isDigit_of_mem_toDigits (by decide) (by decide) member
  rw [numeral, if_neg Nat.toDigits_ne_nil, digitsFrom_decimal 0 _ figures,
    Nat.ofDigitChars_ten_toDigits]

end Digits

end HeteroSim.Numerals

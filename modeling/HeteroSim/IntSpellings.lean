import HeteroSim.Numerals

/-!
Integers as they are typed: the GUI's `parse_int` against Python's `int(s, 0)` and the
sizes the GUI takes besides. Texts are lists of ASCII characters. What an `i64` cannot
hold is an overflow, which panics or wraps by how the program was built. Python is without
its limit on the number of figures.
-/

namespace HeteroSim.IntSpellings

open Numerals

def InI64 (v : Int) : Prop := -2 ^ 63 ≤ v ∧ v < 2 ^ 63

instance (v : Int) : Decidable (InI64 v) := inferInstanceAs (Decidable (_ ∧ _))

/-! ### `parse_int` -/

inductive Panic where
  | overflow
  deriving DecidableEq

def checked (v : Int) : Except Panic Int := if InI64 v then .ok v else .error .overflow

def signedDigits (radix : Nat) : List Char → Option Int
  | '+' :: ds => (numeral radix ds).map fun n : Nat => (n : Int)
  | '-' :: ds => (numeral radix ds).map fun n : Nat => -(n : Int)
  | ds => (numeral radix ds).map fun n : Nat => (n : Int)

/-- `i64::from_str_radix`. -/
def fromStrRadix (radix : Nat) (text : List Char) : Option Int :=
  (signedDigits radix text).filter fun v => decide (InI64 v)

/-- The radix of `0x`, `0o` and `0b`. -/
def prefixRadix (c : Char) : Option Nat :=
  if c = 'x' then some 16 else if c = 'o' then some 8 else if c = 'b' then some 2 else none

def prefixed : List Char → Option (Nat × List Char)
  | '0' :: c :: rest => (prefixRadix c.toLower).map fun radix => (radix, rest)
  | _ => none

def stripSuffix (c : Char) (text : List Char) : Option (List Char) :=
  if text.getLast? = some c then some text.dropLast else none

/-- `strip_prefix('-')`. -/
def minus : List Char → Bool × List Char
  | '-' :: body => (true, body)
  | body => (false, body)

/-- `x * 1024`, once or twice. -/
def scaled (units : List Int) : Option Int → Except Panic (Option Int)
  | none => .ok none
  | some x => (units.foldlM (fun x unit => checked (x * unit)) x).map some

def parseBody (body : List Char) : Except Panic (Option Int) :=
  let lower := body.map Char.toLower
  match prefixed lower with
  | some (radix, digits) => .ok (fromStrRadix radix digits)
  | none =>
      match stripSuffix 'k' lower with
      | some k => scaled [1024] (fromStrRadix 10 k)
      | none =>
          match stripSuffix 'm' lower with
          | some m => scaled [1024, 1024] (fromStrRadix 10 m)
          | none => .ok (fromStrRadix 10 lower)

def negated : Option Int → Except Panic (Option Int)
  | none => .ok none
  | some n => (checked (-n)).map some

/-- `v.replace('_', "")`. -/
def withoutUnderscores (v : List Char) : List Char := v.filter fun c => c != '_'

def parseInt (v : List Char) : Except Panic (Option Int) := do
  let (neg, body) := minus (withoutUnderscores v)
  let n ← parseBody body
  if neg then negated n else .ok n

/-! ### Python -/

def blank (c : Char) : Bool := c ∈ [' ', '\t', '\n', '\x0b', '\x0c', '\r']

def strip (s : List Char) : List Char := ((s.dropWhile blank).reverse.dropWhile blank).reverse

/-- Digits after `n`, with single underscores between them. An underscore is `barred` at
the start and after another, and so is the end. -/
def pyDigits (radix : Nat) : Bool → Nat → List Char → Option Nat
  | barred, n, [] => if barred then none else some n
  | barred, n, c :: rest =>
      if c = '_' then if barred then none else pyDigits radix true n rest
      else
        match toDigit radix c with
        | some d => pyDigits radix false (n * radix + d) rest
        | none => none

def pyMagnitude (body : List Char) : Option Nat :=
  match prefixed body with
  -- One underscore is allowed after the prefix.
  | some (radix, '_' :: digits) => pyDigits radix true 0 digits
  | some (radix, digits) => pyDigits radix true 0 digits
  | none =>
      -- What looks like an octal number of C's can only be zero.
      if body.head? = some '0' then (pyDigits 10 true 0 body).filter fun n => n == 0
      else pyDigits 10 true 0 body

/-- `int(s, 0)`. -/
def pyInt (s : List Char) : Option Int :=
  match strip s with
  | '+' :: body => (pyMagnitude body).map fun n : Nat => (n : Int)
  | '-' :: body => (pyMagnitude body).map fun n : Nat => -(n : Int)
  | body => (pyMagnitude body).map fun n : Nat => (n : Int)

/-! ### What the GUI should take -/

def unitOf (c : Char) : Option Nat :=
  if c = 'k' ∨ c = 'K' then some 1024 else if c = 'm' ∨ c = 'M' then some (1024 * 1024) else none

structure Size where
  neg : Bool
  count : Nat
  unit : Nat

def Size.value (size : Size) : Int :=
  if size.neg then -((size.count * size.unit : Nat) : Int) else (size.count * size.unit : Nat)

/-- An optional minus, decimal digits and a suffix. -/
def sized (s : List Char) : Option Size := do
  let (neg, body) := minus s
  let unit ← body.getLast?.bind unitOf
  let count ← numeral 10 body.dropLast
  return { neg := neg, count := count, unit := unit }

def Denotes (s : List Char) (v : Int) : Prop :=
  pyInt s = some v ∨ ∃ size, sized s = some size ∧ size.value = v

/-- No overflow, and the value that the text denotes, if an `i64` holds it. -/
def Conforms (s : List Char) : Prop :=
  ∃ result, parseInt s = .ok result ∧ ∀ v, result = some v ↔ Denotes s v ∧ InI64 v

/-! ### Where it does -/

/-- What of a body is read as digits, and in which radix: the prefix or the suffix is off. -/
def bodyDigits (body : List Char) : Nat × List Char :=
  let lower := body.map Char.toLower
  match prefixed lower with
  | some read => read
  | none =>
      if lower.getLast? = some 'k' ∨ lower.getLast? = some 'm' then (10, lower.dropLast)
      else (10, lower)

/-- The same of a text, whose underscores go first, wherever they stand, and one minus. -/
def digitsOf (s : List Char) : Nat × List Char := bodyDigits (minus (withoutUnderscores s)).2

def PlusPrefixed (s : List Char) : Prop := ∃ body, s = '+' :: body ∧ (prefixed body).isSome

/-- A Python spelling is not of the least `i64`, and has no plus before a base prefix unless
it is too large; a size whose digits an `i64` holds is one that it holds itself; and what
is neither has not the digits of an `i64`. -/
structure Regular (s : List Char) : Prop where
  python : ∀ v, pyInt s = some v → v ≠ -2 ^ 63 ∧ (PlusPrefixed s → 2 ^ 63 ≤ v)
  size : ∀ size, sized s = some size → size.count < 2 ^ 63 → size.count * size.unit < 2 ^ 63
  other : pyInt s = none → sized s = none → fromStrRadix (digitsOf s).1 (digitsOf s).2 = none

/-! ### Reading digits -/

section Reading

variable {radix : Nat}

theorem fromStrRadix_plain (text : List Char) (plus : text.head? ≠ some '+')
    (minus : text.head? ≠ some '-') : fromStrRadix radix text =
      ((numeral radix text).map fun n : Nat => (n : Int)).filter fun v => decide (InI64 v) := by
  rw [fromStrRadix]
  unfold signedDigits
  split
  next => exact absurd rfl plus
  next => exact absurd rfl minus
  next => rfl

theorem filter_range (n : Nat) : (some (n : Int)).filter (fun v => decide (InI64 v)) =
    if n < 2 ^ 63 then some (n : Int) else none := by
  have range : InI64 (n : Int) ↔ n < 2 ^ 63 := by
    simp only [InI64]
    omega
  simp only [Option.filter_some, range, decide_eq_true_eq]

theorem numeral_head {text : List Char} {n : Nat} (read : numeral radix text = some n) :
    text.head? ≠ some '+' ∧ text.head? ≠ some '-' := by
  obtain ⟨nonempty, digits⟩ := numeral_digits read
  cases text with
  | nil => exact absurd rfl nonempty
  | cons c rest =>
      obtain ⟨d, first⟩ := digits c List.mem_cons_self
      constructor
      · rintro ⟨⟩
        cases first
      · rintro ⟨⟩
        cases first

theorem fromStrRadix_numeral {text : List Char} {n : Nat} (read : numeral radix text = some n) :
    fromStrRadix radix text = if n < 2 ^ 63 then some (n : Int) else none := by
  obtain ⟨plus, minus⟩ := numeral_head read
  rw [fromStrRadix_plain text plus minus, read]
  exact filter_range n

theorem pyDigits_read {barred : Bool} {n m : Nat} {text : List Char}
    (read : pyDigits radix barred n text = some m) :
    digitsFrom radix n (withoutUnderscores text) = some m ∧
      (barred = true → withoutUnderscores text ≠ []) := by
  induction text generalizing barred n with
  | nil =>
      rw [pyDigits] at read
      cases barred with
      | true => cases read
      | false => exact ⟨read, fun bar => absurd bar Bool.false_ne_true⟩
  | cons c rest ih =>
      rw [pyDigits] at read
      by_cases underscore : c = '_'
      · subst underscore
        rw [if_pos rfl] at read
        cases barred with
        | true => cases read
        | false => exact ⟨(ih read).1, fun bar => absurd bar Bool.false_ne_true⟩
      · have kept : withoutUnderscores (c :: rest) = c :: withoutUnderscores rest :=
          List.filter_cons_of_pos (by simpa using underscore)
        rw [if_neg underscore] at read
        cases known : toDigit radix c with
        | none => rw [known] at read; cases read
        | some d =>
            rw [known] at read
            refine ⟨?_, fun _ => by rw [kept]; exact List.cons_ne_nil _ _⟩
            rw [kept, digitsFrom, known]
            exact (ih read).1

theorem pyDigits_numeral {n : Nat} {text : List Char} (read : pyDigits radix true 0 text = some n) :
    numeral radix (withoutUnderscores text) = some n := by
  obtain ⟨digits, nonempty⟩ := pyDigits_read read
  rw [numeral, if_neg (nonempty rfl)]
  exact digits

theorem prefixed_some {text rest : List Char} : prefixed text = some (radix, rest) ↔
    ∃ c, text = '0' :: c :: rest ∧ prefixRadix c.toLower = some radix := by
  unfold prefixed
  split
  next c others =>
    constructor
    · intro same
      obtain ⟨radix, known, pair⟩ := Option.map_eq_some_iff.mp same
      cases pair
      exact ⟨c, rfl, known⟩
    · rintro ⟨d, same, known⟩
      cases same
      rw [known]
      rfl
  next other =>
    constructor
    · intro none
      cases none
    · rintro ⟨c, same, _⟩
      exact absurd same (other c rest)

theorem prefixRadix_small {c : Char} (known : prefixRadix c = some radix) : radix ≤ 16 := by
  unfold prefixRadix at known
  split at known
  next => cases known; decide
  next =>
    split at known
    next => cases known; decide
    next =>
      split at known
      next => cases known; decide
      next => cases known

theorem pyMagnitude_cases {body : List Char} {n : Nat} (read : pyMagnitude body = some n) :
    (∃ radix digits, prefixed (withoutUnderscores body) = some (radix, digits) ∧ radix ≤ 16 ∧
      numeral radix digits = some n ∧ (prefixed body).isSome) ∨
    (prefixed body = none ∧ numeral 10 (withoutUnderscores body) = some n) := by
  have behind : ∀ radix rest, prefixed body = some (radix, rest) →
      prefixed (withoutUnderscores body) = some (radix, withoutUnderscores rest) ∧ radix ≤ 16 := by
    intro radix rest known
    obtain ⟨c, same, base⟩ := prefixed_some.mp known
    have letter : c ≠ '_' := by
      rintro rfl
      cases base
    subst same
    refine ⟨prefixed_some.mpr ⟨c, ?_, base⟩, prefixRadix_small base⟩
    rw [withoutUnderscores, List.filter_cons_of_pos (by decide),
      List.filter_cons_of_pos (by simpa using letter)]
    rfl
  rw [pyMagnitude] at read
  split at read
  next radix digits known =>
    obtain ⟨base, small⟩ := behind radix _ known
    have number : numeral radix (withoutUnderscores digits) = some n := pyDigits_numeral read
    exact Or.inl ⟨radix, _, base, small, number, by rw [known]; rfl⟩
  next radix digits _ known =>
    obtain ⟨base, small⟩ := behind radix digits known
    exact Or.inl ⟨radix, _, base, small, pyDigits_numeral read, by rw [known]; rfl⟩
  next none =>
    refine Or.inr ⟨none, ?_⟩
    split at read
    next => exact pyDigits_numeral (Option.filter_eq_some_iff.mp read).1
    next => exact pyDigits_numeral read

theorem digit_unit {c : Char} {d : Nat} (known : toDigit radix c = some d) (small : radix ≤ 16) :
    unitOf c = none := by
  obtain ⟨worth, below⟩ := toDigit_some.mp known
  have other : ∀ (letter : Char) (value : Nat), digit letter = some value → 16 ≤ value →
    c ≠ letter := by
    rintro letter value known large rfl
    rw [known] at worth
    cases worth
    omega
  have letter : ¬ (c = 'k' ∨ c = 'K') ∧ ¬ (c = 'm' ∨ c = 'M') :=
    ⟨not_or.mpr ⟨other 'k' 20 rfl (by decide), other 'K' 20 rfl (by decide)⟩,
      not_or.mpr ⟨other 'm' 22 rfl (by decide), other 'M' 22 rfl (by decide)⟩⟩
  rw [unitOf, if_neg letter.1, if_neg letter.2]

theorem unit_lower {c : Char} (nothing : unitOf c = none) : c.toLower ≠ 'k' ∧ c.toLower ≠ 'm' := by
  have letter : ∀ lower upper : Char, upper.toNat + 32 = lower.toNat → c ≠ lower → c ≠ upper →
      c.toLower ≠ lower := by
    intro lower upper apart other other' same
    cases capital : c.isUpper with
    | false => exact other ((toLower_other capital).symm.trans same)
    | true =>
        have shifted := toLower_upper capital
        rw [same, ← apart] at shifted
        exact other' (Char.toNat_inj.mp (by omega))
  unfold unitOf at nothing
  split at nothing
  next => cases nothing
  next small =>
    split at nothing
    next => cases nothing
    next large =>
      rw [not_or] at small large
      exact ⟨letter 'k' 'K' rfl small.1 small.2, letter 'm' 'M' rfl large.1 large.2⟩

theorem prefixed_lower (text : List Char) : prefixed (text.map Char.toLower) =
    (prefixed text).map fun read => (read.1, read.2.map Char.toLower) := by
  cases found : prefixed text with
  | some read =>
      obtain ⟨radix, rest⟩ := read
      obtain ⟨c, same, base⟩ := prefixed_some.mp found
      subst same
      exact prefixed_some.mpr ⟨c.toLower, rfl, by rwa [toLower_toLower]⟩
  | none =>
      cases back : prefixed (text.map Char.toLower) with
      | none => rfl
      | some read =>
          obtain ⟨radix, rest⟩ := read
          obtain ⟨c, same, base⟩ := prefixed_some.mp back
          match text, same with
          | [], same => cases same
          | [_], same => exact absurd (congrArg List.length same) (by simp)
          | zero :: d :: others, same =>
              rw [List.map_cons, List.map_cons, List.cons.injEq, List.cons.injEq] at same
              obtain ⟨first, rfl, _⟩ := same
              have figure : zero = '0' := by
                cases capital : zero.isUpper with
                | false => exact (toLower_other capital).symm.trans first
                | true =>
                    have shifted := toLower_upper capital
                    have bounds := (isUpper_bounds zero).mp capital
                    rw [first] at shifted
                    have worth : '0'.toNat = 48 := rfl
                    omega
              subst figure
              rw [toLower_toLower] at base
              rw [prefixed_some.mpr ⟨d, rfl, base⟩] at found
              cases found

theorem prefixed_decimal {text : List Char}
    (digits : ∀ c ∈ text, prefixRadix c.toLower = none) : prefixed text = none := by
  cases found : prefixed text with
  | none => rfl
  | some read =>
      obtain ⟨c, same, base⟩ := prefixed_some.mp found
      have nothing := digits c (by simp [same])
      rw [base] at nothing
      cases nothing

theorem figure_unprefixed {c : Char} {d : Nat} (known : toDigit 10 c = some d) :
    prefixRadix c.toLower = none := by
  have figure := (isDigit_bounds c).mp (isDigit_toDigit known)
  have lower : c.toLower = c := by
    apply toLower_other
    rw [Bool.eq_false_iff, ne_eq, isUpper_bounds]
    omega
  have letter : c ≠ 'x' ∧ c ≠ 'o' ∧ c ≠ 'b' := by
    refine ⟨?_, ?_, ?_⟩ <;> rintro rfl <;> cases known
  rw [lower, prefixRadix, if_neg letter.1, if_neg letter.2.1, if_neg letter.2.2]

/-! ### What `parse_int` makes of a body -/

theorem parseBody_prefixed {body digits : List Char} (base : prefixed body = some (radix, digits)) :
    parseBody body = .ok (fromStrRadix radix (digits.map Char.toLower)) := by
  simp only [parseBody, prefixed_lower, base, Option.map_some]

theorem parseBody_plain {body : List Char} (bare : prefixed body = none)
    (last : ∀ c ∈ body, unitOf c = none) :
    parseBody body = .ok (fromStrRadix 10 (body.map Char.toLower)) := by
  have ends : ∀ c, (body.map Char.toLower).getLast? = some c → c ≠ 'k' ∧ c ≠ 'm' := by
    intro c final
    obtain ⟨d, member, rfl⟩ := List.mem_map.mp (List.mem_of_getLast? final)
    exact unit_lower (last d member)
  have k : stripSuffix 'k' (body.map Char.toLower) = none :=
    if_neg fun final => (ends _ final).1 rfl
  have m : stripSuffix 'm' (body.map Char.toLower) = none :=
    if_neg fun final => (ends _ final).2 rfl
  simp only [parseBody, prefixed_lower, bare, Option.map_none, k, m]

theorem pyMagnitude_units {body : List Char} {n : Nat} (read : pyMagnitude body = some n) :
    ∀ c ∈ body, unitOf c = none := by
  intro c member
  by_cases underscore : c = '_'
  · subst underscore
    rfl
  have kept : c ∈ withoutUnderscores body :=
    List.mem_filter.mpr ⟨member, by simpa using underscore⟩
  rcases pyMagnitude_cases read with ⟨radix, digits, base, small, number, _⟩ | ⟨_, number⟩
  · obtain ⟨letter, same, known⟩ := prefixed_some.mp base
    rw [same] at kept
    rcases List.mem_cons.mp kept with rfl | kept
    · rfl
    · rcases List.mem_cons.mp kept with rfl | kept
      · have other : ¬ (c = 'k' ∨ c = 'K') ∧ ¬ (c = 'm' ∨ c = 'M') := by
          constructor
          · rintro (rfl | rfl) <;> cases known
          · rintro (rfl | rfl) <;> cases known
        rw [unitOf, if_neg other.1, if_neg other.2]
      · obtain ⟨d, digit⟩ := (numeral_digits number).2 c kept
        exact digit_unit digit small
  · obtain ⟨d, digit⟩ := (numeral_digits number).2 c kept
    exact digit_unit digit (by decide)

theorem parseBody_python {body : List Char} {n : Nat} (read : pyMagnitude body = some n) :
    parseBody (withoutUnderscores body) = .ok (if n < 2 ^ 63 then some (n : Int) else none) := by
  have units : ∀ c ∈ withoutUnderscores body, unitOf c = none := fun c member =>
    pyMagnitude_units read c (List.mem_filter.mp member).1
  rcases pyMagnitude_cases read with ⟨radix, digits, base, _, number, _⟩ | ⟨_, number⟩
  · rw [parseBody_prefixed base, fromStrRadix_numeral ((numeral_lower digits).trans number)]
  · have plain := prefixed_decimal fun c member =>
      figure_unprefixed ((numeral_digits number).2 c member).choose_spec
    rw [parseBody_plain plain units, fromStrRadix_numeral ((numeral_lower _).trans number)]

theorem parseBody_plus {body : List Char} {n : Nat} (read : pyMagnitude body = some n) :
    parseBody ('+' :: withoutUnderscores body) =
      .ok (if n < 2 ^ 63 ∧ prefixed body = none then some (n : Int) else none) := by
  have units : ∀ c ∈ '+' :: withoutUnderscores body, unitOf c = none := by
    intro c member
    rcases List.mem_cons.mp member with rfl | kept
    · rfl
    · exact pyMagnitude_units read c (List.mem_filter.mp kept).1
  have plus : '+'.toLower = '+' := by decide
  rw [parseBody_plain (by rfl) units, List.map_cons, plus, fromStrRadix,
    signedDigits, numeral_lower]
  rcases pyMagnitude_cases read with ⟨radix, digits, base, _, number, nonempty⟩ | ⟨bare, number⟩
  · obtain ⟨c, same, known⟩ := prefixed_some.mp base
    have letter : numeral 10 (withoutUnderscores body) = none := by
      cases decimal : numeral 10 (withoutUnderscores body) with
      | none => rfl
      | some m =>
          obtain ⟨d, digit⟩ := (numeral_digits decimal).2 c (by simp [same])
          rw [figure_unprefixed digit] at known
          cases known
    have base : prefixed body ≠ none := Option.isSome_iff_ne_none.mp nonempty
    simp [letter, base]
  · simp only [number, Option.map_some, filter_range, bare, and_true]

end Reading

/-! ### The three kinds of texts -/

section Kinds

variable {s : List Char}

theorem minus_plain {text : List Char} (plain : text.head? ≠ some '-') :
    minus text = (false, text) := by
  unfold minus
  split
  next => exact absurd rfl plain
  next => rfl

theorem minus_text {neg : Bool} {text body : List Char} (taken : minus text = (neg, body)) :
    text = (if neg then ['-'] else []) ++ body := by
  unfold minus at taken
  split at taken
  next => cases taken; rfl
  next => cases taken; rfl

theorem parseInt_eq {neg : Bool} {body : List Char}
    (taken : minus (withoutUnderscores s) = (neg, body)) :
    parseInt s = (parseBody body).bind fun n => if neg then negated n else .ok n := by
  simp only [parseInt, taken]
  rfl

theorem negated_small {n : Nat} (small : n < 2 ^ 63) :
    negated (some (n : Int)) = .ok (some (-(n : Int))) := by
  have range : InI64 (-(n : Int)) := by
    simp only [InI64]
    omega
  simp only [negated, checked, if_pos range]
  rfl

theorem python_result {v : Int} (trimmed : strip s = s) (read : pyInt s = some v) :
    (PlusPrefixed s → 0 ≤ v) ∧ (∀ c ∈ (minus s).2, unitOf c = none) ∧
      ∃ result, parseInt s = .ok result ∧
        ∀ w, result = some w ↔ w = v ∧ InI64 v ∧ v ≠ -2 ^ 63 ∧ ¬ PlusPrefixed s := by
  rw [pyInt, trimmed] at read
  split at read
  next body =>
    obtain ⟨n, magnitude, rfl⟩ := Option.map_eq_some_iff.mp read
    have text : minus (withoutUnderscores ('+' :: body)) =
        (false, '+' :: withoutUnderscores body) := rfl
    have behind : PlusPrefixed ('+' :: body) ↔ prefixed body ≠ none := by
      rw [← Option.isSome_iff_ne_none]
      constructor
      · rintro ⟨_, ⟨⟩, nonempty⟩
        exact nonempty
      · exact fun nonempty => ⟨body, rfl, nonempty⟩
    have result := parseInt_eq text
    rw [parseBody_plus magnitude] at result
    refine ⟨fun _ => Int.natCast_nonneg n, ?_, _, result, fun w => ?_⟩
    · intro c member
      rcases List.mem_cons.mp member with rfl | inner
      · rfl
      · exact pyMagnitude_units magnitude c inner
    · rw [behind, not_not]
      split
      next held =>
        simp only [InI64, held.2, and_true, Option.some.injEq]
        omega
      next lost =>
        simp only [reduceCtorEq, false_iff]
        rintro ⟨_, range, _, bare⟩
        exact lost ⟨by simp only [InI64] at range; omega, bare⟩
  next body =>
    obtain ⟨n, magnitude, rfl⟩ := Option.map_eq_some_iff.mp read
    have text : minus (withoutUnderscores ('-' :: body)) = (true, withoutUnderscores body) := rfl
    have unsigned : ¬ PlusPrefixed ('-' :: body) := by
      rintro ⟨_, ⟨⟩, _⟩
    have result := parseInt_eq text
    rw [parseBody_python magnitude] at result
    refine ⟨fun plus => absurd plus unsigned, pyMagnitude_units magnitude, ?_⟩
    by_cases small : n < 2 ^ 63
    · refine ⟨some (-(n : Int)), ?_, fun w => ?_⟩
      · rw [result, if_pos small]
        exact negated_small small
      · simp only [InI64, unsigned, not_false_eq_true, and_true, Option.some.injEq]
        omega
    · refine ⟨none, ?_, fun w => ?_⟩
      · rw [result, if_neg small]
        rfl
      · simp only [InI64, reduceCtorEq, false_iff]
        omega
  next body other other' =>
    obtain ⟨n, magnitude, rfl⟩ := Option.map_eq_some_iff.mp read
    have unsigned : ¬ PlusPrefixed s := by
      rintro ⟨body, same, _⟩
      exact other body same
    have plain : (withoutUnderscores s).head? ≠ some '-' := by
      rcases pyMagnitude_cases magnitude with ⟨radix, digits, base, _⟩ | ⟨_, number⟩
      · obtain ⟨c, same, _⟩ := prefixed_some.mp base
        simp [same]
      · exact (numeral_head number).2
    have whole : minus s = (false, s) := by
      apply minus_plain
      intro head
      obtain ⟨rest, same⟩ := List.head?_eq_some_iff.mp head
      exact other' rest same
    have result := parseInt_eq (minus_plain plain)
    rw [parseBody_python magnitude] at result
    refine ⟨fun plus => absurd plus unsigned, ?_, _, result, fun w => ?_⟩
    · rw [whole]
      exact pyMagnitude_units magnitude
    · simp only [InI64, unsigned, not_false_eq_true, and_true]
      split <;> simp only [Option.some.injEq, reduceCtorEq, false_iff] <;> omega

theorem sized_some {size : Size} : sized s = some size ↔ ∃ digits c,
    minus s = (size.neg, digits ++ [c]) ∧ unitOf c = some size.unit ∧
      numeral 10 digits = some size.count := by
  simp only [sized, Option.bind_eq_bind, Option.bind_eq_some_iff, pure, Option.some.injEq]
  constructor
  · rintro ⟨unit, ⟨c, last, known⟩, count, read, rfl⟩
    have whole := List.dropLast_append_getLast? c last
    exact ⟨(minus s).2.dropLast, c, by rw [whole], known, read⟩
  · rintro ⟨digits, c, same, known, read⟩
    rw [same]
    exact ⟨size.unit, ⟨c, by simp, known⟩, size.count, by simpa using read, rfl⟩

theorem scaled_none (units : List Int) (read : Option Int) :
    scaled units read = .ok none ↔ read = none := by
  cases read with
  | none => exact ⟨fun _ => rfl, fun _ => rfl⟩
  | some x =>
      simp only [scaled, reduceCtorEq, iff_false]
      cases units.foldlM (fun x unit => checked (x * unit)) x with
      | error stop => exact nofun
      | ok v => exact nofun

theorem checked_nat (m : Nat) :
    checked (m : Int) = if m < 2 ^ 63 then .ok (m : Int) else .error .overflow := by
  have range : InI64 (m : Int) ↔ m < 2 ^ 63 := by
    simp only [InI64]
    omega
  simp only [checked, range]

theorem scaled_units (units : List Nat) (nonempty : ∀ unit ∈ units, 0 < unit) (n : Nat)
    (fits : n < 2 ^ 63) : scaled (units.map fun unit : Nat => (unit : Int)) (some (n : Int)) =
      if n * units.prod < 2 ^ 63 then .ok (some ((n * units.prod : Nat) : Int))
      else .error .overflow := by
  have folded : (units.map fun unit : Nat => (unit : Int)).foldlM
      (fun x unit => checked (x * unit)) (n : Int) =
        if n * units.prod < 2 ^ 63 then .ok ((n * units.prod : Nat) : Int)
        else .error .overflow := by
    induction units generalizing n with
    | nil => rw [List.prod_nil, Nat.mul_one, if_pos fits]; rfl
    | cons unit rest ih =>
        obtain ⟨_, others⟩ := List.forall_mem_cons.mp nonempty
        rw [List.map_cons, List.foldlM_cons, ← Int.natCast_mul, checked_nat, List.prod_cons,
          ← Nat.mul_assoc]
        by_cases within : n * unit < 2 ^ 63
        · rw [if_pos within]
          exact ih others (n * unit) within
        · have positive : 0 < rest.prod := List.prod_pos_iff_forall_pos_nat.mpr others
          have larger : n * unit ≤ n * unit * rest.prod := Nat.le_mul_of_pos_right _ positive
          rw [if_neg within, if_neg (by omega)]
          rfl
  rw [scaled, folded]
  split <;> rfl

theorem parseBody_sized {digits : List Char} {c : Char} {n unit : Nat}
    (known : unitOf c = some unit) (read : numeral 10 digits = some n) :
    parseBody (digits ++ [c]) =
      if 2 ^ 63 ≤ n then .ok none
      else if n * unit < 2 ^ 63 then .ok (some ((n * unit : Nat) : Int)) else .error .overflow := by
  have figures : ∀ x ∈ digits ++ [c], prefixRadix x.toLower = none := by
    intro x member
    rcases List.mem_append.mp member with digit | last
    · exact figure_unprefixed ((numeral_digits read).2 x digit).choose_spec
    · rw [List.mem_singleton.mp last]
      unfold unitOf at known
      split at known
      next small => rcases small with rfl | rfl <;> decide
      next =>
        split at known
        next large => rcases large with rfl | rfl <;> decide
        next => cases known
  -- The suffix says how often the digits are multiplied by 1024.
  obtain ⟨units, nonempty, product, body⟩ : ∃ units : List Nat, (∀ unit ∈ units, 0 < unit) ∧
      units.prod = unit ∧ parseBody (digits ++ [c]) =
        scaled (units.map fun unit : Nat => (unit : Int))
          (fromStrRadix 10 (digits.map Char.toLower)) := by
    have bare : prefixed ((digits ++ [c]).map Char.toLower) = none := by
      rw [prefixed_lower, prefixed_decimal figures]
      rfl
    unfold unitOf at known
    split at known
    next letter =>
      have k : c.toLower = 'k' := by rcases letter with rfl | rfl <;> decide
      have suffix : stripSuffix 'k' ((digits ++ [c]).map Char.toLower) =
          some (digits.map Char.toLower) := by
        simp [stripSuffix, k]
      refine ⟨[1024], by decide, Option.some.inj known, ?_⟩
      simp only [parseBody, bare, suffix]
      rfl
    next =>
      split at known
      next letter =>
        have m : c.toLower = 'm' := by rcases letter with rfl | rfl <;> decide
        have other : stripSuffix 'k' ((digits ++ [c]).map Char.toLower) = none := by
          simp [stripSuffix, m]
        have suffix : stripSuffix 'm' ((digits ++ [c]).map Char.toLower) =
            some (digits.map Char.toLower) := by
          simp [stripSuffix, m]
        refine ⟨[1024, 1024], by decide, Option.some.inj known, ?_⟩
        simp only [parseBody, bare, other, suffix]
        rfl
      next => cases known
  rw [body, fromStrRadix_numeral ((numeral_lower digits).trans read)]
  by_cases fits : n < 2 ^ 63
  · rw [if_pos fits, if_neg (Nat.not_le.mpr fits), scaled_units units nonempty n fits, product]
  · rw [if_neg fits, if_pos (Nat.le_of_not_lt fits)]
    rfl

theorem sized_text {size : Size} {digits : List Char} {c : Char}
    (text : minus s = (size.neg, digits ++ [c])) (known : unitOf c = some size.unit)
    (read : numeral 10 digits = some size.count) : withoutUnderscores s = s := by
  rw [withoutUnderscores, List.filter_eq_self, minus_text text]
  intro x member
  have other : x ≠ '_' := by
    rintro rfl
    rcases List.mem_append.mp member with sign | body
    · cases neg : size.neg <;> simp [neg] at sign
    · rcases List.mem_append.mp body with digit | last
      · obtain ⟨d, worth⟩ := (numeral_digits read).2 _ digit
        cases worth
      · rw [← List.mem_singleton.mp last] at known
        cases known
  simpa using other

theorem sized_conforms {size : Size} (read : sized s = some size) (python : pyInt s = none) :
    Conforms s ↔ (size.count < 2 ^ 63 → size.count * size.unit < 2 ^ 63) := by
  obtain ⟨digits, c, text, known, number⟩ := sized_some.mp read
  have result := parseInt_eq ((congrArg minus (sized_text text known number)).trans text)
  rw [parseBody_sized known number] at result
  have denoted : ∀ w, Denotes s w ↔ size.value = w := by
    intro w
    simp [Denotes, python, read]
  have unit : 2 ≤ size.unit := by
    unfold unitOf at known
    split at known
    next => rw [← Option.some.inj known]; decide
    next =>
      split at known
      next => rw [← Option.some.inj known]; decide
      next => cases known
  simp only [Conforms, denoted, Size.value]
  by_cases many : 2 ^ 63 ≤ size.count
  · have strict : 2 ^ 63 < size.count * size.unit := by
      have twice : size.count * 2 ≤ size.count * size.unit := Nat.mul_le_mul_left _ unit
      omega
    rw [if_pos many] at result
    have nothing : parseInt s = .ok none := by
      rw [result]
      cases size.neg <;> rfl
    refine ⟨fun _ few => absurd few (by omega), fun _ => ⟨Option.none, nothing, fun w => ?_⟩⟩
    simp only [InI64, reduceCtorEq, false_iff]
    split <;> omega
  · rw [if_neg many] at result
    by_cases fits : size.count * size.unit < 2 ^ 63
    · rw [if_pos fits] at result
      refine ⟨fun _ _ => fits, fun _ => ?_⟩
      cases neg : size.neg with
      | false =>
          rw [neg] at result
          refine ⟨_, result, fun w => ?_⟩
          simp only [InI64, Option.some.injEq, Bool.false_eq_true, if_false]
          omega
      | true =>
          rw [neg] at result
          refine ⟨_, result.trans (negated_small fits), fun w => ?_⟩
          simp only [InI64, Option.some.injEq, if_true]
          omega
    · rw [if_neg fits] at result
      constructor
      · rintro ⟨_, ended, _⟩
        rw [result] at ended
        cases ended
      · exact fun small => absurd (small (by omega)) fits

theorem parseBody_none (body : List Char) : parseBody body = .ok none ↔
    fromStrRadix (bodyDigits body).1 (bodyDigits body).2 = none := by
  simp only [parseBody, bodyDigits]
  generalize body.map Char.toLower = lower
  cases prefixed lower with
  | some read => simp
  | none =>
      by_cases k : lower.getLast? = some 'k'
      · simp [stripSuffix, k, scaled_none]
      · by_cases m : lower.getLast? = some 'm'
        · simp [stripSuffix, m, scaled_none]
        · simp [stripSuffix, k, m]

theorem parseInt_none : parseInt s = .ok none ↔
    fromStrRadix (digitsOf s).1 (digitsOf s).2 = none := by
  cases parts : minus (withoutUnderscores s) with
  | mk neg body =>
      rw [digitsOf, parts, ← parseBody_none, parseInt_eq parts]
      cases parseBody body with
      | error stop => simp [Except.bind]
      | ok n =>
          cases neg with
          | false => exact Iff.rfl
          | true =>
              cases n with
              | none => exact ⟨fun _ => rfl, fun _ => rfl⟩
              | some n =>
                  simp only [Except.bind, if_true, negated, Except.ok.injEq,
                    reduceCtorEq, iff_false]
                  cases checked (-n) <;> simp [Except.map]

theorem other_conforms (python : pyInt s = none) (size : sized s = none) :
    Conforms s ↔ fromStrRadix (digitsOf s).1 (digitsOf s).2 = none := by
  have nothing : ∀ w, ¬ Denotes s w := by
    rintro w (read | ⟨width, read, _⟩)
    · rw [python] at read
      cases read
    · rw [size] at read
      cases read
  rw [← parseInt_none]
  simp only [Conforms, nothing, false_and, iff_false]
  constructor
  · rintro ⟨result, ended, none⟩
    cases result with
    | none => exact ended
    | some v => exact absurd rfl (none v)
  · exact fun ended => ⟨none, ended, fun w same => by cases same⟩

theorem python_conforms {v : Int} (trimmed : strip s = s) (read : pyInt s = some v) :
    Conforms s ↔ v ≠ -2 ^ 63 ∧ (PlusPrefixed s → 2 ^ 63 ≤ v) := by
  obtain ⟨positive, units, result, ended, value⟩ := python_result trimmed read
  have unsized : ∀ size, sized s ≠ some size := by
    intro size known
    obtain ⟨digits, c, text, unit, _⟩ := sized_some.mp known
    have nothing := units c (by simp [text])
    rw [nothing] at unit
    cases unit
  have denoted : ∀ w, Denotes s w ↔ v = w := by
    intro w
    simp [Denotes, read, unsized]
  simp only [Conforms, ended, Except.ok.injEq, exists_eq_left', value, denoted]
  constructor
  · intro same
    have here := same v
    refine ⟨fun least => ?_, fun plus => ?_⟩
    · exact (here.mpr ⟨rfl, by rw [least]; decide⟩).2.2.1 least
    · by_contra small
      have range : InI64 v := by
        have low := positive plus
        simp only [InI64]
        omega
      exact (here.mpr ⟨rfl, range⟩).2.2.2 plus
  · rintro ⟨least, plus⟩ w
    constructor
    · rintro ⟨rfl, range, _⟩
      exact ⟨rfl, range⟩
    · rintro ⟨rfl, range⟩
      refine ⟨rfl, range, least, fun signed => ?_⟩
      have large := plus signed
      simp only [InI64] at range
      omega

end Kinds

/-- `parse_int` reads a text without blanks around it as it should exactly where the text
is regular. -/
theorem parse_int_conforms (s : List Char) (trimmed : strip s = s) : Conforms s ↔ Regular s := by
  cases python : pyInt s with
  | some v =>
      rw [python_conforms trimmed python]
      constructor
      · intro held
        refine ⟨fun w read => ?_, fun size read => ?_, fun none => ?_⟩
        · rw [python] at read
          cases read
          exact held
        · obtain ⟨digits, c, text, unit, _⟩ := sized_some.mp read
          have nothing := (python_result trimmed python).2.1 c (by simp [text])
          rw [nothing] at unit
          cases unit
        · rw [python] at none
          cases none
      · exact fun regular => regular.python v python
  | none =>
      cases read : sized s with
      | some size =>
          rw [sized_conforms read python]
          constructor
          · intro held
            refine ⟨fun w known => ?_, fun other same => ?_, fun _ nothing => ?_⟩
            · rw [python] at known
              cases known
            · rw [read] at same
              cases same
              exact held
            · rw [read] at nothing
              cases nothing
          · exact fun regular => regular.size size read
      | none =>
          rw [other_conforms python read]
          constructor
          · intro held
            refine ⟨fun w known => ?_, fun size same => ?_, fun _ _ => held⟩
            · rw [python] at known
              cases known
            · rw [read] at same
              cases same
          · exact fun regular => regular.other python read

/-- Python's spelling with an underscore behind the prefix. -/
theorem parse_int_conforms_prefixed : Conforms ['-', '0', 'x', '_', '1', 'F'] := by
  have python : pyInt ['-', '0', 'x', '_', '1', 'F'] = some (-31) := by decide
  refine (parse_int_conforms _ (by decide)).mpr ⟨fun v read => ?_, fun size read =>
    ?_, fun none => ?_⟩
  · rw [python] at read
    cases read
    refine ⟨by decide, ?_⟩
    rintro ⟨_, ⟨⟩, _⟩
  · have unsized : sized ['-', '0', 'x', '_', '1', 'F'] = none := by decide
    rw [unsized] at read
    cases read
  · rw [python] at none
    cases none

/-- 2^53 KiB overflow an `i64`, `--5` is five, and the zeros of `007` are no prefix. -/
theorem int_spellings_differ :
    ¬ Conforms ['9', '0', '0', '7', '1', '9', '9', '2', '5', '4', '7', '4', '0', '9',
      '9', '2', 'k'] ∧
      ¬ Conforms ['-', '-', '5'] ∧ ¬ Conforms ['0', '0', '7'] := by
  refine ⟨?_, ?_, ?_⟩
  · have stopped : parseInt ['9', '0', '0', '7', '1', '9', '9', '2', '5', '4', '7',
      '4', '0', '9', '9',
        '2', 'k'] = .error .overflow := by decide +kernel
    rintro ⟨result, ended, _⟩
    rw [stopped] at ended
    cases ended
  · have five : parseInt ['-', '-', '5'] = .ok (some 5) := by decide +kernel
    have python : pyInt ['-', '-', '5'] = none := by decide
    have unsized : sized ['-', '-', '5'] = none := by decide
    rintro ⟨result, ended, value⟩
    cases five.symm.trans ended
    rcases ((value 5).mp rfl).1 with read | ⟨_, read, _⟩
    · rw [python] at read
      cases read
    · rw [unsized] at read
      cases read
  · have seven : parseInt ['0', '0', '7'] = .ok (some 7) := by decide +kernel
    have python : pyInt ['0', '0', '7'] = none := by decide
    have unsized : sized ['0', '0', '7'] = none := by decide
    rintro ⟨result, ended, value⟩
    cases seven.symm.trans ended
    rcases ((value 7).mp rfl).1 with read | ⟨_, read, _⟩
    · rw [python] at read
      cases read
    · rw [unsized] at read
      cases read

end HeteroSim.IntSpellings

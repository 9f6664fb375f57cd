import HeteroSim.Scanners

/-!
The scanner of the DRAM tools for a flat JSON object (`read_flat_json`), position by position.
A byte is a character. Positions are `size_t`: a string that nothing closes is read to the end
of the text, and the position after it, `npos + 1`, is the start of the text again.
-/

namespace HeteroSim.FlatJson

open Scanners StateTransition

/-- A `std::string`. -/
abbrev Text := { s : List Char // s.length < 2 ^ 64 }

abbrev Table := List (List Char × List Char)

inductive Thrown where
  | runtimeError (what : String)
  | invalidArgument
  | outOfRange
  deriving DecidableEq

def isspace (c : Char) : Bool := c == ' ' || (decide (9 ≤ c.toNat) && decide (c.toNat ≤ 13))

def separator (c : Char) : Bool := isspace c || c == ',' || c == '{' || c == '}'

def colon (c : Char) : Bool := isspace c || c == ':'

/-- What a value without quotes is made of. -/
def bare (c : Char) : Bool := c.isAlphanum || c == '-' || c == '.'

def npos : Nat := 2 ^ 64 - 1

def find (s : List Char) (i : Nat) : Nat :=
  let j := skip (· != '"') s i
  if j < s.length then j else npos

/-- A string at `i` and the position after it; `none` where it throws. -/
def str (s : List Char) (i : Nat) : Option (List Char × Nat) :=
  if s[i]? = some '"' then
    let j := find s (i + 1)
    some (substr s (i + 1) (j - i - 1), (j + 1) % 2 ^ 64)
  else none

inductive Scan where
  | reading (key : Option (List Char)) (i : Nat) (out : Table)
  | returned (out : Table)
  | thrown
  deriving DecidableEq

def step (s : List Char) : Scan → Option Scan
  | .reading none i out =>
      let i := skip separator s i
      if i < s.length then
        match str s i with
        | some (key, i) => some (.reading (some key) i out)
        | none => some .thrown
      else some (.returned out)
  | .reading (some key) i out =>
      let i := skip colon s i
      if s[i]? = some '"' then
        match str s i with
        | some (v, i) => some (.reading none i ((key, v) :: out))
        | none => some .thrown
      else
        let j := skip bare s i
        some (.reading none j ((key, substr s i (j - i)) :: out))
  | .returned _ | .thrown => none

def outcome (path : String) : Scan → Except Thrown Table
  | .thrown => .error (.runtimeError (path ++ ": expected a string"))
  | .returned out | .reading _ _ out => .ok out

/-- What is read of a file; `none` is one that does not open. -/
def readFlatJson (path : String) : Option Text → Part (Except Thrown Table)
  | none => Part.some (.error (.runtimeError ("cannot open " ++ path)))
  | some s => (eval (step s.1) (.reading none 0 [])).map (outcome path)

section Strings

variable {s body more : List Char} {i : Nat}

theorem drop_next {c : Char} {rest : List Char} (left : s.drop i = c :: rest) :
    s[i]? = some c ∧ s.drop (i + 1) = rest := by
  constructor
  · rw [head_drop, left, List.head?_cons]
  · rw [← List.drop_drop, left, List.drop_one, List.tail_cons]

theorem unquoted (plain : '"' ∉ body) : ∀ c ∈ body, (c != '"') = true := fun _ member =>
  bne_iff_ne.mpr fun quote => plain (quote ▸ member)

theorem str_closed (sized : s.length < 2 ^ 64) (plain : '"' ∉ body)
    (left : s.drop i = '"' :: (body ++ '"' :: more)) :
    ∃ j, str s i = some (body, j) ∧ s.drop j = more := by
  obtain ⟨here, after⟩ := drop_next left
  have stop : skip (· != '"') s (i + 1) = i + 1 + body.length := by
    rw [skip, after, takeWhile_delimited (by decide) (unquoted plain)]
  have closing : s.drop (i + 1 + body.length) = '"' :: more := by
    rw [← List.drop_drop, after, List.drop_left]
  have inside : i + 1 + body.length < s.length :=
    lt_length_drop.mpr (by rw [closing]; exact List.cons_ne_nil _ _)
  refine ⟨i + 1 + body.length + 1, ?_, (drop_next closing).2⟩
  simp only [str, here, if_true, find, stop, inside, substr, after]
  rw [Nat.mod_eq_of_lt (by omega), show i + 1 + body.length - i - 1 = body.length by omega,
    List.take_left]

theorem str_unclosed (sized : s.length < 2 ^ 64) (plain : '"' ∉ body)
    (left : s.drop i = '"' :: body) : str s i = some (body, 0) := by
  obtain ⟨here, after⟩ := drop_next left
  have size : s.length = i + 1 + body.length := by
    have count := congrArg List.length after
    have inside : i < s.length := lt_length_drop.mpr (by rw [left]; exact List.cons_ne_nil _ _)
    rw [List.length_drop] at count
    omega
  have stop : ¬ skip (· != '"') s (i + 1) < s.length := by
    rw [skip, after, List.takeWhile_eq_self_iff.mpr (unquoted plain)]
    omega
  have wraps : (npos + 1) % 2 ^ 64 = 0 := by decide
  simp only [str, here, if_true, find, stop, if_false, substr, after, wraps]
  rw [List.take_of_length_le (by rw [npos]; omega)]

end Strings

section Steps

variable {s rest : List Char} {key v : List Char} {i j : Nat} {out : Table}

theorem head_returns (left : (s.drop i).dropWhile separator = []) :
    step s (.reading none i out) = some (.returned out) := by
  have atEnd : ¬ skip separator s i < s.length := by
    rw [lt_length_drop, drop_skip]
    exact not_not_intro left
  simp only [step, atEnd, if_false]

theorem head_throws {c : Char} (left : (s.drop i).dropWhile separator = c :: rest)
    (other : c ≠ '"') : step s (.reading none i out) = some .thrown := by
  rw [← drop_skip] at left
  have inside : skip separator s i < s.length :=
    lt_length_drop.mpr (by rw [left]; exact List.cons_ne_nil _ _)
  have refused : str s (skip separator s i) = none := by
    rw [str, (drop_next left).1, if_neg (fun same => other (Option.some.inj same))]
  simp only [step, inside, if_true, refused]

theorem head_key (left : (s.drop i).dropWhile separator = '"' :: rest)
    (read : str s (skip separator s i) = some (key, j)) :
    step s (.reading none i out) = some (.reading (some key) j out) := by
  rw [← drop_skip] at left
  have inside : skip separator s i < s.length :=
    lt_length_drop.mpr (by rw [left]; exact List.cons_ne_nil _ _)
  simp only [step, inside, if_true, read]

theorem value_string (left : (s.drop i).dropWhile colon = '"' :: rest)
    (read : str s (skip colon s i) = some (v, j)) :
    step s (.reading (some key) i out) = some (.reading none j ((key, v) :: out)) := by
  rw [← drop_skip] at left
  simp only [step, (drop_next left).1, if_true, read]

theorem value_bare (key : List Char) (left : (s.drop i).dropWhile colon = rest)
    (other : rest.head? ≠ some '"') :
    ∃ j, s.drop j = rest.dropWhile bare ∧ ∀ {out : Table},
      step s (.reading (some key) i out) =
        some (.reading none j ((key, rest.takeWhile bare) :: out)) := by
  rw [← drop_skip] at left
  refine ⟨skip bare s (skip colon s i), by rw [drop_skip, left], ?_⟩
  have start : s[skip colon s i]? ≠ some '"' := by rwa [head_drop, left]
  intro out
  simp only [step, start, if_false, substr_skip, left]

end Steps

/-- What a string after this part of the text is read as, a value or a key; `none` where the
part does not lead to the string. -/
def turn (afterKey : Bool) (gap : List Char) : Option Bool :=
  if afterKey && (gap.dropWhile colon).isEmpty then some true
  else
    let left := if afterKey then (gap.dropWhile colon).dropWhile bare else gap
    if left.all separator then some false else none

/-- The parts of a text between its quotes, the first outside a string: where the scanner gets
to a last part that is inside one, what that string is read as. -/
def leftOpen : Bool → List (List Char) → Option Bool
  | _, [] | _, [_] => none
  | afterKey, [gap, _] => turn afterKey gap
  | afterKey, gap :: _ :: part :: parts =>
      (turn afterKey gap).bind fun value => leftOpen (!value) (part :: parts)

def unclosed (afterKey : Bool) (text : List Char) : Option Bool :=
  leftOpen afterKey (text.splitOn '"')

/-- No string is found unclosed; or a key is, and none once the text is read again after it. -/
def Settles (text : List Char) : Prop :=
  unclosed false text = none ∨ unclosed false text = some false ∧ unclosed true text = none

instance (text : List Char) : Decidable (Settles text) :=
  inferInstanceAs (Decidable (_ ∨ _))

section Unclosed

variable {gap body more : List Char} {afterKey value : Bool}

theorem turn_head :
    turn false gap = some value ↔ gap.all separator = true ∧ value = false := by
  cases all : gap.all separator <;> simp [turn, all, eq_comm]

theorem turn_value (empty : gap.dropWhile colon = []) : turn true gap = some true := by
  rw [turn, empty]
  rfl

theorem turn_bare (empty : gap.dropWhile colon ≠ []) :
    turn true gap = turn false ((gap.dropWhile colon).dropWhile bare) := by
  have nonempty : (gap.dropWhile colon).isEmpty = false :=
    Bool.eq_false_iff.mpr fun missing => empty (List.isEmpty_iff.mp missing)
  simp only [turn, nonempty, Bool.and_false, Bool.false_eq_true, if_false, Bool.false_and, if_true]

theorem unclosed_free (outside : '"' ∉ gap) : unclosed afterKey gap = none := by
  rw [unclosed, List.splitOn_eq_singleton outside, leftOpen]

theorem unclosed_once (outside : '"' ∉ gap) (inside : '"' ∉ body) :
    unclosed afterKey (gap ++ '"' :: body) = turn afterKey gap := by
  rw [unclosed, List.splitOn_append_cons_self_of_not_mem outside,
    List.splitOn_eq_singleton inside, leftOpen]

theorem unclosed_pair (outside : '"' ∉ gap) (inside : '"' ∉ body) :
    unclosed afterKey (gap ++ '"' :: (body ++ '"' :: more)) =
      (turn afterKey gap).bind fun value => unclosed (!value) more := by
  rw [unclosed, List.splitOn_append_cons_self_of_not_mem outside,
    List.splitOn_append_cons_self_of_not_mem inside]
  cases parts : more.splitOn '"' with
  | nil => exact absurd parts (List.splitOn_ne_nil _ _)
  | cons part rest => simp only [leftOpen, unclosed, parts]

theorem unclosed_even (text : List Char) : ∀ afterKey, 2 ∣ text.count '"' →
    unclosed afterKey text = none := by
  induction text using marked_induction '"' with
  | free gap outside => exact fun _ _ => unclosed_free outside
  | once gap body outside inside =>
      intro afterKey even
      rw [List.count_append, List.count_cons_self, List.count_eq_zero.mpr outside,
        List.count_eq_zero.mpr inside] at even
      exact absurd even (by decide)
  | pair gap body more outside inside ih =>
      intro afterKey even
      rw [List.count_append, List.count_cons_self, List.count_append, List.count_cons_self,
        List.count_eq_zero.mpr outside, List.count_eq_zero.mpr inside] at even
      rw [unclosed_pair outside inside]
      cases turn afterKey gap with
      | none => rfl
      | some value => exact ih (!value) (by omega)

theorem even_settles {text : List Char} (even : 2 ∣ text.count '"') : Settles text :=
  .inl (unclosed_even text false even)

end Unclosed

section Passes

variable {s gap more : List Char} {key : Option (List Char)} {i : Nat} {out : Table}

theorem outside_dropWhile {p : Char → Bool} (outside : '"' ∉ gap) : '"' ∉ gap.dropWhile p :=
  fun member => outside (List.dropWhile_subset p member)

theorem outside_head {p : Char → Bool} {c : Char} {rest : List Char} (outside : '"' ∉ gap)
    (after : gap.dropWhile p = c :: rest) : c ≠ '"' := by
  intro quote
  have member : c ∈ gap.dropWhile p := by
    rw [after]
    exact List.mem_cons_self
  exact outside_dropWhile outside (quote ▸ member)

theorem head_ends (left : s.drop i = gap) (outside : '"' ∉ gap) :
    Ends (step s) (.reading none i out) := by
  cases after : gap.dropWhile separator with
  | nil => exact ends_last (.single (head_returns (left ▸ after))) rfl
  | cons c rest =>
      exact ends_last (.single (head_throws (left ▸ after) (outside_head outside after))) rfl

theorem free_ends (left : s.drop i = gap) (outside : '"' ∉ gap) :
    Ends (step s) (.reading key i out) := by
  cases key with
  | none => exact head_ends left outside
  | some key =>
      have other : (gap.dropWhile colon).head? ≠ some '"' := fun quote =>
        outside_dropWhile outside (List.mem_of_head? quote)
      obtain ⟨j, after, stepped⟩ := value_bare key (by rw [left]) other
      exact (ends_reaches (.single stepped)).mpr
        (head_ends after (outside_dropWhile (outside_dropWhile outside)))

theorem head_refused (left : s.drop i = gap ++ '"' :: more) (outside : '"' ∉ gap)
    (refused : turn false gap = none) : Ends (step s) (.reading none i out) := by
  cases after : gap.dropWhile separator with
  | nil =>
      have all := List.all_eq_true.mpr (List.dropWhile_eq_nil_iff.mp after)
      exact absurd (refused.symm.trans (turn_head.mpr ⟨all, rfl⟩)) nofun
  | cons c rest =>
      have after' : (s.drop i).dropWhile separator = c :: (rest ++ '"' :: more) := by
        rw [left, dropWhile_delimited (by decide), after, List.cons_append]
      exact ends_last (.single (head_throws after' (outside_head outside after))) rfl

theorem head_takes (left : s.drop i = gap ++ '"' :: more)
    (taken : gap.all separator = true) :
    ∃ j, s.drop j = '"' :: more ∧ ∀ {out : Table} v j', str s j = some (v, j') →
      step s (.reading none i out) = some (.reading (some v) j' out) := by
  have after : (s.drop i).dropWhile separator = '"' :: more := by
    rw [left, List.dropWhile_append_of_pos (List.all_eq_true.mp taken),
      List.dropWhile_cons_of_neg (by decide)]
  exact ⟨skip separator s i, by rw [drop_skip, after], fun _ _ read => head_key after read⟩

theorem bare_before (left : s.drop i = gap ++ '"' :: more) (outside : '"' ∉ gap)
    (nonempty : gap.dropWhile colon ≠ []) (key : List Char) :
    ∃ j v, s.drop j = (gap.dropWhile colon).dropWhile bare ++ '"' :: more ∧ ∀ {out : Table},
      step s (.reading (some key) i out) = some (.reading none j ((key, v) :: out)) := by
  have after : (s.drop i).dropWhile colon = gap.dropWhile colon ++ '"' :: more := by
    rw [left, dropWhile_delimited (by decide)]
  have other : (gap.dropWhile colon ++ '"' :: more).head? ≠ some '"' := by
    rw [List.head?_append_of_ne_nil _ nonempty]
    exact fun quote => outside_dropWhile outside (List.mem_of_head? quote)
  obtain ⟨j, left', stepped⟩ := value_bare key after other
  exact ⟨j, _, by rw [left', dropWhile_delimited (by decide)], stepped⟩

theorem turn_refused (left : s.drop i = gap ++ '"' :: more) (outside : '"' ∉ gap)
    (refused : turn key.isSome gap = none) : Ends (step s) (.reading key i out) := by
  cases key with
  | none => exact head_refused left outside refused
  | some key =>
      by_cases empty : gap.dropWhile colon = []
      · exact absurd (refused.symm.trans (turn_value empty)) nofun
      · obtain ⟨j, v, left', stepped⟩ := bare_before left outside empty key
        have refused' := (turn_bare empty).symm.trans refused
        exact (ends_reaches (.single stepped)).mpr
          (head_refused left' (outside_dropWhile (outside_dropWhile outside)) refused')

theorem turn_takes {value : Bool} (left : s.drop i = gap ++ '"' :: more) (outside : '"' ∉ gap)
    (taken : turn key.isSome gap = some value) :
    ∃ j, s.drop j = '"' :: more ∧ ∀ {out : Table} v j', str s j = some (v, j') →
      ∃ key' out', key'.isSome = !value ∧
        Reaches₁ (step s) (.reading key i out) (.reading key' j' out') := by
  cases key with
  | none =>
      obtain ⟨all, given⟩ := turn_head.mp taken
      obtain ⟨j, here, reads⟩ := head_takes left all
      exact ⟨j, here, fun {out} v j' read =>
        ⟨some v, out, by rw [given]; rfl, .single (reads v j' read)⟩⟩
  | some key =>
      by_cases empty : gap.dropWhile colon = []
      · have given : true = value := Option.some.inj ((turn_value empty).symm.trans taken)
        have after : (s.drop i).dropWhile colon = '"' :: more := by
          rw [left, dropWhile_delimited (by decide), empty, List.nil_append]
        refine ⟨skip colon s i, by rw [drop_skip, after], fun {out} v j' read => ?_⟩
        exact ⟨none, (key, v) :: out, by rw [← given]; rfl, .single (value_string after read)⟩
      · obtain ⟨all, given⟩ := turn_head.mp ((turn_bare empty).symm.trans taken)
        obtain ⟨j, v, left', stepped⟩ := bare_before left outside empty key
        obtain ⟨j', here, reads⟩ := head_takes left' all
        exact ⟨j', here, fun {out} v' j'' read => ⟨some v', (key, v) :: out, by rw [given]; rfl,
          .head stepped (.single (reads v' j'' read))⟩⟩

end Passes

theorem pass {s : List Char} (sized : s.length < 2 ^ 64) (text : List Char) :
    ∀ (key : Option (List Char)) (i : Nat) (out : Table), s.drop i = text →
      (unclosed key.isSome text = none → Ends (step s) (.reading key i out)) ∧
      ∀ value, unclosed key.isSome text = some value → ∃ key' out', key'.isSome = !value ∧
        Reaches₁ (step s) (.reading key i out) (.reading key' 0 out') := by
  induction text using marked_induction '"' with
  | free gap outside =>
      intro key i out left
      rw [unclosed_free outside]
      exact ⟨fun _ => free_ends left outside, fun _ isOpen => nomatch isOpen⟩
  | once gap body outside inside =>
      intro key i out left
      rw [unclosed_once outside inside]
      refine ⟨turn_refused left outside, fun value taken => ?_⟩
      obtain ⟨j, here, reads⟩ := turn_takes left outside taken
      exact reads body 0 (str_unclosed sized inside here)
  | pair gap body more outside inside ih =>
      intro key i out left
      rw [unclosed_pair outside inside]
      cases taken : turn key.isSome gap with
      | none => exact ⟨fun _ => turn_refused left outside taken, fun _ isOpen => nomatch isOpen⟩
      | some value =>
          obtain ⟨j, here, reads⟩ := turn_takes left outside taken
          obtain ⟨j', read, after⟩ := str_closed sized inside here
          obtain ⟨key', out', other, reached⟩ := reads body j' read
          obtain ⟨ends, wraps⟩ := ih key' j' out' after
          rw [other] at ends wraps
          refine ⟨fun closed => (ends_reaches reached.to_reflTransGen).mpr (ends closed), ?_⟩
          intro last isOpen
          obtain ⟨key'', out'', other', again⟩ := wraps last isOpen
          exact ⟨key'', out'', other', reached.trans again⟩

theorem loop_ends (s : Text) : Ends (step s.1) (.reading none 0 []) ↔ Settles s.1 := by
  have passes := fun key out => pass s.2 s.1 key 0 out rfl
  have again : ∀ (key : Option (List Char)) value out, unclosed key.isSome s.1 = some value →
      ∃ key' out', key'.isSome = !value ∧
        Reaches₁ (step s.1) (.reading key 0 out) (.reading key' 0 out') :=
    fun key value out => (passes key out).2 value
  rw [Settles]
  cases first : unclosed false s.1 with
  | none => exact ⟨fun _ => .inl rfl, fun _ => (passes none []).1 first⟩
  | some value =>
      obtain ⟨key, out, other, reached⟩ := again none value [] first
      cases value with
      | true =>
          -- the text is read from its start as it was the first time
          have never : ¬ Ends (step s.1) (.reading none 0 []) := by
            refine endless (C := fun a => ∃ out, a = .reading none 0 out) ?_ ⟨[], rfl⟩
            rintro _ ⟨out, rfl⟩
            obtain ⟨key, out', other, reached⟩ := again none true out first
            obtain rfl := Option.isNone_iff_eq_none.mp (Option.isSome_eq_false_iff.mp other)
            exact ⟨_, reached, out', rfl⟩
          exact ⟨fun ends => absurd ends never, nofun⟩
      | false =>
          rw [ends_reaches reached.to_reflTransGen]
          cases second : unclosed true s.1 with
          | none => exact ⟨fun _ => .inr ⟨rfl, rfl⟩, fun _ => (passes key out).1 (other ▸ second)⟩
          | some value =>
              have never : ¬ Ends (step s.1) (.reading key 0 out) := by
                refine endless (C := fun a => ∃ key out, a = .reading key 0 out) ?_
                  ⟨key, out, rfl⟩
                rintro _ ⟨key, out, rfl⟩
                have either : ∃ value, unclosed key.isSome s.1 = some value := by
                  cases key with
                  | none => exact ⟨false, first⟩
                  | some key => exact ⟨value, second⟩
                obtain ⟨value, isOpen⟩ := either
                obtain ⟨key', out', _, reached⟩ := again key value out isOpen
                exact ⟨_, reached, key', out', rfl⟩
              exact ⟨fun ends => absurd ends never, nofun⟩

theorem read_ends (path : String) (s : Text) :
    (readFlatJson path (some s)).Dom ↔ Settles s.1 := loop_ends s

end HeteroSim.FlatJson

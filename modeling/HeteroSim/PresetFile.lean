import HeteroSim.DramPresets
import HeteroSim.FirstOccurrences
import HeteroSim.FlatJson
import HeteroSim.Numerals
import HeteroSim.Sha1

/-!
The parameter dictionary of a dram preset (`params`), its JSON rendering, and the loader of the
DRAM tools (`load_params`) that reads it back into the parameters of the engine.
-/

namespace HeteroSim.PresetFile

open DramParams DramPresets FlatJson Scanners
open FirstOccurrences (lookup_member)
open StateTransition (Reaches)

def kindText : Kind → List Char
  | .dram => "dram".toList
  | .hyperram => "hyperram".toList
  | .other name => name.toList

def textKind (text : List Char) : Kind :=
  if text = "dram".toList then .dram
  else if text = "hyperram".toList then .hyperram
  else .other (String.ofList text)

structure Field (α : Type) where
  name : String
  get : Params → α
  set : α → Params → Params

def intFields : List (Field Int) :=
  [⟨"ctrl_ps", (·.ctrlPs), fun v p => { p with ctrlPs := v }⟩,
   ⟨"granule", (·.granule), fun v p => { p with granule := v }⟩,
   ⟨"channels", (·.channels), fun v p => { p with channels := v }⟩,
   ⟨"ranks", (·.ranks), fun v p => { p with ranks := v }⟩,
   ⟨"bankgroups", (·.bankgroups), fun v p => { p with bankgroups := v }⟩,
   ⟨"banks", (·.banks), fun v p => { p with banks := v }⟩,
   ⟨"rows", (·.rows), fun v p => { p with rows := v }⟩,
   ⟨"page_bytes", (·.pageBytes), fun v p => { p with pageBytes := v }⟩,
   ⟨"width_bits", (·.widthBits), fun v p => { p with widthBits := v }⟩,
   ⟨"burst_length", (·.burstLength), fun v p => { p with burstLength := v }⟩,
   ⟨"mtps", (·.mtps), fun v p => { p with mtps := v }⟩,
   ⟨"tCK", (·.tCK), fun v p => { p with tCK := v }⟩,
   ⟨"tRCD", (·.tRCD), fun v p => { p with tRCD := v }⟩,
   ⟨"tRP", (·.tRP), fun v p => { p with tRP := v }⟩,
   ⟨"tRPab", (·.tRPab), fun v p => { p with tRPab := v }⟩,
   ⟨"tRAS", (·.tRAS), fun v p => { p with tRAS := v }⟩,
   ⟨"tRC", (·.tRC), fun v p => { p with tRC := v }⟩,
   ⟨"tRL", (·.tRL), fun v p => { p with tRL := v }⟩,
   ⟨"tWL", (·.tWL), fun v p => { p with tWL := v }⟩,
   ⟨"tRRD_S", (·.tRRD_S), fun v p => { p with tRRD_S := v }⟩,
   ⟨"tRRD_L", (·.tRRD_L), fun v p => { p with tRRD_L := v }⟩,
   ⟨"tFAW", (·.tFAW), fun v p => { p with tFAW := v }⟩,
   ⟨"tCCD_S", (·.tCCD_S), fun v p => { p with tCCD_S := v }⟩,
   ⟨"tCCD_L", (·.tCCD_L), fun v p => { p with tCCD_L := v }⟩,
   ⟨"tWTR_S", (·.tWTR_S), fun v p => { p with tWTR_S := v }⟩,
   ⟨"tWTR_L", (·.tWTR_L), fun v p => { p with tWTR_L := v }⟩,
   ⟨"tRTW", (·.tRTW), fun v p => { p with tRTW := v }⟩,
   ⟨"tRTW_L", (·.tRTW_L), fun v p => { p with tRTW_L := v }⟩,
   ⟨"tWR", (·.tWR), fun v p => { p with tWR := v }⟩,
   ⟨"tRTP", (·.tRTP), fun v p => { p with tRTP := v }⟩,
   ⟨"tREFI", (·.tREFI), fun v p => { p with tREFI := v }⟩,
   ⟨"tRFC", (·.tRFC), fun v p => { p with tRFC := v }⟩,
   ⟨"wq_depth", (·.wqDepth), fun v p => { p with wqDepth := v }⟩,
   ⟨"wq_high", (·.wqHigh), fun v p => { p with wqHigh := v }⟩,
   ⟨"wq_low", (·.wqLow), fun v p => { p with wqLow := v }⟩,
   ⟨"hb_ck_ps", (·.hbCkPs), fun v p => { p with hbCkPs := v }⟩,
   ⟨"hb_ca_clks", (·.hbCaClks), fun v p => { p with hbCaClks := v }⟩,
   ⟨"hb_lat_clks", (·.hbLatClks), fun v p => { p with hbLatClks := v }⟩,
   ⟨"hb_fixed_2x", (·.hbFixed2x), fun v p => { p with hbFixed2x := v }⟩,
   ⟨"hb_bus_bytes", (·.hbBusBytes), fun v p => { p with hbBusBytes := v }⟩,
   ⟨"hb_csm_ps", (·.hbCsmPs), fun v p => { p with hbCsmPs := v }⟩,
   ⟨"hb_rwr_ps", (·.hbRwrPs), fun v p => { p with hbRwrPs := v }⟩]

def strFields : List (Field (List Char)) :=
  [⟨"kind", fun p => kindText p.kind, fun v p => { p with kind := textKind v }⟩,
   ⟨"mapping", (·.mapping), fun v p => { p with mapping := v }⟩]

/-- What is written to a field is read from it, and no field writes to one before it. -/
structure Separate {α : Type} (fields : List (Field α)) : Prop where
  written : ∀ f ∈ fields, ∀ v p, f.get (f.set v p) = v
  untouched : fields.Pairwise fun f g => ∀ v p, f.get (g.set v p) = f.get p

theorem kindText_textKind (text : List Char) : kindText (textKind text) = text := by
  unfold textKind
  split
  next same => exact same.symm
  next =>
    split
    next same => exact same.symm
    next => exact String.toList_ofList

theorem intFields_separate : Separate intFields where
  written := by
    simp only [intFields, List.forall_mem_cons, List.not_mem_nil, implies_true, false_implies,
      and_true]
  untouched := by
    simp only [intFields, List.pairwise_cons, List.forall_mem_cons, List.not_mem_nil,
      List.Pairwise.nil, implies_true, false_implies, and_true]

theorem ints_untouched : ∀ f ∈ intFields, ∀ g ∈ strFields, ∀ v p, f.get (g.set v p) = f.get p := by
  simp only [intFields, strFields, List.forall_mem_cons, List.not_mem_nil, implies_true,
    false_implies, and_true]

theorem strFields_separate : Separate strFields where
  written := by simp [strFields, kindText_textKind]
  untouched := by simp [strFields]

def sign : List Char → Bool × List Char
  | '-' :: rest => (true, rest)
  | '+' :: rest => (false, rest)
  | text => (false, text)

/-- `std::stoll` in decimal: what comes after the figures is not looked at. -/
def stoll (v : List Char) : Except Thrown Int :=
  let signed := sign (v.dropWhile isspace)
  match Numerals.numeral 10 (signed.2.takeWhile Char.isDigit) with
  | none => .error .invalidArgument
  | some n =>
      let value : Int := if signed.1 then -n else n
      if -2 ^ 63 ≤ value ∧ value < 2 ^ 63 then .ok value else .error .outOfRange

def number (v : List Char) : Except Thrown Int :=
  if v = "true".toList then .ok 1
  else if v = "false".toList then .ok 0
  else stoll v

def loadField {α : Type} (read : List Char → Except Thrown α) (kv : Table) (p : Params)
    (f : Field α) : Except Thrown Params :=
  match kv.lookup f.name.toList with
  | none => .ok p
  | some v => (read v).map fun value => f.set value p

def loadParams (path : String) (file : Option Text) : Part (Except Thrown Params) :=
  (readFlatJson path file).map fun entries => do
    let kv ← entries
    let p ← intFields.foldlM (loadField number kv) {}
    strFields.foldlM (loadField Except.ok kv) p

section Loading

variable {α β : Type} {read : List Char → Except Thrown α} {kv : Table} {fields : List (Field α)}

theorem loadField_ok {p after : Params} {f : Field α}
    (loaded : loadField read kv p f = .ok after) :
    (kv.lookup f.name.toList = none ∧ after = p) ∨
      ∃ v value, kv.lookup f.name.toList = some v ∧ read v = .ok value ∧ after = f.set value p := by
  rw [loadField] at loaded
  split at loaded
  next missing => exact .inl ⟨missing, (Except.ok.inj loaded).symm⟩
  next v found =>
    cases known : read v with
    | error thrown => rw [known] at loaded; cases loaded
    | ok value =>
        rw [known] at loaded
        exact .inr ⟨v, value, found, known, (Except.ok.inj loaded).symm⟩

theorem load_untouched {get : Params → β}
    (apart : ∀ g ∈ fields, ∀ v p, get (g.set v p) = get p) {p after : Params}
    (loaded : fields.foldlM (loadField read kv) p = .ok after) : get after = get p := by
  induction fields generalizing p with
  | nil => rw [← Except.ok.inj loaded]
  | cons f rest ih =>
      obtain ⟨first, others⟩ := List.forall_mem_cons.mp apart
      rw [List.foldlM_cons] at loaded
      cases once : loadField read kv p f with
      | error thrown => rw [once] at loaded; cases loaded
      | ok next =>
          rw [once] at loaded
          rw [ih others loaded]
          rcases loadField_ok once with ⟨_, rfl⟩ | ⟨v, value, _, _, rfl⟩
          · rfl
          · exact first value p

theorem load_written (separate : Separate fields) {p after : Params}
    (loaded : fields.foldlM (loadField read kv) p = .ok after) :
    ∀ f ∈ fields, ∀ v, kv.lookup f.name.toList = some v → read v = .ok (f.get after) := by
  induction fields generalizing p with
  | nil => exact fun f member => absurd member List.not_mem_nil
  | cons f rest ih =>
      obtain ⟨written, writtens⟩ := List.forall_mem_cons.mp separate.written
      obtain ⟨apart, aparts⟩ := List.pairwise_cons.mp separate.untouched
      rw [List.foldlM_cons] at loaded
      cases once : loadField read kv p f with
      | error thrown => rw [once] at loaded; cases loaded
      | ok next =>
          rw [once] at loaded
          refine List.forall_mem_cons.mpr ⟨fun v found => ?_, ih ⟨writtens, aparts⟩ loaded⟩
          rcases loadField_ok once with ⟨missing, _⟩ | ⟨v', value, found', known, rfl⟩
          · rw [missing] at found
            cases found
          · rw [found] at found'
            cases found'
            rw [known, load_untouched apart loaded, written]

theorem load_succeeds (p : Params)
    (readable : ∀ f ∈ fields, ∀ v, kv.lookup f.name.toList = some v → ∃ value, read v = .ok value) :
    ∃ after, fields.foldlM (loadField read kv) p = .ok after := by
  induction fields generalizing p with
  | nil => exact ⟨p, rfl⟩
  | cons f rest ih =>
      obtain ⟨first, others⟩ := List.forall_mem_cons.mp readable
      have once : ∃ next, loadField read kv p f = .ok next := by
        rw [loadField]
        split
        next => exact ⟨p, rfl⟩
        next v found =>
          obtain ⟨value, known⟩ := first v found
          exact ⟨f.set value p, by rw [known]; rfl⟩
      obtain ⟨next, once⟩ := once
      obtain ⟨after, loaded⟩ := ih next others
      exact ⟨after, by rw [List.foldlM_cons, once]; exact loaded⟩

end Loading

section Numbers

variable {text : List Char} {c : Char}

theorem isspace_bounds (space : isspace c = true) : c = ' ' ∨ 9 ≤ c.toNat ∧ c.toNat ≤ 13 := by
  simpa [isspace] using space

theorem digit_not_space (figure : c.isDigit = true) : isspace c = false := by
  rw [Bool.eq_false_iff]
  intro space
  have bounds := (Numerals.isDigit_bounds c).mp figure
  rcases isspace_bounds space with rfl | small
  · exact absurd figure (by decide)
  · omega

theorem sign_digit {rest : List Char} (figure : c.isDigit = true) :
    sign (c :: rest) = (false, c :: rest) := by
  unfold sign
  split
  next rest' same => cases same; exact absurd figure (by decide)
  next rest' same => cases same; exact absurd figure (by decide)
  next => rfl

theorem numeral_figures (n : Nat) :
    Numerals.numeral 10 ((Nat.toDigits 10 n).takeWhile Char.isDigit) = some n := by
  have figures : ∀ c ∈ Nat.toDigits 10 n, c.isDigit = true := fun c member =>
    Nat.isDigit_of_mem_toDigits (by decide) (by decide) member
  rw [List.takeWhile_eq_self_iff.mpr figures, Numerals.numeral_toDigits]

theorem spelled_head {n : Int} {rest : List Char} (written : Numerals.spelled n = c :: rest) :
    c.isAlpha = false := by
  have figure : ∀ c : Char, c.isDigit = true → c.isAlpha = false := fun c digit => by
    have bounds := (Numerals.isDigit_bounds c).mp digit
    rw [Bool.eq_false_iff, ne_eq, Numerals.isAlpha_bounds]
    omega
  cases n with
  | ofNat n =>
      have figures : Nat.toDigits 10 n = c :: rest := written
      exact figure c (Nat.isDigit_of_mem_toDigits (b := 10) (n := n) (by decide) (by decide)
        (figures ▸ List.mem_cons_self))
  | negSucc n =>
      cases written
      decide

theorem stoll_spelled (n : Int) (fits : -2 ^ 63 ≤ n ∧ n < 2 ^ 63) :
    stoll (Numerals.spelled n) = .ok n := by
  cases n with
  | ofNat n =>
      have signed : sign ((Nat.toDigits 10 n).dropWhile isspace) = (false, Nat.toDigits 10 n) := by
        cases figures : Nat.toDigits 10 n with
        | nil => exact absurd figures Nat.toDigits_ne_nil
        | cons c rest =>
            have figure : c.isDigit = true := Nat.isDigit_of_mem_toDigits (b := 10) (n := n)
              (by decide) (by decide) (figures ▸ List.mem_cons_self)
            rw [List.dropWhile_cons_of_neg (by simp [digit_not_space figure]), sign_digit figure]
      simp only [stoll, Numerals.spelled, signed, numeral_figures]
      exact if_pos fits
  | negSucc n =>
      have kept : ('-' :: Nat.toDigits 10 (n + 1)).dropWhile isspace =
          '-' :: Nat.toDigits 10 (n + 1) := List.dropWhile_cons_of_neg (by decide)
      simp only [stoll, Numerals.spelled, kept, sign, numeral_figures, if_true]
      exact if_pos fits

end Numbers

inductive Value where
  | int (n : Int)
  | bool (b : Bool)
  | str (text : List Char)
  deriving DecidableEq

abbrev Dict := List (String × Value)

inductive Refused where
  | unknownKind (kind : String)
  | unknownParameter (name : String)
  deriving DecidableEq

def fieldNames : List String := strFields.map Field.name ++ intFields.map Field.name

/-- The parameters as `_DEFAULTS` lists them; `_DEFAULTS` itself is that of `{}`. -/
def dictOf (p : Params) : Dict :=
  strFields.map (fun f => (f.name, .str (f.get p))) ++
    intFields.map fun f => (f.name, .int (f.get p))

def hyperram : Params :=
  { kind := .hyperram, hbCkPs := 5000, hbCaClks := 3, hbLatClks := 7, hbFixed2x := 1
    hbBusBytes := 1, hbCsmPs := 4000000, hbRwrPs := 35000 }

def preset (kind : String) : Option Params :=
  if kind = "lpddr4" then some lpddr4
  else if kind = "lpddr4x" then some lpddr4x
  else if kind = "lpddr5" then some lpddr5
  else if kind = "hyperram" then some hyperram
  else none

def override (out : Dict) (item : String × Value) : Except Refused Dict :=
  if item.1 ∈ fieldNames then
    .ok (out.map fun entry => if entry.1 = item.1 then item else entry)
  else .error (.unknownParameter item.1)

def params (kind : String) (overrides : Dict) : Except Refused Dict :=
  match preset kind with
  | none => .error (.unknownKind kind)
  | some p => overrides.foldlM override (dictOf p)

/-- What `json.dumps` writes inside the quotes for a character. -/
def escape (c : Char) : List Char :=
  if c = '"' then ['\\', '"']
  else if c = '\\' then ['\\', '\\']
  else if c = '\n' then ['\\', 'n']
  else if c = '\r' then ['\\', 'r']
  else if c = '\t' then ['\\', 't']
  else if c.toNat = 12 then ['\\', 'f']
  else if c.toNat = 8 then ['\\', 'b']
  else if 32 ≤ c.toNat ∧ c.toNat ≤ 126 then [c]
  else if c.toNat < 65536 then '\\' :: 'u' :: Sha1.hex 4 c.toNat
  else
    let n := c.toNat - 65536
    '\\' :: 'u' :: Sha1.hex 4 (55296 + n / 1024) ++ '\\' :: 'u' :: Sha1.hex 4 (56320 + n % 1024)

def escaped (text : List Char) : List Char := text.flatMap escape

def quoted (text : List Char) : List Char := '"' :: (escaped text ++ ['"'])

def truth (b : Bool) : List Char := if b then "true".toList else "false".toList

def token : Value → List Char
  | .int n => Numerals.spelled n
  | .bool b => truth b
  | .str text => quoted text

def Blank (text : List Char) : Prop := ∀ c ∈ text, c = ' ' ∨ c = '\t' ∨ c = '\n' ∨ c = '\r'

def Member (key : String) (v : Value) (text : List Char) : Prop :=
  ∃ a b c d, Blank a ∧ Blank b ∧ Blank c ∧ Blank d ∧
    text = a ++ quoted key.toList ++ b ++ ':' :: (c ++ token v ++ d)

inductive Members : Dict → List Char → Prop
  | last {key v text after} : Member key v text → Blank after →
      Members [(key, v)] (text ++ '}' :: after)
  | more {key v text rest others} : Member key v text → Members rest others →
      Members ((key, v) :: rest) (text ++ ',' :: others)

/-- The JSON texts of a dictionary. -/
def Rendered (dict : Dict) (text : List Char) : Prop :=
  ∃ before members, Blank before ∧ text = before ++ '{' :: members ∧ Members dict members

def dumpItem (item : String × Value) : List Char :=
  quoted item.1.toList ++ [':', ' '] ++ token item.2

/-- `json.dumps` of a dictionary. -/
def dumps (dict : Dict) : List Char :=
  '{' :: ([',', ' '].intercalate (dict.map dumpItem) ++ ['}'])

section Texts

variable {text rest : List Char} {c : Char}

/-- A character that the writer leaves as it is, unless it is a quote or a backslash. -/
def Printable (c : Char) : Prop := 32 ≤ c.toNat ∧ c.toNat ≤ 126

instance (c : Char) : Decidable (Printable c) := inferInstanceAs (Decidable (_ ∧ _))

theorem printable_classes (printable : Printable c) :
    c ≠ '\n' ∧ c ≠ '\r' ∧ c ≠ '\t' ∧ c.toNat ≠ 12 ∧ c.toNat ≠ 8 := by
  obtain ⟨low, _⟩ := printable
  refine ⟨?_, ?_, ?_, by omega, by omega⟩ <;>
    · rintro rfl
      exact absurd low (by decide)

theorem escape_printable (quote : c ≠ '"') (backslash : c ≠ '\\') (printable : Printable c) :
    escape c = [c] := by
  obtain ⟨newline, carriage, tab, feed, back⟩ := printable_classes printable
  simp only [escape, quote, backslash, newline, carriage, tab, feed, back, if_false]
  exact if_pos printable

theorem hex_unquoted (n : Nat) : '"' ∉ Sha1.hex 4 n := fun member =>
  absurd (Sha1.hex_digits 4 n _ member) (by simp [Sha1.hexDigits])

theorem escape_other (quote : c ≠ '"') (hidden : c = '\\' ∨ ¬ Printable c) :
    '\\' ∈ escape c ∧ '"' ∉ escape c := by
  unfold escape
  rw [if_neg quote]
  have unprinted : c ≠ '\\' → ¬ (32 ≤ c.toNat ∧ c.toNat ≤ 126) := fun other =>
    hidden.resolve_left other
  repeat' split
  all_goals simp_all [hex_unquoted]

theorem escape_unquoted (quote : c ≠ '"') : '"' ∉ escape c := by
  by_cases plain : c ≠ '\\' ∧ Printable c
  · rw [escape_printable quote plain.1 plain.2, List.mem_singleton]
    exact fun same => quote same.symm
  · have hidden : c = '\\' ∨ ¬ Printable c := by tauto
    exact (escape_other quote hidden).2

theorem escaped_unquoted (unquoted : '"' ∉ text) : '"' ∉ escaped text := by
  intro member
  obtain ⟨c, inside, written⟩ := List.mem_flatMap.mp member
  exact escape_unquoted (fun same => unquoted (same ▸ inside)) written

theorem escaped_same (unquoted : '"' ∉ text) (plain : '\\' ∉ text) :
    escaped text = text ↔ ∀ c ∈ text, Printable c := by
  constructor
  · intro same c member
    by_contra hidden
    have written := (escape_other (fun quote => unquoted (quote ▸ member)) (.inr hidden)).1
    exact plain (same ▸ List.mem_flatMap.mpr ⟨c, member, written⟩)
  · intro printable
    have each : ∀ c ∈ text, escape c = [c] := fun c member =>
      escape_printable (fun same => unquoted (same ▸ member)) (fun same => plain (same ▸ member))
        (printable c member)
    rw [escaped, List.flatMap_congr each, List.flatMap_singleton']

end Texts

/-- What the reader keeps of a value: strings as they are written, without their quotes. -/
def shown : Value → List Char
  | .int n => Numerals.spelled n
  | .bool b => truth b
  | .str text => escaped text

def entry (item : String × Value) : List Char × List Char := (item.1.toList, shown item.2)

/-- Integers of 64 bits, strings without quotes and backslashes. -/
def Admitted : Value → Prop
  | .int n => -2 ^ 63 ≤ n ∧ n < 2 ^ 63
  | .bool _ => True
  | .str text => '"' ∉ text ∧ '\\' ∉ text

instance : (v : Value) → Decidable (Admitted v)
  | .int _ => inferInstanceAs (Decidable (_ ∧ _))
  | .bool _ => isTrue trivial
  | .str _ => inferInstanceAs (Decidable (_ ∧ _))

section Names

theorem fieldNames_distinct : fieldNames.Nodup := by decide +kernel

theorem fieldNames_printable : ∀ name ∈ fieldNames,
    (name.toList.all fun c => c != '"' && c != '\\' && decide (Printable c)) = true := by
  decide +kernel

theorem fieldNames_plain {name : String} (known : name ∈ fieldNames) :
    '"' ∉ name.toList ∧ escaped name.toList = name.toList := by
  have plain : ∀ c ∈ name.toList, c ≠ '"' ∧ c ≠ '\\' ∧ Printable c := by
    intro c member
    simpa [and_assoc] using List.all_eq_true.mp (fieldNames_printable name known) c member
  have unquoted : '"' ∉ name.toList := fun member => (plain _ member).1 rfl
  have unescaped : '\\' ∉ name.toList := fun member => (plain _ member).2.1 rfl
  exact ⟨unquoted, (escaped_same unquoted unescaped).mpr fun c member => (plain c member).2.2⟩

theorem dictOf_names (p : Params) : (dictOf p).map Prod.fst = fieldNames := by
  simp only [dictOf, List.map_append, List.map_map]
  rfl

theorem override_names {out after : Dict} {item : String × Value}
    (taken : override out item = .ok after) : after.map Prod.fst = out.map Prod.fst := by
  rw [override] at taken
  split at taken
  next =>
    rw [← Except.ok.inj taken, List.map_map]
    refine List.map_congr_left fun entry _ => ?_
    simp only [Function.comp]
    split
    next same => exact same.symm
    next => rfl
  next => cases taken

theorem params_names {kind : String} {overrides dict : Dict}
    (made : params kind overrides = .ok dict) : dict.map Prod.fst = fieldNames := by
  rw [params] at made
  split at made
  next => cases made
  next p _ =>
    have keeps : ∀ (out : Dict), overrides.foldlM override out = .ok dict →
        dict.map Prod.fst = out.map Prod.fst := by
      clear made
      induction overrides with
      | nil => exact fun out same => by rw [Except.ok.inj same]
      | cons item rest ih =>
          intro out same
          rw [List.foldlM_cons] at same
          cases once : override out item with
          | error refused => rw [once] at same; cases same
          | ok next =>
              rw [once] at same
              exact (ih next same).trans (override_names once)
    rw [keeps _ made, dictOf_names]

end Names

section Reading

variable {s text : List Char} {out : Table}

theorem blank_isspace (blank : Blank text) : ∀ c ∈ text, isspace c = true := by
  intro c member
  rcases blank c member with rfl | rfl | rfl | rfl <;> decide

theorem blank_separator (blank : Blank text) : ∀ c ∈ text, separator c = true := fun c member => by
  simp only [separator, blank_isspace blank c member, Bool.true_or]

theorem blank_colon (blank : Blank text) : ∀ c ∈ text, colon c = true := fun c member => by
  simp only [colon, blank_isspace blank c member, Bool.true_or]

theorem isspace_bare {c : Char} (space : isspace c = true) : bare c = false := by
  rcases isspace_bounds space with rfl | small
  · decide
  · have minus : c ≠ '-' := fun same => by subst same; exact absurd small (by decide)
    have dot : c ≠ '.' := fun same => by subst same; exact absurd small (by decide)
    have other : ¬ c.isAlphanum = true := by
      rw [Char.isAlphanum, Bool.or_eq_true, Numerals.isAlpha_bounds, Numerals.isDigit_bounds]
      omega
    simp [bare, other, minus, dot]

theorem bare_colon {c : Char} (known : bare c = true) : colon c = false := by
  rw [Bool.eq_false_iff]
  intro skipped
  rw [colon, Bool.or_eq_true, beq_iff_eq] at skipped
  rcases skipped with space | rfl
  · rw [isspace_bare space] at known
    cases known
  · exact absurd known (by decide)

theorem token_bare (v : Value) : (∃ text, v = .str text) ∨
    (token v = shown v ∧ token v ≠ [] ∧ ∀ c ∈ token v, bare c = true) := by
  have figures : ∀ n : Nat, ∀ c ∈ Nat.toDigits 10 n, bare c = true := fun n c member => by
    have figure : c.isDigit = true := Nat.isDigit_of_mem_toDigits (by decide) (by decide) member
    simp [bare, Char.isAlphanum, figure]
  cases v with
  | str text => exact .inl ⟨text, rfl⟩
  | bool b =>
      have all : (truth b).all bare = true := by cases b <;> decide
      exact .inr ⟨rfl, by cases b <;> decide, List.all_eq_true.mp all⟩
  | int n =>
      refine .inr ⟨rfl, ?_⟩
      cases n with
      | ofNat n => exact ⟨Nat.toDigits_ne_nil, figures n⟩
      | negSucc n =>
          exact ⟨List.cons_ne_nil _ _, List.forall_mem_cons.mpr ⟨by decide, figures (n + 1)⟩⟩

theorem value_ends {gap : List Char} {mark : Char} (blank : Blank gap)
    (stops : bare mark = false) (word more : List Char) (bares : ∀ c ∈ word, bare c = true) :
    (word ++ (gap ++ mark :: more)).takeWhile bare = word ∧
      (word ++ (gap ++ mark :: more)).dropWhile bare = gap ++ mark :: more := by
  rw [List.takeWhile_append_of_pos bares, List.dropWhile_append_of_pos bares]
  cases gap with
  | nil =>
      rw [List.nil_append, List.takeWhile_cons_of_neg (by simp [stops]),
        List.dropWhile_cons_of_neg (by simp [stops])]
      exact ⟨List.append_nil word, rfl⟩
  | cons c rest =>
      have space := isspace_bare (blank_isspace blank c List.mem_cons_self)
      rw [List.cons_append, List.takeWhile_cons_of_neg (by simp [space]),
        List.dropWhile_cons_of_neg (by simp [space])]
      exact ⟨List.append_nil word, rfl⟩

theorem member_read (sized : s.length < 2 ^ 64) (out : Table) {key : String} {v : Value}
    {lead more : List Char}
    {mark : Char} {i : Nat} (member : Member key v text) (known : key ∈ fieldNames)
    (admitted : Admitted v) (skipped : ∀ c ∈ lead, separator c = true) (stops : bare mark = false)
    (left : s.drop i = lead ++ (text ++ mark :: more)) :
    ∃ j gap, Blank gap ∧ s.drop j = gap ++ mark :: more ∧
      Reaches (step s) (.reading none i out) (.reading none j (entry (key, v) :: out)) := by
  obtain ⟨a, b, c, d, blankA, blankB, blankC, blankD, rfl⟩ := member
  obtain ⟨unquoted, same⟩ := fieldNames_plain known
  have head : (s.drop i).dropWhile separator =
      '"' :: (key.toList ++ '"' :: (b ++ ':' :: (c ++ (token v ++ (d ++ mark :: more))))) := by
    rw [left, quoted, same, List.dropWhile_append_of_pos skipped]
    simp only [List.append_assoc, List.cons_append, List.nil_append]
    rw [List.dropWhile_append_of_pos (blank_separator blankA),
      List.dropWhile_cons_of_neg (by decide)]
  obtain ⟨j, read, after⟩ := str_closed sized unquoted ((drop_skip _ _ _).trans head)
  have first : step s (.reading none i out) = some (.reading (some key.toList) j out) :=
    head_key head read
  have value : (s.drop j).dropWhile colon =
      (token v ++ (d ++ mark :: more)).dropWhile colon := by
    rw [after, List.dropWhile_append_of_pos (blank_colon blankB),
      List.dropWhile_cons_of_pos (by decide), List.dropWhile_append_of_pos (blank_colon blankC)]
  rcases token_bare v with ⟨text, rfl⟩ | ⟨written, nonempty, bares⟩
  · have start : (s.drop j).dropWhile colon =
        '"' :: (escaped text ++ '"' :: (d ++ mark :: more)) := by
      rw [value, token, quoted, List.cons_append, List.append_assoc]
      exact List.dropWhile_cons_of_neg (by decide)
    obtain ⟨j', read', after'⟩ :=
      str_closed sized (escaped_unquoted admitted.1) ((drop_skip _ _ _).trans start)
    exact ⟨j', d, blankD, after', .tail (.single first) (value_string start read')⟩
  · obtain ⟨taken, rest⟩ := value_ends blankD stops (token v) more bares
    obtain ⟨c', word, leading⟩ := List.exists_cons_of_ne_nil nonempty
    have plainChar : bare c' = true := bares c' (leading ▸ List.mem_cons_self)
    have start : (s.drop j).dropWhile colon = token v ++ (d ++ mark :: more) := by
      rw [value, leading, List.cons_append,
        List.dropWhile_cons_of_neg (by simp [bare_colon plainChar])]
    have other : (token v ++ (d ++ mark :: more)).head? ≠ some '"' := by
      rw [leading, List.cons_append, List.head?_cons]
      rintro same
      rw [Option.some.inj same] at plainChar
      exact absurd plainChar (by decide)
    obtain ⟨j', after', stepped⟩ := value_bare key.toList start other
    rw [taken, written] at stepped
    exact ⟨j', d, blankD, after'.trans rest, .tail (.single first) stepped⟩

theorem members_read (sized : s.length < 2 ^ 64) {dict : Dict} (members : Members dict text)
    (known : ∀ item ∈ dict, item.1 ∈ fieldNames ∧ Admitted item.2) :
    ∀ (lead : List Char) (i : Nat) (out : Table), (∀ c ∈ lead, separator c = true) →
      s.drop i = lead ++ text →
      Reaches (step s) (.reading none i out) (.returned ((dict.map entry).reverse ++ out)) := by
  induction members with
  | @last key v text after member blank =>
      intro lead i out skipped left
      obtain ⟨named, admitted⟩ := known (key, v) List.mem_cons_self
      obtain ⟨j, gap, blank', left', reached⟩ :=
        member_read sized out member named admitted skipped (by decide) left
      have closed : (s.drop j).dropWhile separator = [] := by
        rw [left', List.dropWhile_append_of_pos (blank_separator blank'),
          List.dropWhile_cons_of_pos (by decide)]
        exact List.dropWhile_eq_nil_iff.mpr (blank_separator blank)
      exact reached.tail (head_returns closed)
  | @more key v text rest others member _ ih =>
      intro lead i out skipped left
      obtain ⟨named, admitted⟩ := known (key, v) List.mem_cons_self
      obtain ⟨j, gap, blank', left', reached⟩ :=
        member_read sized out member named admitted skipped (by decide) left
      have skipped' : ∀ c ∈ gap ++ [','], separator c = true :=
        List.forall_mem_append.mpr
          ⟨blank_separator blank', List.forall_mem_singleton.mpr (by decide)⟩
      have later := ih (fun item inside => known item (List.mem_cons_of_mem _ inside)) _ j
        (entry (key, v) :: out) skipped' (by rw [left', List.append_assoc]; rfl)
      rw [List.map_cons, List.reverse_cons, List.append_assoc]
      exact reached.trans later

theorem rendered_read (path : String) {s : Text} {dict : Dict} (rendered : Rendered dict s.1)
    (known : ∀ item ∈ dict, item.1 ∈ fieldNames ∧ Admitted item.2) :
    readFlatJson path (some s) = Part.some (.ok (dict.map entry).reverse) := by
  obtain ⟨before, members, blank, written, inside⟩ := rendered
  have skipped : ∀ c ∈ before ++ ['{'], separator c = true :=
    List.forall_mem_append.mpr ⟨blank_separator blank, List.forall_mem_singleton.mpr (by decide)⟩
  have reached := members_read s.2 inside known _ 0 [] skipped
    (by rw [List.drop_zero, written, List.append_assoc]; rfl)
  rw [List.append_nil] at reached
  rw [readFlatJson, eval_last reached rfl, Part.map_some]
  rfl

end Reading

def Value.number : Value → Option Int
  | .int n => some n
  | .bool b => some (if b then 1 else 0)
  | .str _ => none

/-- The parameters have the dictionary's values. -/
structure Agrees (dict : Dict) (p : Params) : Prop where
  ints : ∀ f ∈ intFields, ∃ v, (f.name, v) ∈ dict ∧ v.number = some (f.get p)
  strs : ∀ f ∈ strFields, (f.name, .str (f.get p)) ∈ dict

/-- Numbers for the integer fields, printable strings for the others. -/
structure Loadable (dict : Dict) : Prop where
  ints : ∀ f ∈ intFields, ∃ v n, (f.name, v) ∈ dict ∧ v.number = some n
  strs : ∀ f ∈ strFields, ∃ text, (f.name, .str text) ∈ dict ∧ ∀ c ∈ text, Printable c

section RoundTrip

variable {dict pairs : Dict}

theorem number_shown {v : Value} {n : Int} (admitted : Admitted v) (numeric : v.number = some n) :
    number (shown v) = .ok n := by
  cases v with
  | str text => cases numeric
  | bool b => cases b <;> exact congrArg Except.ok (Option.some.inj numeric)
  | int m =>
      obtain rfl := Option.some.inj numeric
      have word : ∀ c rest, c.isAlpha = true → Numerals.spelled m ≠ c :: rest :=
        fun c rest letter same => Bool.false_ne_true (spelled_head same ▸ letter)
      have notTrue : Numerals.spelled m ≠ "true".toList := word 't' _ (by decide)
      have notFalse : Numerals.spelled m ≠ "false".toList := word 'f' _ (by decide)
      rw [number, shown, if_neg notTrue, if_neg notFalse, stoll_spelled m admitted]

theorem table_lookup (names : dict.map Prod.fst = fieldNames) (order : pairs.Perm dict)
    {name : String} {v : Value} (member : (name, v) ∈ dict) :
    (pairs.map entry).reverse.lookup name.toList = some (shown v) := by
  have distinct : ((pairs.map entry).reverse.map Prod.fst).Nodup := by
    have keys : (pairs.map entry).map Prod.fst = (pairs.map Prod.fst).map String.toList := by
      rw [List.map_map, List.map_map]
      rfl
    rw [List.map_reverse, List.nodup_reverse, keys]
    have once : (pairs.map Prod.fst).Nodup := by
      rw [(order.map Prod.fst).nodup_iff, names]
      exact fieldNames_distinct
    exact once.map fun _ _ same => String.toList_injective same
  exact lookup_member distinct (e := (name.toList, shown v))
    (List.mem_reverse.mpr (List.mem_map.mpr ⟨(name, v), order.mem_iff.mpr member, rfl⟩))

variable {path : String} {s : Text}

theorem loadParams_eq (names : dict.map Prod.fst = fieldNames)
    (admitted : ∀ item ∈ dict, Admitted item.2) (order : pairs.Perm dict)
    (rendered : Rendered pairs s.1) :
    loadParams path (some s) = Part.some (do
      let p ← intFields.foldlM (loadField number (pairs.map entry).reverse) {}
      strFields.foldlM (loadField Except.ok (pairs.map entry).reverse) p) := by
  have known : ∀ item ∈ pairs, item.1 ∈ fieldNames ∧ Admitted item.2 := by
    intro item member
    have inside := order.mem_iff.mp member
    exact ⟨names ▸ List.mem_map_of_mem inside, admitted item inside⟩
  rw [loadParams, rendered_read path rendered known, Part.map_some]
  rfl

theorem loaded_fields (names : dict.map Prod.fst = fieldNames)
    (admitted : ∀ item ∈ dict, Admitted item.2) (order : pairs.Perm dict)
    (rendered : Rendered pairs s.1) {p : Params} (loaded : .ok p ∈ loadParams path (some s)) :
    (∀ f ∈ intFields, ∀ v, (f.name, v) ∈ dict → number (shown v) = .ok (f.get p)) ∧
      ∀ f ∈ strFields, ∀ v, (f.name, v) ∈ dict → f.get p = shown v := by
  rw [loadParams_eq names admitted order rendered, Part.mem_some_iff] at loaded
  cases first : intFields.foldlM (loadField number (pairs.map entry).reverse) {} with
  | error thrown => rw [first] at loaded; cases loaded
  | ok numbers =>
      rw [first] at loaded
      constructor
      · intro f field v member
        rw [load_untouched (ints_untouched f field) loaded.symm]
        exact load_written intFields_separate first f field _ (table_lookup names order member)
      · intro f field v member
        exact (Except.ok.inj (load_written strFields_separate loaded.symm f field _
          (table_lookup names order member))).symm

theorem loadable_loads (path : String) (names : dict.map Prod.fst = fieldNames)
    (admitted : ∀ item ∈ dict, Admitted item.2) (order : pairs.Perm dict)
    (rendered : Rendered pairs s.1) (loadable : Loadable dict) :
    ∃ p, .ok p ∈ loadParams path (some s) := by
  have numeric : ∀ f ∈ intFields, ∀ v, (pairs.map entry).reverse.lookup f.name.toList = some v →
      ∃ n, number v = .ok n := by
    intro f field v found
    obtain ⟨w, n, member, value⟩ := loadable.ints f field
    rw [table_lookup names order member] at found
    exact ⟨n, Option.some.inj found ▸ number_shown (admitted _ member) value⟩
  obtain ⟨numbers, first⟩ := load_succeeds {} numeric
  obtain ⟨p, second⟩ := @load_succeeds _ Except.ok (pairs.map entry).reverse strFields numbers
    fun _ _ v _ => ⟨v, rfl⟩
  rw [loadParams_eq names admitted order rendered, first]
  exact ⟨p, Part.mem_some_iff.mpr second.symm⟩

theorem round_trip (names : dict.map Prod.fst = fieldNames)
    (admitted : ∀ item ∈ dict, Admitted item.2) (order : pairs.Perm dict)
    (rendered : Rendered pairs s.1) :
    (∃ p, .ok p ∈ loadParams path (some s) ∧ Agrees dict p) ↔ Loadable dict := by
  have same : ∀ {name : String} {text : List Char}, (name, Value.str text) ∈ dict →
      (escaped text = text ↔ ∀ c ∈ text, Printable c) := fun member =>
    escaped_same (admitted _ member).1 (admitted _ member).2
  constructor
  · rintro ⟨p, loaded, agrees⟩
    obtain ⟨_, strs⟩ := loaded_fields names admitted order rendered loaded
    constructor
    · intro f field
      obtain ⟨v, member, value⟩ := agrees.ints f field
      exact ⟨v, _, member, value⟩
    · intro f field
      have member := agrees.strs f field
      exact ⟨_, member, (same member).mp (strs f field _ member).symm⟩
  · intro loadable
    obtain ⟨p, loaded⟩ := loadable_loads path names admitted order rendered loadable
    obtain ⟨ints, strs⟩ := loaded_fields names admitted order rendered loaded
    refine ⟨p, loaded, ?_, ?_⟩
    · intro f field
      obtain ⟨v, n, member, value⟩ := loadable.ints f field
      have read := ints f field v member
      rw [number_shown (admitted _ member) value] at read
      exact ⟨v, member, value.trans (congrArg some (Except.ok.inj read))⟩
    · intro f field
      obtain ⟨text, member, printable⟩ := loadable.strs f field
      have kept : f.get p = text := (strs f field _ member).trans ((same member).mpr printable)
      rw [kept]
      exact member

end RoundTrip

section Dumps

theorem dumpItem_member {lead : List Char} (blank : Blank lead) (item : String × Value) :
    Member item.1 item.2 (lead ++ dumpItem item) := by
  have space : Blank [' '] := fun _ inside => .inl (List.mem_singleton.mp inside)
  refine ⟨lead, [], [' '], [], blank, nofun, space, nofun, ?_⟩
  simp only [dumpItem, List.append_assoc, List.cons_append, List.nil_append, List.append_nil]

theorem dumps_members {lead : List Char} (blank : Blank lead) (item : String × Value)
    (rest : Dict) : Members (item :: rest)
      (lead ++ ([',', ' '].intercalate ((item :: rest).map dumpItem) ++ ['}'])) := by
  induction rest generalizing item lead with
  | nil =>
      have last := Members.last (dumpItem_member blank item) (nofun : Blank [])
      rw [List.map_singleton, List.intercalate_singleton, ← List.append_assoc]
      exact last
  | cons next rest ih =>
      have space : Blank [' '] := fun _ inside => .inl (List.mem_singleton.mp inside)
      have more := Members.more (dumpItem_member blank item) (ih space next)
      rw [List.map_cons, List.map_cons, List.intercalate_cons_cons]
      simp only [List.append_assoc, List.cons_append, List.nil_append] at more ⊢
      exact more

theorem dumps_rendered {dict : Dict} (nonempty : dict ≠ []) : Rendered dict (dumps dict) := by
  obtain ⟨item, rest, rfl⟩ := List.exists_cons_of_ne_nil nonempty
  exact ⟨[], _, nofun, rfl, dumps_members (nofun : Blank []) item rest⟩

theorem preset_loadable {kind : String} {p : Params} (known : preset kind = some p) :
    (∀ item ∈ dictOf p, Admitted item.2) ∧ Loadable (dictOf p) := by
  have checked : (∀ item ∈ dictOf p, Admitted item.2) ∧
      (strFields.all fun f => (f.get p).all fun c => decide (Printable c)) = true := by
    unfold preset at known
    repeat' split at known
    all_goals cases known
    all_goals decide +kernel
  refine ⟨checked.1, fun f field => ?_, fun f field => ?_⟩
  · exact ⟨.int (f.get p), f.get p,
      List.mem_append_right _ (List.mem_map.mpr ⟨f, field, rfl⟩), rfl⟩
  · have printable := List.all_eq_true.mp (List.all_eq_true.mp checked.2 f field)
    exact ⟨f.get p, List.mem_append_left _ (List.mem_map.mpr ⟨f, field, rfl⟩),
      fun c member => of_decide_eq_true (printable c member)⟩

end Dumps

/-- The file of a preset: reading ends exactly where the text settles, and a rendered dictionary
is loaded with its values exactly if they are numbers and printable strings. -/
theorem preset_file_read (path : String) :
    (∀ file : Option Text, (readFlatJson path file).Dom ↔ ∀ s ∈ file, Settles s.1) ∧
    ∀ kind overrides dict, params kind overrides = .ok dict →
      (∀ item ∈ dict, Admitted item.2) →
      ∀ (pairs : Dict) (s : Text), pairs.Perm dict → Rendered pairs s.1 →
        ((∃ p, .ok p ∈ loadParams path (some s) ∧ Agrees dict p) ↔ Loadable dict) := by
  refine ⟨fun file => ?_, fun kind overrides dict made admitted pairs s order rendered =>
    round_trip (params_names made) admitted order rendered⟩
  cases file with
  | none => exact ⟨fun _ _ member => (nomatch member), fun _ => trivial⟩
  | some s =>
      rw [read_ends]
      exact ⟨fun settles _ member => Option.some.inj member ▸ settles, fun all => all s rfl⟩

theorem preset_file_read_hyperram :
    ∃ sized : (dumps (dictOf hyperram)).length < 2 ^ 64,
      ∃ p, .ok p ∈ loadParams "hyperram.json" (some ⟨dumps (dictOf hyperram), sized⟩) ∧
        Agrees (dictOf hyperram) p := by
  have sized : (dumps (dictOf hyperram)).length < 2 ^ 64 := by decide +kernel
  have made : params "hyperram" [] = .ok (dictOf hyperram) := rfl
  have known : preset "hyperram" = some hyperram := rfl
  obtain ⟨admitted, loadable⟩ := preset_loadable known
  have rendered := dumps_rendered (List.cons_ne_nil _ _ : dictOf hyperram ≠ [])
  exact ⟨sized, ((preset_file_read "hyperram.json").2 "hyperram" [] _ made admitted _ ⟨_, sized⟩
    (.refl _) rendered).mpr loadable⟩

/-- A dump that was cut off inside a string is read for ever. -/
theorem cut_dump_unread : ∃ sized : "\x7b\"kind\": \"dram".toList.length < 2 ^ 64,
    ¬ (readFlatJson "cut.json" (some ⟨"\x7b\"kind\": \"dram".toList, sized⟩)).Dom := by
  refine ⟨by decide, ?_⟩
  rw [read_ends]
  decide

end HeteroSim.PresetFile

import HeteroSim.DramParams
import HeteroSim.PackedFields
import Mathlib.Algebra.BigOperators.Ring.Finset
import Mathlib.Data.Nat.Size
import Mathlib.Data.Set.Function

/-!
The mapping string of the dram engine: which strings `parse_mapping` takes, and
the decoder they give. Taken apart, an accepted mapping is a list of distinct
fields that names every size above one, so `decode` is the unpacking of a word
with one field for each name and loses nothing.
-/

namespace HeteroSim.AddressMapping

open DramParams PackedFields

def letters : FieldId → List Char
  | .row => ['R', 'o']
  | .rank => ['R', 'a']
  | .bankgroup => ['B', 'g']
  | .bank => ['B', 'a']
  | .column => ['C', 'o']
  | .channel => ['C', 'h']

def component (k : Coord) : FieldId → Int
  | .row => k.row
  | .rank => k.ra
  | .bankgroup => k.bg
  | .bank => k.ba
  | .column => k.col
  | .channel => k.ch

def every : Finset FieldId := {.row, .rank, .bankgroup, .bank, .column, .channel}

theorem mem_every (id : FieldId) : id ∈ every := by
  cases id <;> decide

theorem component_injective (k l : Coord) (same : ∀ id, component k id = component l id) :
    k = l := by
  have row := same .row
  have rank := same .rank
  have bankgroup := same .bankgroup
  have bank := same .bank
  have column := same .column
  have channel := same .channel
  cases k
  cases l
  simp only [component] at *
  simp only [*]

theorem letters_injective : Function.Injective letters := by
  intro left right same
  cases left <;> cases right <;> first | rfl | exact absurd same (by decide)

/-! The token loop. -/

theorem find_name (a b : Char) (name : List Char) (id : FieldId)
    (found : (fieldNames.find? fun entry => entry.1 == [a, b]) = some (name, id)) :
    letters id = [a, b] := by
  have named : name = [a, b] := by simpa using List.find?_some found
  have member : (name, id) ∈ fieldNames := List.mem_of_find?_eq_some found
  have listed : letters id = name := by
    simp only [fieldNames, List.mem_cons, Prod.mk.injEq, List.not_mem_nil, or_false] at member
    rcases member with ⟨h, i⟩ | ⟨h, i⟩ | ⟨h, i⟩ | ⟨h, i⟩ | ⟨h, i⟩ | ⟨h, i⟩ <;> rw [h, i] <;> rfl
  rw [listed, named]

theorem find_no_name (a b : Char)
    (absent : (fieldNames.find? fun entry => entry.1 == [a, b]) = none) (id : FieldId) :
    letters id ≠ [a, b] := by
  intro named
  rw [List.find?_eq_none] at absent
  refine absent (letters id, id) ?_ (by simp [named])
  cases id <;> simp [fieldNames, letters]

def sizeBits (p : Params) (burstBytes : Int) (id : FieldId) : Nat :=
  log2i (fieldSize p burstBytes id)

def fieldOf (p : Params) (burstBytes : Int) (id : FieldId) : Field :=
  { id := id, bits := sizeBits p burstBytes id }

def ids (fields : List Field) : List FieldId := fields.map Field.id

theorem seen_iff (fields : List Field) (id : FieldId) :
    (fields.any fun f => f.id == id) = true ↔ id ∈ ids fields := by
  simp [ids]

theorem spelled_cons (a b : Char) (rest : List Char) (id : FieldId) (names : List FieldId) :
    a :: b :: rest = (id :: names).flatMap letters ↔
      letters id = [a, b] ∧ rest = names.flatMap letters := by
  cases id <;> simp [letters, and_assoc, eq_comm]

theorem spelled_named {a b : Char} {rest name : List Char} {id : FieldId}
    (found : (fieldNames.find? fun entry => entry.1 == [a, b]) = some (name, id))
    (names : List FieldId) :
    a :: b :: rest = names.flatMap letters ↔
      ∃ more, names = id :: more ∧ rest = more.flatMap letters := by
  have named := find_name a b name id found
  constructor
  · intro spelled
    cases names with
    | nil => cases spelled
    | cons first more =>
        obtain ⟨spelling, tail⟩ := (spelled_cons ..).mp spelled
        exact ⟨more, congrArg (· :: more) (letters_injective (spelling.trans named.symm)), tail⟩
  · rintro ⟨more, rfl, tail⟩
    exact (spelled_cons ..).mpr ⟨named, tail⟩

theorem not_spelled_nil (id : FieldId) (names : List FieldId) :
    [] ≠ (id :: names).flatMap letters := by
  cases id <;> simp [letters]

theorem ids_append (known : List Field) (f : Field) : ids (known ++ [f]) = ids known ++ [f.id] :=
  List.map_append

theorem parseTokens_ok (p : Params) (burstBytes : Int) (tokens : List Char)
    (known fields : List Field) (whole : tokens.length % 2 = 0) (distinct : (ids known).Nodup) :
    parseTokens p burstBytes tokens known = .ok fields ↔
      ∃ names : List FieldId, tokens = names.flatMap letters ∧ (ids known ++ names).Nodup ∧
        fields = known ++ names.map (fieldOf p burstBytes) := by
  induction tokens, known using parseTokens.induct p burstBytes with
  | case1 a b rest known absent =>
      simp only [parseTokens, absent, reduceCtorEq, false_iff]
      rintro ⟨names, spelled, _⟩
      cases names with
      | nil => cases spelled
      | cons id names => exact find_no_name a b absent id ((spelled_cons ..).mp spelled).1
  | case2 a b rest known name id found seen =>
      simp only [parseTokens, found, seen, if_true, reduceCtorEq, false_iff]
      rintro ⟨names, spelled, fresh, _⟩
      obtain ⟨more, rfl, _⟩ := (spelled_named found names).mp spelled
      exact (List.nodup_append.mp fresh).2.2 id ((seen_iff known id).mp seen) id
        List.mem_cons_self rfl
  | case3 a b rest known name id found fresh ih =>
      have unseen : id ∉ ids known := fun member => fresh ((seen_iff known id).mpr member)
      have grown : (ids (known ++ [fieldOf p burstBytes id])).Nodup := by
        rw [ids_append]
        exact distinct.append (List.nodup_singleton id) (List.disjoint_singleton.mpr unseen)
      have short : rest.length % 2 = 0 := by
        simp only [List.length_cons] at whole
        omega
      have step : parseTokens p burstBytes (a :: b :: rest) known =
          parseTokens p burstBytes rest (known ++ [fieldOf p burstBytes id]) := by
        rw [parseTokens]
        simp only [found, fresh, if_false, Bool.false_eq_true]
        rfl
      rw [step]
      refine (ih short grown).trans ?_
      rw [ids_append]
      constructor
      · rintro ⟨names, spelled, nodup, result⟩
        refine ⟨id :: names, (spelled_named found _).mpr ⟨names, rfl, spelled⟩, ?_, ?_⟩
        · simpa [fieldOf] using nodup
        · simpa [fieldOf, sizeBits] using result
      · rintro ⟨names, spelled, nodup, result⟩
        obtain ⟨more, rfl, tail⟩ := (spelled_named found names).mp spelled
        refine ⟨more, tail, ?_, ?_⟩
        · simpa [fieldOf] using nodup
        · simpa [fieldOf, sizeBits] using result
  | case4 tokens known short =>
      cases tokens with
      | nil =>
          have done : parseTokens p burstBytes [] known = .ok known := rfl
          rw [done]
          constructor
          · intro same
            cases same
            exact ⟨[], rfl, by simpa using distinct, by simp⟩
          · rintro ⟨names, spelled, _, result⟩
            cases names with
            | nil => simpa using result.symm
            | cons id names => exact absurd spelled (not_spelled_nil id names)
      | cons a tokens =>
          cases tokens with
          | nil => simp at whole
          | cons b rest => exact absurd rfl (short a b rest)

theorem spelled_even (names : List FieldId) : (names.flatMap letters).length % 2 = 0 := by
  induction names with
  | nil => rfl
  | cons id names ih =>
      have two : (letters id).length = 2 := by cases id <;> rfl
      rw [List.flatMap_cons, List.length_append, two]
      omega

theorem lacks_none (p : Params) (burstBytes : Int) (fields : List Field) :
    fieldNames.find? (lacksField p burstBytes fields) = none ↔
      ∀ id, 1 < fieldSize p burstBytes id → id ∈ ids fields := by
  rw [List.find?_eq_none]
  have each (name : List Char) (id : FieldId) : ¬ lacksField p burstBytes fields (name, id) = true ↔
      (1 < fieldSize p burstBytes id → id ∈ ids fields) := by
    simp only [lacksField, Bool.and_eq_true, Bool.not_eq_true', decide_eq_true_eq, not_and,
      ← seen_iff]
    cases fields.any (fun f => f.id == id) <;> simp
  constructor
  · intro none id
    refine (each (letters id) id).mp (none _ ?_)
    cases id <;> simp [fieldNames, letters]
  · intro covered entry _
    exact (each entry.1 entry.2).mpr (covered entry.2)

/-- The strings `parse_mapping` is meant for. -/
def Spells (p : Params) (burstBytes : Int) (names : List FieldId) : Prop :=
  names.Nodup ∧ p.mapping = names.flatMap letters ∧
    ∀ id, 1 < fieldSize p burstBytes id → id ∈ names

theorem parseMapping_ok (p : Params) (burstBytes : Int) (fields : List Field) :
    parseMapping p burstBytes = .ok fields ↔
      ∃ names, Spells p burstBytes names ∧ fields = names.map (fieldOf p burstBytes) := by
  have ids_map (names : List FieldId) : ids (names.map (fieldOf p burstBytes)) = names := by
    simp [ids, fieldOf, Function.comp_def]
  simp only [parseMapping, except_bind, check_ok, exists_const, beq_iff_eq]
  constructor
  · rintro ⟨whole, found, tokens, complete⟩
    obtain ⟨names, spelled, distinct, result⟩ :=
      (parseTokens_ok p burstBytes p.mapping [] found whole List.nodup_nil).mp tokens
    rw [List.nil_append] at result
    cases lacks : fieldNames.find? (lacksField p burstBytes found) with
    | some name => simp [lacks] at complete
    | none =>
        have covered := (lacks_none p burstBytes found).mp lacks
        simp only [lacks, Except.ok.injEq] at complete
        rw [result, ids_map] at covered
        exact ⟨names, ⟨by simpa [ids] using distinct, spelled, covered⟩, complete ▸ result⟩
  · rintro ⟨names, ⟨distinct, spelled, covered⟩, result⟩
    have whole : p.mapping.length % 2 = 0 := by rw [spelled]; exact spelled_even names
    have tokens := (parseTokens_ok p burstBytes p.mapping [] fields whole List.nodup_nil).mpr
      ⟨names, spelled, by simpa [ids] using distinct, by simpa using result⟩
    have lacks : fieldNames.find? (lacksField p burstBytes fields) = none := by
      rw [lacks_none, result, ids_map]
      exact covered
    exact ⟨whole, fields, tokens, by simp [lacks]⟩

/-! The decoder as the unpacking of one word. -/

/-- Powers of two throughout, a page of whole bursts, and whatever lands in an
`int` small enough for one. -/
structure Geometry (p : Params) (burstBytes : Int) : Prop where
  burst : ∃ k : Nat, burstBytes = 2 ^ k
  page : burstBytes ∣ p.pageBytes
  sizes : ∀ id, ∃ k : Nat, fieldSize p burstBytes id = 2 ^ k
  small : p.channels ≤ 2 ^ 31 ∧ p.ranks ≤ 2 ^ 31 ∧ p.bankgroups ≤ 2 ^ 31 ∧ p.banks ≤ 2 ^ 31

/-- What the constructor keeps for `decode`. -/
structure Decoder (p : Params) (burstBytes : Int) (g : Config) : Prop where
  parsed : parseMapping p burstBytes = .ok g.fields
  offset : g.offsetBits = log2i burstBytes

theorem configure_decoder (p : Params) (g : Config) (dram : p.kind = .dram)
    (accepted : configure p = .ok g) :
    Geometry p g.burstBytes ∧ Decoder p g.burstBytes g := by
  have checked := configure_accepted p g dram accepted
  simp only [configure, dram, configureDram, checkPow2, except_bind, check_ok,
    exists_and_left, exists_const] at accepted
  obtain ⟨_, _, _, _, _, _, _, _, page, _, fields, parsed, _, _, result⟩ := accepted
  cases result
  have whole : (p.widthBits.tdiv 8 * p.burstLength) ∣ p.pageBytes :=
    Int.dvd_of_tmod_eq_zero (by simpa using page)
  exact ⟨⟨checked.burstPow, whole, checked.sizes, checked.size_small⟩, ⟨parsed, rfl⟩⟩

def packed (fields : List Field) : List (FieldId × Nat) := fields.map fun f => (f.id, f.bits)

theorem component_put (k : Coord) (id other : FieldId) (v : Nat)
    (small : id = .row ∨ id = .column ∨ v < 2 ^ 31) :
    component (k.put id v) other = if other = id then (v : Int) else component k other := by
  cases id <;> cases other <;> simp [component, Coord.put] at small ⊢ <;>
    exact toInt_small v (by omega)

theorem decodeFields_unpack (fields : List Field)
    (narrow : ∀ f ∈ fields, f.id = .row ∨ f.id = .column ∨ f.bits ≤ 31)
    (a : Nat) (k : Coord) (values : FieldId → Nat) (same : ∀ id, component k id = values id)
    (id : FieldId) :
    component (decodeFields fields a k) id = unpack (packed fields) a values id := by
  induction fields generalizing a k values with
  | nil => exact same id
  | cons f rest ih =>
      have low : a &&& (2 ^ f.bits - 1) = a % 2 ^ f.bits := Nat.and_two_pow_sub_one_eq_mod a f.bits
      rw [decodeFields, packed, List.map_cons, unpack, Nat.shiftRight_eq_div_pow, low]
      apply ih fun g member => narrow g (List.mem_cons_of_mem _ member)
      intro other
      rw [component_put, same other, Function.update_apply]
      · exact (apply_ite Nat.cast _ _ _).symm
      · rcases narrow f List.mem_cons_self with row | column | few
        · exact .inl row
        · exact .inr (.inl column)
        · refine .inr (.inr (lt_of_lt_of_le (Nat.mod_lt _ (Nat.two_pow_pos _)) ?_))
          exact Nat.pow_le_pow_right (by norm_num) few

section Accepted

variable {p : Params} {burstBytes : Int} {g : Config}

theorem Decoder.names (decoder : Decoder p burstBytes g) :
    ∃ names, Spells p burstBytes names ∧ g.fields = names.map (fieldOf p burstBytes) :=
  (parseMapping_ok p burstBytes g.fields).mp decoder.parsed

theorem Geometry.size_pow (geometry : Geometry p burstBytes) (id : FieldId) :
    fieldSize p burstBytes id = ((2 ^ sizeBits p burstBytes id : Nat) : Int) := by
  obtain ⟨k, size⟩ := geometry.sizes id
  rw [sizeBits, size, log2i_pow]
  simp

theorem Geometry.narrow (geometry : Geometry p burstBytes) (id : FieldId) :
    id = .row ∨ id = .column ∨ sizeBits p burstBytes id ≤ 31 := by
  obtain ⟨channels, ranks, bankgroups, banks⟩ := geometry.small
  have few (size : fieldSize p burstBytes id ≤ 2 ^ 31) : sizeBits p burstBytes id ≤ 31 := by
    rw [geometry.size_pow id] at size
    have power : 2 ^ sizeBits p burstBytes id ≤ 2 ^ 31 := by exact_mod_cast size
    exact (Nat.pow_le_pow_iff_right (by norm_num)).mp power
  cases id with
  | row => exact .inl rfl
  | column => exact .inr (.inl rfl)
  | rank => exact .inr (.inr (few ranks))
  | bankgroup => exact .inr (.inr (few bankgroups))
  | bank => exact .inr (.inr (few banks))
  | channel => exact .inr (.inr (few channels))

def wordFields (p : Params) (burstBytes : Int) (names : List FieldId) : List (FieldId × Nat) :=
  names.reverse.map fun id => (id, sizeBits p burstBytes id)

theorem keys_wordFields (names : List FieldId) :
    keys (wordFields p burstBytes names) = names.reverse := by
  simp [keys, wordFields, Function.comp_def]

theorem wordFields_nodup (names : List FieldId) (distinct : names.Nodup) :
    (keys (wordFields p burstBytes names)).Nodup := by
  rw [keys_wordFields]
  exact List.nodup_reverse.mpr distinct

theorem decode_unpack (geometry : Geometry p burstBytes) (names : List FieldId)
    (fields : g.fields = names.map (fieldOf p burstBytes)) (addr : Nat) (id : FieldId) :
    component (decode g addr) id =
      unpack (wordFields p burstBytes names) (addr >>> g.offsetBits) (fun _ => 0) id := by
  have same : packed g.fields.reverse = wordFields p burstBytes names := by
    rw [fields, packed, wordFields, ← List.map_reverse, List.map_map]
    rfl
  rw [decode, ← same]
  apply decodeFields_unpack
  · intro f member
    rw [fields, List.mem_reverse, List.mem_map] at member
    obtain ⟨name, _, rfl⟩ := member
    exact geometry.narrow name
  · intro other
    cases other <;> rfl

theorem Geometry.burst_pow (geometry : Geometry p burstBytes) :
    burstBytes = ((2 ^ log2i burstBytes : Nat) : Int) := by
  obtain ⟨k, burst⟩ := geometry.burst
  rw [burst, log2i_pow]
  simp

theorem size_one (geometry : Geometry p burstBytes) (names : List FieldId)
    (spells : Spells p burstBytes names) (id : FieldId) (absent : id ∉ names) :
    sizeBits p burstBytes id = 0 := by
  have one : ¬ 1 < fieldSize p burstBytes id := fun more => absent (spells.2.2 id more)
  rw [geometry.size_pow id] at one
  have power : 2 ^ sizeBits p burstBytes id ≤ 2 ^ 0 := by
    rw [pow_zero]
    exact_mod_cast not_lt.mp one
  exact Nat.le_zero.mp ((Nat.pow_le_pow_iff_right (by norm_num)).mp power)

/-- Every tuple of coordinates the geometry has. -/
def Box (p : Params) (burstBytes : Int) : Set Coord :=
  { k | ∀ id, 0 ≤ component k id ∧ component k id < fieldSize p burstBytes id }

theorem decode_mem_box (geometry : Geometry p burstBytes) (decoder : Decoder p burstBytes g)
    (addr : Nat) : decode g addr ∈ Box p burstBytes := by
  obtain ⟨names, spells, fields⟩ := decoder.names
  intro id
  rw [decode_unpack geometry names fields addr id, geometry.size_pow id]
  refine ⟨Int.natCast_nonneg _, Int.ofNat_lt.mpr ?_⟩
  by_cases named : id ∈ names
  · exact unpack_fits _ (wordFields_nodup names spells.1) _ _ (id, sizeBits p burstBytes id)
      (List.mem_map.mpr ⟨id, List.mem_reverse.mpr named, rfl⟩)
  · rw [unpack_absent _ _ _ id (by rwa [keys_wordFields, List.mem_reverse])]
    exact Nat.two_pow_pos _

def capacity (p : Params) : Int :=
  p.channels * p.ranks * p.bankgroups * p.banks * p.rows * p.pageBytes

theorem width_sum (geometry : Geometry p burstBytes) (names : List FieldId)
    (spells : Spells p burstBytes names) :
    width (wordFields p burstBytes names) = ∑ id ∈ every, sizeBits p burstBytes id := by
  have listed : width (wordFields p burstBytes names) =
      (names.map (sizeBits p burstBytes)).sum := by
    rw [width, wordFields, List.map_map, List.map_reverse, List.sum_reverse]
    rfl
  rw [listed, ← List.sum_toFinset _ spells.1]
  apply Finset.sum_subset (fun id _ => mem_every id)
  intro id _ absent
  exact size_one geometry names spells id (by simpa using absent)

theorem capacity_words (geometry : Geometry p burstBytes) (names : List FieldId)
    (spells : Spells p burstBytes names) :
    capacity p =
      ((2 ^ log2i burstBytes * 2 ^ width (wordFields p burstBytes names) : Nat) : Int) := by
  have page : p.pageBytes = fieldSize p burstBytes .column * burstBytes :=
    (Int.tdiv_mul_cancel geometry.page).symm
  have sizes : ∏ id ∈ every, fieldSize p burstBytes id =
      ((2 ^ width (wordFields p burstBytes names) : Nat) : Int) := by
    rw [width_sum geometry names spells, ← Finset.prod_pow_eq_pow_sum, Nat.cast_prod]
    exact Finset.prod_congr rfl fun id _ => geometry.size_pow id
  have listed : ∏ id ∈ every, fieldSize p burstBytes id = p.rows * (p.ranks * (p.bankgroups *
      (p.banks * (fieldSize p burstBytes .column * p.channels)))) := by simp [every, fieldSize]
  calc capacity p = burstBytes * ∏ id ∈ every, fieldSize p burstBytes id := by
        rw [capacity, page, listed]
        ring
    _ = _ := by
        rw [sizes, Nat.cast_mul, ← geometry.burst_pow]

/-- Where bursts start below the capacity. -/
def burstStarts (p : Params) (burstBytes : Int) : Set Nat :=
  { addr | burstBytes.toNat ∣ addr ∧ (addr : Int) < capacity p }

theorem Geometry.burst_nat (geometry : Geometry p burstBytes) :
    burstBytes.toNat = 2 ^ log2i burstBytes := by
  have power := congrArg Int.toNat geometry.burst_pow
  rwa [Int.toNat_natCast] at power

theorem decode_offset (geometry : Geometry p burstBytes) (decoder : Decoder p burstBytes g)
    (addr offset : Nat) (aligned : burstBytes.toNat ∣ addr) (inside : (offset : Int) < burstBytes) :
    decode g (addr + offset) = decode g addr := by
  have below : offset < 2 ^ log2i burstBytes := by
    have power := geometry.burst_pow
    omega
  obtain ⟨burst, rfl⟩ := aligned
  have same : (burstBytes.toNat * burst + offset) >>> g.offsetBits =
      (burstBytes.toNat * burst) >>> g.offsetBits := by
    rw [decoder.offset, Nat.shiftRight_eq_div_pow, Nat.shiftRight_eq_div_pow, geometry.burst_nat,
      Nat.mul_add_div (Nat.two_pow_pos _), Nat.div_eq_of_lt below, Nat.add_zero,
      Nat.mul_div_cancel_left _ (Nat.two_pow_pos _)]
  rw [decode, decode, same]

/-- `Layout` of the cross-check, which builds an address out of its fields, most
significant first. `bit_length` is the size in binary. -/
def layoutBits (p : Params) (burstBytes : Int) (id : FieldId) : Nat :=
  Nat.size (fieldSize p burstBytes id - 1).toNat

def layoutAddr (p : Params) (burstBytes : Int) (names : List FieldId) (v : FieldId → Nat) : Nat :=
  names.foldl (fun a f => (a <<< layoutBits p burstBytes f) |||
    (v f &&& ((1 <<< layoutBits p burstBytes f) - 1))) 0 * burstBytes.toNat

theorem layoutBits_eq (geometry : Geometry p burstBytes) (id : FieldId) :
    layoutBits p burstBytes id = sizeBits p burstBytes id := by
  have low : (fieldSize p burstBytes id - 1).toNat = 2 ^ sizeBits p burstBytes id - 1 := by
    have power := geometry.size_pow id
    omega
  have positive := Nat.two_pow_pos (sizeBits p burstBytes id)
  rw [layoutBits, low]
  apply Nat.le_antisymm
  · exact Nat.size_le.mpr (by omega)
  · cases bits : sizeBits p burstBytes id with
    | zero => exact Nat.zero_le _
    | succ b =>
        apply Nat.lt_size.mpr
        have half := Nat.two_pow_pos b
        rw [pow_succ]
        omega

theorem layoutAddr_pack (geometry : Geometry p burstBytes) (names : List FieldId)
    (v : FieldId → Nat) :
    layoutAddr p burstBytes names v = pack (wordFields p burstBytes names) v *
      burstBytes.toNat := by
  rw [layoutAddr, ← List.foldr_reverse, wordFields]
  congr 1
  induction names.reverse with
  | nil => rfl
  | cons id rest ih =>
      rw [List.foldr_cons, ih, List.map_cons, pack, layoutBits_eq geometry, Nat.one_shiftLeft,
        Nat.and_two_pow_sub_one_eq_mod,
        ← Nat.shiftLeft_add_eq_or_of_lt (Nat.mod_lt _ (Nat.two_pow_pos _)), Nat.shiftLeft_eq]

theorem decode_layoutAddr (geometry : Geometry p burstBytes) (decoder : Decoder p burstBytes g)
    (names : List FieldId) (spells : Spells p burstBytes names)
    (fields : g.fields = names.map (fieldOf p burstBytes)) (v : FieldId → Nat)
    (fits : ∀ id, (v id : Int) < fieldSize p burstBytes id) (id : FieldId) :
    component (decode g (layoutAddr p burstBytes names v)) id = v id := by
  have small (id : FieldId) : v id < 2 ^ sizeBits p burstBytes id := by
    have inside := fits id
    rw [geometry.size_pow id] at inside
    exact Int.ofNat_lt.mp inside
  have word : layoutAddr p burstBytes names v >>> g.offsetBits =
      pack (wordFields p burstBytes names) v := by
    rw [layoutAddr_pack geometry, geometry.burst_nat, decoder.offset, Nat.shiftRight_eq_div_pow,
      Nat.mul_div_cancel _ (Nat.two_pow_pos _)]
  rw [decode_unpack geometry names fields, word]
  by_cases named : id ∈ names
  · rw [unpack_pack _ (wordFields_nodup names spells.1) v]
    · intro field member
      obtain ⟨other, _, rfl⟩ := List.mem_map.mp member
      exact small other
    · rwa [keys_wordFields, List.mem_reverse]
  · have nothing : v id = 0 := by
      have only := small id
      rw [size_one geometry names spells id named] at only
      omega
    rw [unpack_absent _ _ _ id (by rwa [keys_wordFields, List.mem_reverse]), nothing]

theorem layoutAddr_mem (geometry : Geometry p burstBytes) (names : List FieldId)
    (spells : Spells p burstBytes names) (v : FieldId → Nat) :
    layoutAddr p burstBytes names v ∈ burstStarts p burstBytes := by
  rw [layoutAddr_pack geometry]
  refine ⟨dvd_mul_left _ _, ?_⟩
  rw [capacity_words geometry names spells, geometry.burst_nat, Nat.mul_comm]
  exact Int.ofNat_lt.mpr (Nat.mul_lt_mul_of_pos_left (pack_lt _ v) (Nat.two_pow_pos _))

theorem decode_injOn (geometry : Geometry p burstBytes) (decoder : Decoder p burstBytes g) :
    Set.InjOn (decode g) (burstStarts p burstBytes) := by
  obtain ⟨names, spells, fields⟩ := decoder.names
  have positive := Nat.two_pow_pos (log2i burstBytes)
  -- A burst start is its word times the burst, and the word can be packed again.
  have back (addr : Nat) (start : addr ∈ burstStarts p burstBytes) :
      pack (wordFields p burstBytes names) (fun id => (component (decode g addr) id).toNat) *
        2 ^ log2i burstBytes = addr := by
    obtain ⟨aligned, inside⟩ := start
    rw [geometry.burst_nat] at aligned
    obtain ⟨word, rfl⟩ := aligned
    have shifted : (2 ^ log2i burstBytes * word) >>> g.offsetBits = word := by
      rw [decoder.offset, Nat.shiftRight_eq_div_pow, Nat.mul_div_cancel_left _ positive]
    rw [capacity_words geometry names spells] at inside
    have low : word < 2 ^ width (wordFields p burstBytes names) :=
      Nat.lt_of_mul_lt_mul_left (Int.ofNat_lt.mp inside)
    have table : (fun id => (component (decode g (2 ^ log2i burstBytes * word)) id).toNat) =
        unpack (wordFields p burstBytes names) word (fun _ => 0) := by
      funext id
      rw [decode_unpack geometry names fields, shifted, Int.toNat_natCast]
    rw [table, pack_unpack _ (wordFields_nodup names spells.1) word _ low, Nat.mul_comm]
  intro left leftStart right rightStart same
  rw [← back left leftStart, ← back right rightStart, same]

theorem decode_surjOn (geometry : Geometry p burstBytes) (decoder : Decoder p burstBytes g) :
    Set.SurjOn (decode g) (burstStarts p burstBytes) (Box p burstBytes) := by
  obtain ⟨names, spells, fields⟩ := decoder.names
  intro k inside
  have whole (id : FieldId) : ((component k id).toNat : Int) = component k id :=
    Int.toNat_of_nonneg (inside id).1
  refine ⟨layoutAddr p burstBytes names fun id => (component k id).toNat,
    layoutAddr_mem geometry names spells _, component_injective _ _ fun id => ?_⟩
  rw [decode_layoutAddr geometry decoder names spells fields, whole]
  intro id
  rw [whole]
  exact (inside id).2

end Accepted

/-- The parser takes the spellings of distinct fields that name every size above
one, and the decoder of each of them is one to one between the bursts of the
memory and its coordinates. -/
theorem decoding_bijective (p : Params) (burstBytes : Int) (geometry : Geometry p burstBytes) :
    (∀ g, Decoder p burstBytes g →
      Set.BijOn (decode g) (burstStarts p burstBytes) (Box p burstBytes) ∧
      (∀ addr offset : Nat, burstBytes.toNat ∣ addr → (offset : Int) < burstBytes →
        decode g (addr + offset) = decode g addr) ∧
      ∀ addr, decode g addr ∈ Box p burstBytes) ∧
    ((∃ fields, parseMapping p burstBytes = .ok fields) ↔
      ∃ names, Spells p burstBytes names) := by
  constructor
  · intro g decoder
    refine ⟨⟨?_, decode_injOn geometry decoder, decode_surjOn geometry decoder⟩,
      decode_offset geometry decoder, decode_mem_box geometry decoder⟩
    exact fun addr _ => decode_mem_box geometry decoder addr
  · constructor
    · rintro ⟨fields, parsed⟩
      obtain ⟨names, spells, _⟩ := (parseMapping_ok p burstBytes fields).mp parsed
      exact ⟨names, spells⟩
    · rintro ⟨names, spells⟩
      exact ⟨_, (parseMapping_ok p burstBytes _).mpr ⟨names, spells, rfl⟩⟩

/-- The part of the unit test: bank groups interleaved below the column. -/
def interleaved : Params :=
  { bankgroups := 4, banks := 4, mapping := ['R', 'o', 'B', 'a', 'C', 'o', 'B', 'g'] }

theorem interleaved_geometry : Geometry interleaved 32 where
  burst := ⟨5, rfl⟩
  page := ⟨64, rfl⟩
  sizes
    | .row => ⟨16, rfl⟩
    | .rank => ⟨0, rfl⟩
    | .bankgroup => ⟨2, rfl⟩
    | .bank => ⟨2, rfl⟩
    | .column => ⟨6, rfl⟩
    | .channel => ⟨0, rfl⟩
  small := by decide

def interleavedConfig : Config where
  p := interleaved
  burstBytes := 32
  offsetBits := 5
  fields := [⟨.row, 16⟩, ⟨.bank, 2⟩, ⟨.column, 6⟩, ⟨.bankgroup, 2⟩]

example : decode interleavedConfig (3 <<< 15 ||| 2 <<< 13 ||| 5 <<< 7 ||| 1 <<< 5) =
    { row := 3, ba := 2, col := 5, bg := 1 } := by decide

theorem decoding_bijective_interleaved :
    Set.BijOn (decode interleavedConfig) (burstStarts interleaved 32) (Box interleaved 32) :=
  ((decoding_bijective interleaved 32 interleaved_geometry).1 interleavedConfig
    { parsed := rfl, offset := rfl }).1

end HeteroSim.AddressMapping

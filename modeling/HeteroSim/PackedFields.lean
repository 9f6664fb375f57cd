import Mathlib.Data.List.Nodup
import Mathlib.Logic.Function.Basic
import Mathlib.Algebra.BigOperators.Group.List.Basic
import Mathlib.Tactic.Ring

/-!
Bit fields packed into one word, least significant first, under distinct keys.
`unpack` peels the fields off the word into a table, `pack` puts them back. A
field of width zero takes no bits and holds zero.
-/

namespace HeteroSim.PackedFields

variable {Key : Type}

def keys (fields : List (Key × Nat)) : List Key := fields.map Prod.fst

def width (fields : List (Key × Nat)) : Nat := (fields.map Prod.snd).sum

def pack : List (Key × Nat) → (Key → Nat) → Nat
  | [], _ => 0
  | (key, bits) :: rest, values => pack rest values * 2 ^ bits + values key % 2 ^ bits

theorem pack_lt (fields : List (Key × Nat)) (values : Key → Nat) :
    pack fields values < 2 ^ width fields := by
  induction fields with
  | nil => exact Nat.one_pos
  | cons field rest ih =>
      have low : values field.1 % 2 ^ field.2 < 2 ^ field.2 := Nat.mod_lt _ (Nat.two_pow_pos _)
      calc pack rest values * 2 ^ field.2 + values field.1 % 2 ^ field.2
          < pack rest values * 2 ^ field.2 + 2 ^ field.2 := Nat.add_lt_add_left low _
        _ = (pack rest values + 1) * 2 ^ field.2 := by ring
        _ ≤ 2 ^ width rest * 2 ^ field.2 := Nat.mul_le_mul_right _ ih
        _ = 2 ^ width (field :: rest) := by
            rw [← pow_add, Nat.add_comm, width, width, List.map_cons, List.sum_cons]

variable [DecidableEq Key]

def unpack : List (Key × Nat) → Nat → (Key → Nat) → Key → Nat
  | [], _, values => values
  | (key, bits) :: rest, word, values =>
      unpack rest (word / 2 ^ bits) (Function.update values key (word % 2 ^ bits))

theorem unpack_absent (fields : List (Key × Nat)) (word : Nat) (values : Key → Nat) (key : Key)
    (absent : key ∉ keys fields) : unpack fields word values key = values key := by
  induction fields generalizing word values with
  | nil => rfl
  | cons field rest ih =>
      simp only [keys, List.map_cons, List.mem_cons, not_or] at absent
      rw [unpack, ih _ _ absent.2, Function.update_of_ne absent.1]

theorem unpack_first (key : Key) (bits : Nat) (rest : List (Key × Nat)) (word : Nat)
    (values : Key → Nat) (fresh : key ∉ keys rest) :
    unpack ((key, bits) :: rest) word values key = word % 2 ^ bits := by
  rw [unpack, unpack_absent rest _ _ key fresh, Function.update_self]

theorem unpack_fits (fields : List (Key × Nat)) (distinct : (keys fields).Nodup) (word : Nat)
    (values : Key → Nat) : ∀ field ∈ fields, unpack fields word values field.1 < 2 ^ field.2 := by
  induction fields generalizing word values with
  | nil => intro field member; cases member
  | cons first rest ih =>
      obtain ⟨fresh, distinct⟩ := List.nodup_cons.mp distinct
      intro field member
      cases member with
      | head =>
          rw [unpack_first first.1 first.2 rest word values fresh]
          exact Nat.mod_lt _ (Nat.two_pow_pos _)
      | tail _ member => exact ih distinct _ _ field member

theorem pack_unpack (fields : List (Key × Nat)) (distinct : (keys fields).Nodup) (word : Nat)
    (values : Key → Nat) (inside : word < 2 ^ width fields) :
    pack fields (unpack fields word values) = word := by
  induction fields generalizing word values with
  | nil =>
      have zero : word = 0 := Nat.lt_one_iff.mp inside
      rw [zero, pack]
  | cons field rest ih =>
      obtain ⟨fresh, distinct⟩ := List.nodup_cons.mp distinct
      have high : word / 2 ^ field.2 < 2 ^ width rest := by
        apply Nat.div_lt_of_lt_mul
        rw [← pow_add]
        simpa only [width, List.map_cons, List.sum_cons] using inside
      rw [pack, unpack_first field.1 field.2 rest word values fresh, Nat.mod_mod, unpack,
        ih distinct _ _ high]
      exact Nat.div_add_mod' word (2 ^ field.2)

theorem unpack_pack (fields : List (Key × Nat)) (distinct : (keys fields).Nodup)
    (given values : Key → Nat) (fits : ∀ field ∈ fields, given field.1 < 2 ^ field.2) :
    ∀ key ∈ keys fields, unpack fields (pack fields given) values key = given key := by
  induction fields generalizing values with
  | nil => intro key member; cases member
  | cons field rest ih =>
      obtain ⟨fresh, distinct⟩ := List.nodup_cons.mp distinct
      have small : given field.1 % 2 ^ field.2 = given field.1 :=
        Nat.mod_eq_of_lt (fits field List.mem_cons_self)
      have low : pack (field :: rest) given % 2 ^ field.2 = given field.1 := by
        rw [pack, Nat.mul_add_mod_self_right, Nat.mod_mod, small]
      have high : pack (field :: rest) given / 2 ^ field.2 = pack rest given := by
        rw [pack, Nat.add_comm, Nat.add_mul_div_right _ _ (Nat.two_pow_pos _),
          Nat.div_eq_of_lt (Nat.mod_lt _ (Nat.two_pow_pos _)), Nat.zero_add]
      intro key member
      cases member with
      | head => rw [unpack_first field.1 field.2 rest _ values fresh, low]
      | tail _ member =>
          rw [unpack, high]
          exact ih distinct _ (fun other later => fits other (List.mem_cons_of_mem _ later))
            key member

end HeteroSim.PackedFields

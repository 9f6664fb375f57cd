import HeteroSim.FirstOccurrences
import HeteroSim.Numerals
import HeteroSim.Sha1
import Mathlib.Data.List.Sort

/-!
Designs as the sweep names them: the defaults filled in, the slug, and the design points a
sweep runs. Knobs are any integers. Python is without its limit on the number of figures.
-/

namespace HeteroSim.DesignSlugs

open FirstOccurrences Numerals

/-- The knobs that a design moves. -/
abbrev Design := List (String × Int)

/-- `DEFAULTS`. -/
def defaults : Design :=
  [("HOST_VLEN", 4096), ("HOST_NB_LANES", 4), ("HOST_LANE_WIDTH", 8),
   ("SPATZ_VLEN", 512), ("SPATZ_NB_LANES", 4), ("SPATZ_LANE_WIDTH", 8),
   ("SNITCH_NB_CORE", 9), ("SPATZ_NB_CORE", 9), ("TCDM_SIZE", 0x20000),
   ("ICACHE_SIZE", 16 * 1024), ("ICACHE_WAYS", 4),
   ("DCACHE_SIZE", 32 * 1024), ("DCACHE_WAYS", 8),
   ("L2_SIZE", 512 * 1024), ("L2_WAYS", 8),
   ("LINE_SIZE", 64),
   ("NARROW_AXI_WIDTH", 8), ("WIDE_AXI_WIDTH", 64)]

/-- `BUILD_TIME`. -/
def buildTime : List String := ["HOST_VLEN", "SPATZ_VLEN"]

inductive Refusal where
  /-- `unknown design keys`: a typo would run the default under the value asked for. -/
  | unknownKeys (keys : List String)
  | unknownGrid (name : String)

/-- `set(design) - set(DEFAULTS)`. -/
def unknown (design : Design) : List String :=
  (design.map Prod.fst).filter fun k => !(defaults.map Prod.fst).contains k

/-- Every default filled in. -/
def filled (design : Design) : Design :=
  defaults.map fun (k, v) => (k, (design.lookup k).getD v)

def resolve (design : Design) : Except Refusal Design :=
  if unknown design = [] then .ok (filled design)
  else .error (.unknownKeys ((unknown design).insertionSort (· ≤ ·)))

/-! ### Slugs -/

/-- `diff`. -/
def changed (full : Design) : Design := full.filter fun (k, v) => defaults.lookup k != some v

def sorted (items : Design) : Design := items.insertionSort fun a b => a.1 ≤ b.1

def lead (full : Design) : List Char :=
  ['-'].intercalate (((sorted (changed full)).take 2).map fun (k, v) =>
    k.toList.map Char.toLower ++ spelled v)

/-- `json.dumps(full, sort_keys=True)`. -/
def dumps (full : Design) : List Char :=
  '{' :: [',', ' '].intercalate ((sorted full).map fun (k, v) =>
    '"' :: k.toList ++ ['"', ':', ' '] ++ spelled v) ++ ['}']

def digest (full : Design) : List Char :=
  (Sha1.hexdigest ((dumps full).map fun c => c.toNat.toUInt8)).take 8

def baseline : List Char := ['b', 'a', 's', 'e', 'l', 'i', 'n', 'e']

def name (full : Design) : List Char :=
  if changed full = [] then baseline else (lead full ++ '-' :: digest full).take 60

def slug (design : Design) : Except Refusal (List Char) := (resolve design).map name

def buildKey (design : Design) : Except Refusal (List Char) :=
  (resolve design).map fun full =>
    ['-'].intercalate (buildTime.map fun k =>
      k.toList.map Char.toLower ++ spelled ((full.lookup k).getD 0))

/-! ### `expand` -/

/-- `OFAT`. -/
def ofat : List (String × List Int) :=
  [("HOST_NB_LANES", [2, 8]), ("SPATZ_NB_LANES", [2, 8]),
   ("SNITCH_NB_CORE", [5, 17]), ("SPATZ_NB_CORE", [5, 17]),
   ("DCACHE_SIZE", [16 * 1024, 64 * 1024, 128 * 1024]), ("ICACHE_SIZE", [8 * 1024, 32 * 1024]),
   ("L2_SIZE", [128 * 1024, 2048 * 1024]), ("L2_WAYS", [4, 16]),
   ("LINE_SIZE", [32, 128]), ("TCDM_SIZE", [0x10000, 0x40000]), ("WIDE_AXI_WIDTH", [32, 128])]

/-- The points asked for, with repeats: the baseline, and an explicit list, or the knobs
given, or those of the grid, each moved alone. -/
def points (gridName : String) (knobs : List (String × List Int))
    (explicit : Option (List Design)) :
    Except Refusal (List Design) :=
  let alone := fun axes : List (String × List Int) =>
    axes.flatMap fun (knob, values) => values.map fun v => [(knob, v)]
  match explicit with
  | some designs => .ok ([] :: designs)
  | none =>
      if knobs ≠ [] then .ok ([] :: alone knobs)
      else if gridName = "ofat" then .ok ([] :: alone ofat)
      else .error (.unknownGrid gridName)

def unrepeated : List (List Char) → List Design → Except Refusal (List Design)
  | _, [] => .ok []
  | seen, d :: rest => do
      let key ← slug d
      if key ∈ seen then unrepeated seen rest
      else return d :: (← unrepeated (key :: seen) rest)

def expand (gridName : String) (knobs : List (String × List Int))
    (explicit : Option (List Design)) :
    Except Refusal (List Design) := do
  unrepeated [] (← points gridName knobs explicit)

/-! ### What a slug tells apart -/

/-- A short lead, its hyphen and what the cut leaves of its digest begin the other lead. -/
def RunsInto (f g : Design) : Prop :=
  (lead f).length ≤ 59 ∧ 60 ≤ (lead g).length ∧
    (lead g).take 60 = lead f ++ '-' :: (digest f).take (59 - (lead f).length)

/-- Two leads that the cut runs together: they are one, of 52 characters or more, and what is
left of the digests agrees; they are both too long, and begin alike; or one runs into the
other. -/
inductive Alike (f g : Design) : Prop where
  | same (equal : lead f = lead g) (cut : 52 ≤ (lead f).length)
      (digits : (digest f).take (59 - (lead f).length) = (digest g).take (59 - (lead f).length))
  | long (left : 60 ≤ (lead f).length) (right : 60 ≤ (lead g).length)
      (start : (lead f).take 60 = (lead g).take 60)
  | into (runs : RunsInto f g)
  | back (runs : RunsInto g f)

/-- Two machines, neither of them the baseline, with leads that the cut runs together. -/
structure Merged (f g : Design) : Prop where
  differ : f ≠ g
  left : changed f ≠ []
  right : changed g ≠ []
  alike : Alike f g

section Names

variable {f g : Design}

theorem digest_length (full : Design) : (digest full).length = 8 := by
  rw [digest, List.length_take, Sha1.hexdigest_length]
  rfl

theorem digest_hyphen (full : Design) : '-' ∉ digest full := by
  intro member
  have figure := Sha1.hexdigest_digits _ _ (List.mem_of_mem_take member)
  revert figure
  decide

theorem name_short (nonempty : changed f ≠ []) (short : (lead f).length ≤ 59) :
    name f = lead f ++ '-' :: (digest f).take (59 - (lead f).length) := by
  have room : 60 - (lead f).length = 59 - (lead f).length + 1 := by omega
  rw [name, if_neg nonempty, List.take_append, List.take_of_length_le (by omega), room,
    List.take_succ_cons]

theorem name_long (nonempty : changed f ≠ []) (long : 60 ≤ (lead f).length) :
    name f = (lead f).take 60 := by
  rw [name, if_neg nonempty, List.take_append_of_le_length long]

theorem name_changed (nonempty : changed f ≠ []) : name f ≠ baseline := by
  intro same
  rcases Nat.lt_or_ge (lead f).length 60 with short | long
  · rw [name_short nonempty (by omega)] at same
    have hyphen : '-' ∈ baseline := by
      rw [← same]
      exact List.mem_append_right _ List.mem_cons_self
    revert hyphen
    decide
  · rw [name_long nonempty long] at same
    have length := congrArg List.length same
    rw [List.length_take, Nat.min_eq_left long] at length
    cases length

theorem hyphen_parts {l₁ l₂ e₁ e₂ : List Char} (bare₁ : '-' ∉ e₁) (bare₂ : '-' ∉ e₂)
    (same : l₁ ++ '-' :: e₁ = l₂ ++ '-' :: e₂) : l₁ = l₂ ∧ e₁ = e₂ := by
  rcases List.append_eq_append_iff.mp same with ⟨more, left, right⟩ | ⟨more, left, right⟩
  · cases more with
    | nil =>
        rw [List.append_nil] at left
        exact ⟨left.symm, (List.cons.inj right).2⟩
    | cons c rest =>
        refine absurd ?_ bare₁
        rw [(List.cons.inj right).2]
        exact List.mem_append_right _ List.mem_cons_self
  · cases more with
    | nil =>
        rw [List.append_nil] at left
        exact ⟨left, (List.cons.inj right).2.symm⟩
    | cons c rest =>
        refine absurd ?_ bare₂
        rw [(List.cons.inj right).2]
        exact List.mem_append_right _ List.mem_cons_self

theorem names_equal (left : changed f ≠ []) (right : changed g ≠ [])
    (injective : digest f = digest g → f = g) : name f = name g ↔ f = g ∨ Alike f g := by
  have bare : ∀ (full : Design) n, '-' ∉ (digest full).take n := fun full n member =>
    digest_hyphen full (List.mem_of_mem_take member)
  rcases Nat.lt_or_ge (lead f).length 60 with short | long
  · rcases Nat.lt_or_ge (lead g).length 60 with short' | long'
    · rw [name_short left (by omega), name_short right (by omega)]
      constructor
      · intro same
        obtain ⟨leads, digits⟩ := hyphen_parts (bare f _) (bare g _) same
        rw [← leads] at digits
        rcases Nat.lt_or_ge (lead f).length 52 with whole | cut
        · rw [List.take_of_length_le (by rw [digest_length]; omega),
            List.take_of_length_le (by rw [digest_length]; omega)] at digits
          exact Or.inl (injective digits)
        · exact Or.inr (.same leads cut digits)
      · rintro (rfl | ⟨leads, _, digits⟩ | ⟨large, _⟩ | ⟨_, large, _⟩ | ⟨_, large, _⟩)
        · rfl
        · rw [← leads, digits]
        · omega
        · omega
        · omega
    · rw [name_short left (by omega), name_long right long']
      constructor
      · exact fun same => Or.inr (.into ⟨by omega, long', same.symm⟩)
      · rintro (rfl | ⟨leads, _⟩ | ⟨large, _⟩ | ⟨_, _, start⟩ | ⟨small, _⟩)
        · omega
        · rw [leads] at short
          omega
        · omega
        · exact start.symm
        · omega
  · rcases Nat.lt_or_ge (lead g).length 60 with short' | long'
    · rw [name_long left long, name_short right (by omega)]
      constructor
      · exact fun same => Or.inr (.back ⟨by omega, long, same⟩)
      · rintro (rfl | ⟨leads, _⟩ | ⟨_, large, _⟩ | ⟨small, _⟩ | ⟨_, _, start⟩)
        · omega
        · rw [leads] at long
          omega
        · omega
        · omega
        · exact start
    · rw [name_long left long, name_long right long']
      constructor
      · exact fun same => Or.inr (.long long long' same)
      · rintro (rfl | ⟨leads, _⟩ | ⟨_, _, start⟩ | ⟨small, _⟩ | ⟨small, _⟩)
        · rfl
        · rw [leads]
        · exact start
        · omega
        · omega

theorem lookup_defaults : ∀ item ∈ defaults, defaults.lookup item.1 = some item.2 := by decide

theorem unchanged {d : Design} (nothing : changed (filled d) = []) : filled d = defaults := by
  have kept : ∀ item ∈ defaults, (item.1, (d.lookup item.1).getD item.2) = item := by
    intro item member
    have inside : (item.1, (d.lookup item.1).getD item.2) ∈ filled d :=
      List.mem_map_of_mem (f := fun item : String × Int =>
        (item.1, (d.lookup item.1).getD item.2)) member
    have value := List.filter_eq_nil_iff.mp nothing _ inside
    simp only [lookup_defaults item member, bne_iff_ne, ne_eq, Option.some.injEq, not_not] at value
    rw [← value]
  calc filled d = defaults.map id := List.map_congr_left kept
    _ = defaults := List.map_id _

end Names

section Designs

theorem slug_known {d : Design} (known : unknown d = []) : slug d = .ok (name (filled d)) := by
  rw [slug, resolve, if_pos known]
  rfl

theorem names_identify (d₁ d₂ : Design)
    (injective : digest (filled d₁) = digest (filled d₂) → filled d₁ = filled d₂) :
    (name (filled d₁) = name (filled d₂) → filled d₁ = filled d₂) ↔
      ¬ Merged (filled d₁) (filled d₂) := by
  by_cases left : changed (filled d₁) = []
  · by_cases right : changed (filled d₂) = []
    · have same : filled d₁ = filled d₂ := (unchanged left).trans (unchanged right).symm
      exact ⟨fun _ merged => merged.differ same, fun _ _ => same⟩
    · have apart : name (filled d₁) ≠ name (filled d₂) := by
        intro same
        rw [name, if_pos left] at same
        exact name_changed right same.symm
      exact ⟨fun _ merged => merged.left left, fun _ same => absurd same apart⟩
  · by_cases right : changed (filled d₂) = []
    · have apart : name (filled d₁) ≠ name (filled d₂) := by
        intro same
        rw [name.eq_def (filled d₂), if_pos right] at same
        exact name_changed left same
      exact ⟨fun _ merged => merged.right right, fun _ same => absurd same apart⟩
    · rw [names_equal left right injective]
      constructor
      · exact fun held merged => merged.differ (held (Or.inr merged.alike))
      · rintro apart (same | alike)
        · exact same
        · exact Classical.byContradiction fun differ => apart ⟨differ, left, right, alike⟩

theorem unrepeated_firsts (seen : List (List Char)) (ds : List Design)
    (known : ∀ d ∈ ds, unknown d = []) :
    unrepeated seen ds = .ok ((firsts (fun d => name (filled d)) ds).filter fun d =>
      decide (name (filled d) ∉ seen)) := by
  induction ds generalizing seen with
  | nil => rfl
  | cons d rest ih =>
      obtain ⟨first, others⟩ := List.forall_mem_cons.mp known
      have step : unrepeated seen (d :: rest) =
          if name (filled d) ∈ seen then unrepeated seen rest
          else (unrepeated (name (filled d) :: seen) rest).map (d :: ·) := by
        rw [unrepeated, slug_known first]
        rfl
      rw [step, firsts, List.filter_cons, List.filter_filter]
      by_cases old : name (filled d) ∈ seen
      · rw [if_pos old, if_neg (by simpa using old), ih seen others]
        refine congrArg Except.ok (List.filter_congr fun b _ => ?_)
        by_cases like : name (filled b) = name (filled d)
        · simp [like, old]
        · simp [like]
      · rw [if_neg old, if_pos (by simpa using old), ih _ others]
        refine congrArg Except.ok (congrArg _ (List.filter_congr fun b _ => ?_))
        simp [Bool.and_comm, not_or]

theorem expand_points {gridName : String} {knobs : List (String × List Int)}
    {explicit : Option (List Design)} {ds : List Design}
    (asked : points gridName knobs explicit = .ok ds) (known : ∀ d ∈ ds, unknown d = []) :
    expand gridName knobs explicit = .ok (firsts (fun d => name (filled d)) ds) := by
  have run : expand gridName knobs explicit = unrepeated [] ds := by
    rw [expand, asked]
    rfl
  rw [run, unrepeated_firsts [] ds known]
  simp

theorem points_baseline {gridName : String} {knobs : List (String × List Int)}
    {explicit : Option (List Design)} {ds : List Design}
    (asked : points gridName knobs explicit = .ok ds) : ∃ rest, ds = [] :: rest := by
  unfold points at asked
  split at asked
  next designs => exact ⟨_, (Except.ok.inj asked).symm⟩
  next =>
    split at asked
    next => exact ⟨_, (Except.ok.inj asked).symm⟩
    next =>
      split at asked
      next => exact ⟨_, (Except.ok.inj asked).symm⟩
      next => cases asked

end Designs

/-- The truncated digest tells the resolved designs of a list apart. -/
def Digested (ds : List Design) : Prop :=
  ∀ d₁ ∈ ds, ∀ d₂ ∈ ds, digest (filled d₁) = digest (filled d₂) → filled d₁ = filled d₂

/-- Slugs are equal exactly where machines are, and the sweep runs the baseline and then the
first design of each machine, where the cut runs no two machines together. -/
theorem slugs_identify (gridName : String) (knobs : List (String × List Int))
    (explicit : Option (List Design)) (ds : List Design)
    (asked : points gridName knobs explicit = .ok ds) (known : ∀ d ∈ ds, unknown d = [])
    (digested : Digested ds) :
    (∀ d₁ ∈ ds, ∀ d₂ ∈ ds, (slug d₁ = slug d₂ ↔ resolve d₁ = resolve d₂) ↔
      ¬ Merged (filled d₁) (filled d₂)) ∧
    ((∃ rest, expand gridName knobs explicit = .ok ([] :: rest) ∧ [] :: rest = firsts filled ds) ↔
      ∀ d₁ ∈ ds, ∀ d₂ ∈ ds, ¬ Merged (filled d₁) (filled d₂)) := by
  have pair : ∀ d₁ ∈ ds, ∀ d₂ ∈ ds,
      (name (filled d₁) = name (filled d₂) → filled d₁ = filled d₂) ↔
        ¬ Merged (filled d₁) (filled d₂) := fun d₁ left d₂ right =>
    names_identify d₁ d₂ (digested d₁ left d₂ right)
  constructor
  · intro d₁ left d₂ right
    rw [← pair d₁ left d₂ right, slug_known (known d₁ left), slug_known (known d₂ right), resolve,
      resolve, if_pos (known d₁ left), if_pos (known d₂ right), Except.ok.injEq, Except.ok.injEq]
    exact ⟨Iff.mp, fun held => ⟨held, congrArg name⟩⟩
  · obtain ⟨others, rfl⟩ := points_baseline asked
    have kept : ∀ rest : List Design, Except.ok (firsts (fun d => name (filled d)) ([] :: others)) =
        (Except.ok ([] :: rest) : Except Refusal (List Design)) ↔
          firsts (fun d => name (filled d)) ([] :: others) = [] :: rest := fun rest => by
      rw [Except.ok.injEq]
    have coarser := firsts_coarser (fun d => name (filled d)) filled ([] :: others)
      fun a _ b _ same => congrArg name same
    simp only [expand_points asked known, kept]
    calc (∃ rest, firsts (fun d => name (filled d)) ([] :: others) = [] :: rest ∧
          [] :: rest = firsts filled ([] :: others))
        ↔ firsts (fun d => name (filled d)) ([] :: others) = firsts filled ([] :: others) := by
          constructor
          · rintro ⟨_, first, second⟩
            exact first.trans second
          · exact fun same => ⟨_, rfl, same⟩
      _ ↔ _ := coarser
      _ ↔ _ := forall₂_congr fun d₁ left => forall₂_congr fun d₂ right => pair d₁ left d₂ right

theorem short_apart {f g : Design} (left : (lead f).length < 52) (right : (lead g).length < 52) :
    ¬ Merged f g := by
  rintro ⟨_, _, _, alike⟩
  cases alike with
  | same _ cut _ => omega
  | long long _ _ => omega
  | into runs => exact absurd runs.2.1 (by omega)
  | back runs => exact absurd runs.2.1 (by omega)

def ways (n : Int) : Design := [("L2_WAYS", n)]

/-- Two sizes of the cache, each swept under a slug of its own. -/
theorem slugs_identify_ways : ∃ ds, points "ofat" [] (some [ways 4, ways 16]) = .ok ds ∧
    Digested ds ∧ slug (ways 4) ≠ slug (ways 16) ∧
    expand "ofat" [] (some [ways 4, ways 16]) = .ok (firsts filled ds) := by
  have zero : digest (filled []) = ['9', 'f', '2', '0', '3', '8', '1', '4'] := by decide +kernel
  have four : digest (filled (ways 4)) = ['0', '8', 'e', 'f', '0', 'f', '9', '4'] := by
    decide +kernel
  have sixteen : digest (filled (ways 16)) = ['2', 'f', '2', 'e', '1', '5', 'f', 'b'] := by
    decide +kernel
  have digested : Digested [[], ways 4, ways 16] := by
    simp [Digested, zero, four, sixteen]
  have short : ∀ d ∈ [[], ways 4, ways 16], (lead (filled d)).length < 52 := by decide +kernel
  have apart := fun d₁ left d₂ right => short_apart (short d₁ left) (short d₂ right)
  obtain ⟨pairs, rows⟩ := slugs_identify "ofat" [] (some [ways 4, ways 16]) [[], ways 4, ways 16]
    rfl (by decide) digested
  refine ⟨_, rfl, digested, fun same => ?_, ?_⟩
  · have machines := ((pairs (ways 4) (by simp) (ways 16) (by simp)).mpr
      (apart _ (by simp) _ (by simp))).mp same
    have differ : filled (ways 4) ≠ filled (ways 16) := by decide +kernel
    exact differ (Except.ok.inj machines)
  · obtain ⟨rest, ran, same⟩ := rows.mpr apart
    rw [ran, same]

/-- Wide lanes and many of them fill the slug. -/
def wide (ways : Int) : Design :=
  [("HOST_LANE_WIDTH", 2 ^ 62), ("HOST_NB_LANES", 2 ^ 62), ("L2_WAYS", ways)]

/-- The cache that they are swept with is dropped. -/
theorem cut_slugs_collide : Digested [[], wide 4, wide 16] ∧ slug (wide 4) = slug (wide 16) ∧
    resolve (wide 4) ≠ resolve (wide 16) ∧
    (expand "ofat" [] (some [wide 4, wide 16])).toOption = some [[], wide 4] := by
  have zero : digest (filled []) = ['9', 'f', '2', '0', '3', '8', '1', '4'] := by decide +kernel
  have four : digest (filled (wide 4)) = ['8', '2', 'f', '7', '7', '3', '9', 'b'] := by
    decide +kernel
  have sixteen : digest (filled (wide 16)) = ['2', '4', '8', 'a', '2', '8', '9', 'c'] := by
    decide +kernel
  have digested : Digested [[], wide 4, wide 16] := by
    simp [Digested, zero, four, sixteen]
  have names : name (filled (wide 4)) = name (filled (wide 16)) := by decide +kernel
  have differ : filled (wide 4) ≠ filled (wide 16) := by decide +kernel
  refine ⟨digested, ?_, ?_, by decide +kernel⟩
  · rw [slug_known (by decide), slug_known (by decide), names]
  · intro same
    exact differ (Except.ok.inj same)

end HeteroSim.DesignSlugs

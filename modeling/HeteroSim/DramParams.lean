import Mathlib.Data.Int.Order.Basic
import Mathlib.Tactic.Ring
import Mathlib.Tactic.Positivity
import Mathlib.Tactic.NormNum
import Mathlib.Tactic.Linarith

/-!
Parameters of the main-memory timing engine (`hetero_dram::Params`), the
checks of its constructor, and the address decoder. Times are picoseconds in
unbounded integers: signed overflow has no defined behaviour in the source, so
nothing is said about it. Addresses are 64-bit words, kept as naturals.
-/

namespace HeteroSim.DramParams

/-- The device families the constructor tells apart by the `kind` string. -/
inductive Kind where
  | dram
  | hyperram
  | other (name : String)
  deriving DecidableEq

structure Params where
  kind : Kind := .dram
  ctrlPs : Int := 20000
  granule : Int := 64
  channels : Int := 1
  ranks : Int := 1
  bankgroups : Int := 1
  banks : Int := 8
  rows : Int := 65536
  pageBytes : Int := 2048
  widthBits : Int := 16
  burstLength : Int := 16
  mtps : Int := 3200
  mapping : List Char := ['R', 'o', 'B', 'a', 'C', 'o']
  tCK : Int := 625
  tRCD : Int := 0
  tRP : Int := 0
  tRPab : Int := 0
  tRAS : Int := 0
  tRC : Int := 0
  tRL : Int := 0
  tWL : Int := 0
  tRRD_S : Int := 0
  tRRD_L : Int := 0
  tFAW : Int := 0
  tCCD_S : Int := 0
  tCCD_L : Int := 0
  tWTR_S : Int := 0
  tWTR_L : Int := 0
  tRTW : Int := 0
  tRTW_L : Int := 0
  tWR : Int := 0
  tRTP : Int := 0
  tREFI : Int := 0
  tRFC : Int := 0
  wqDepth : Int := 0
  wqHigh : Int := 0
  wqLow : Int := 0
  hbCkPs : Int := 5000
  hbCaClks : Int := 3
  hbLatClks : Int := 7
  hbFixed2x : Int := 1
  hbBusBytes : Int := 1
  hbCsmPs : Int := 4000000
  hbRwrPs : Int := 35000

/-- No timing of the dram family is negative. The constructor does not check it. -/
structure NonNegative (p : Params) : Prop where
  tCK : 0 ≤ p.tCK
  tRCD : 0 ≤ p.tRCD
  tRP : 0 ≤ p.tRP
  tRPab : 0 ≤ p.tRPab
  tRAS : 0 ≤ p.tRAS
  tRC : 0 ≤ p.tRC
  tRL : 0 ≤ p.tRL
  tWL : 0 ≤ p.tWL
  tRRD_S : 0 ≤ p.tRRD_S
  tRRD_L : 0 ≤ p.tRRD_L
  tFAW : 0 ≤ p.tFAW
  tCCD_S : 0 ≤ p.tCCD_S
  tCCD_L : 0 ≤ p.tCCD_L
  tWTR_S : 0 ≤ p.tWTR_S
  tWTR_L : 0 ≤ p.tWTR_L
  tRTW : 0 ≤ p.tRTW
  tRTW_L : 0 ≤ p.tRTW_L
  tWR : 0 ≤ p.tWR
  tRTP : 0 ≤ p.tRTP
  tREFI : 0 ≤ p.tREFI
  tRFC : 0 ≤ p.tRFC

/-- Each `_L` timing is at least its `_S` timing. -/
structure GroupsWiden (p : Params) : Prop where
  tRRD : p.tRRD_S ≤ p.tRRD_L
  tCCD : p.tCCD_S ≤ p.tCCD_L
  tWTR : p.tWTR_S ≤ p.tWTR_L

/-- A refresh and the activation after it fit between two refreshes. -/
def RefreshFits (p : Params) : Prop :=
  p.tREFI ≤ 0 ∨ p.tRFC + p.tRCD < p.tREFI

inductive FieldId where
  | row | rank | bankgroup | bank | column | channel
  deriving DecidableEq

structure Field where
  id : FieldId
  bits : Nat

/-- What the constructor derives from `Params` and nothing changes afterwards. -/
structure Config where
  p : Params
  hyperram : Bool := false
  burstBytes : Int := 0
  burstPs : Int := 0
  align : Int := 0
  offsetBits : Nat := 0
  fields : List Field := []

/-- `while ((1LL << b) < v) b++`: `b` never passes `v`, so `v` turns are enough. -/
def log2From : Nat → Nat → Int → Nat
  | 0, b, _ => b
  | turns + 1, b, v => if (2 : Int) ^ b < v then log2From turns (b + 1) v else b

def log2i (v : Int) : Nat := log2From v.toNat 0 v

def isPow2 (v : Int) : Bool := decide (0 < v) && (v.toNat &&& (v.toNat - 1) == 0)

def check (holds : Bool) (what : String) : Except String Unit :=
  if holds then .ok () else .error what

def checkPow2 (v : Int) (what : String) : Except String Unit :=
  check (isPow2 v) (what ++ " must be a power of two")

def fieldNames : List (List Char × FieldId) :=
  [(['R', 'o'], .row), (['R', 'a'], .rank), (['B', 'g'], .bankgroup),
   (['B', 'a'], .bank), (['C', 'o'], .column), (['C', 'h'], .channel)]

def fieldSize (p : Params) (burstBytes : Int) : FieldId → Int
  | .row => p.rows
  | .rank => p.ranks
  | .bankgroup => p.bankgroups
  | .bank => p.banks
  | .column => p.pageBytes.tdiv burstBytes
  | .channel => p.channels

/-- The token loop of `parse_mapping`; `seen` is membership in `fields`. -/
def parseTokens (p : Params) (burstBytes : Int) :
    List Char → List Field → Except String (List Field)
  | a :: b :: rest, fields =>
      let repeated := "mapping '" ++ String.ofList p.mapping ++ "': bad or repeated field '" ++
        String.ofList [a, b] ++ "'"
      match (fieldNames.find? fun name => name.1 == [a, b]) with
      | none => .error repeated
      | some (_, id) =>
          if fields.any fun f => f.id == id then .error repeated
          else parseTokens p burstBytes rest
            (fields ++ [{ id := id, bits := log2i (fieldSize p burstBytes id) }])
  | _, fields => .ok fields

def lacksField (p : Params) (burstBytes : Int) (fields : List Field)
    (name : List Char × FieldId) : Bool :=
  !fields.any (fun f => f.id == name.2) && decide (1 < fieldSize p burstBytes name.2)

def parseMapping (p : Params) (burstBytes : Int) : Except String (List Field) := do
  check (p.mapping.length % 2 == 0)
    ("mapping '" ++ String.ofList p.mapping ++ "' must be a sequence of 2-letter fields")
  let fields ← parseTokens p burstBytes p.mapping []
  match fieldNames.find? (lacksField p burstBytes fields) with
  | some name => .error ("mapping '" ++ String.ofList p.mapping ++ "' lacks field " ++
      String.ofList name.1)
  | none => .ok fields

/-- What `resize` can be asked for: coordinates are `int`, and a vector of more
than `max_size` banks throws. Beyond these bounds the allocation fails or the
coordinates wrap, and the source has no behaviour to model. -/
def allocates (p : Params) : Bool :=
  decide (p.channels ≤ 2 ^ 31) && decide (p.ranks ≤ 2 ^ 31) &&
  decide (p.bankgroups ≤ 2 ^ 31) && decide (p.banks ≤ 2 ^ 31) &&
  decide (p.ranks * p.bankgroups * p.banks ≤ 2 ^ 58)

def queueAdmits (p : Params) : Bool :=
  !(decide (p.wqDepth < 0) || (decide (0 < p.wqDepth) &&
    !(decide (0 < p.wqLow) && decide (p.wqLow ≤ p.wqHigh) && decide (p.wqHigh < p.wqDepth))))

/-- The checks of the dram half of the constructor, in the source's order. A
zero data rate divides by zero there. -/
def configureDram (p : Params) : Except String Config := do
  check (p.mtps != 0) "division by zero"
  let burstBytes := (p.widthBits.tdiv 8) * p.burstLength
  let burstPs := (p.burstLength * 1000000).tdiv p.mtps
  let align := max p.granule burstBytes
  checkPow2 p.channels "channels"
  checkPow2 p.ranks "ranks"
  checkPow2 p.bankgroups "bankgroups"
  checkPow2 p.banks "banks"
  checkPow2 p.rows "rows"
  checkPow2 burstBytes "burst bytes (width_bits/8 * burst_length)"
  checkPow2 align "granule"
  check (p.pageBytes.tmod burstBytes == 0) "page_bytes must be a multiple of the burst size"
  checkPow2 (p.pageBytes.tdiv burstBytes) "bursts per page"
  let fields ← parseMapping p burstBytes
  check (queueAdmits p) "write queue needs 0 < wq_low <= wq_high < wq_depth"
  check (allocates p) "std::bad_alloc"
  return { p := p, burstBytes := burstBytes, burstPs := burstPs, align := align,
           offsetBits := log2i burstBytes, fields := fields }

def configure (p : Params) : Except String Config :=
  match p.kind with
  | .hyperram => do
      check (!(decide (p.hbCkPs ≤ 0) || decide (p.hbBusBytes ≤ 0) || decide (p.granule ≤ 0)))
        "hyperram: clock, bus width and granule must be positive"
      return { p := p, hyperram := true }
  | .other name => .error ("unknown memory kind '" ++ name ++ "'")
  | .dram => configureDram p

structure Coord where
  ch : Int := 0
  ra : Int := 0
  bg : Int := 0
  ba : Int := 0
  row : Int := 0
  col : Int := 0
  deriving DecidableEq

/-- The conversion of a 64-bit word to `int`. -/
def toInt (v : Nat) : Int :=
  if v % 2 ^ 32 < 2 ^ 31 then (v % 2 ^ 32 : Nat) else ((v % 2 ^ 32 : Nat) : Int) - 2 ^ 32

def Coord.put (k : Coord) (id : FieldId) (v : Nat) : Coord :=
  match id with
  | .channel => { k with ch := toInt v }
  | .rank => { k with ra := toInt v }
  | .bankgroup => { k with bg := toInt v }
  | .bank => { k with ba := toInt v }
  | .row => { k with row := v }
  | .column => { k with col := v }

/-- The loop of `decode` over the fields, least significant first. -/
def decodeFields : List Field → Nat → Coord → Coord
  | [], _, k => k
  | f :: rest, a, k =>
      decodeFields rest (a >>> f.bits) (k.put f.id (a &&& (2 ^ f.bits - 1)))

def decode (g : Config) (addr : Nat) : Coord :=
  decodeFields g.fields.reverse (addr >>> g.offsetBits) {}

def bankIndex (p : Params) (k : Coord) : Nat :=
  ((k.ra * p.bankgroups + k.bg) * p.banks + k.ba).toNat

/-! What an accepted configuration guarantees. -/

theorem check_ok (holds : Bool) (what : String) (done : Unit) :
    check holds what = .ok done ↔ holds = true := by
  cases holds <;> simp [check]

theorem except_bind {α β : Type} (first : Except String α)
    (next : α → Except String β) (result : β) :
    (first >>= next) = .ok result ↔ ∃ middle, first = .ok middle ∧ next middle = .ok result := by
  cases first <;> simp [bind, Except.bind]

theorem isPow2_iff (v : Int) : isPow2 v = true ↔ ∃ k : Nat, v = 2 ^ k := by
  constructor
  · intro holds
    simp only [isPow2, Bool.and_eq_true, decide_eq_true_eq, beq_iff_eq] at holds
    obtain ⟨positive, masked⟩ := holds
    have nonzero : v.toNat ≠ 0 := by omega
    obtain ⟨k, same⟩ := (Nat.and_sub_one_eq_zero_iff_isPowerOfTwo nonzero).mp masked
    refine ⟨k, ?_⟩
    have cast : ((v.toNat : Nat) : Int) = ((2 ^ k : Nat) : Int) := by rw [same]
    rw [Int.toNat_of_nonneg (by omega)] at cast
    simpa using cast
  · rintro ⟨k, rfl⟩
    have positive : 0 < (2 : Nat) ^ k := Nat.two_pow_pos k
    have toNat : ((2 : Int) ^ k).toNat = 2 ^ k := by
      have cast : ((2 : Int) ^ k) = ((2 ^ k : Nat) : Int) := by simp
      rw [cast, Int.toNat_natCast]
    simp only [isPow2, toNat, Bool.and_eq_true, decide_eq_true_eq, beq_iff_eq]
    refine ⟨by positivity, ?_⟩
    exact (Nat.and_sub_one_eq_zero_iff_isPowerOfTwo (by omega)).mpr ⟨k, rfl⟩

theorem log2From_pow (k turns b : Nat) (below : b ≤ k) (enough : k ≤ b + turns) :
    log2From turns b (2 ^ k) = k := by
  induction turns generalizing b with
  | zero => simp only [log2From]; omega
  | succ turns ih =>
      by_cases more : b < k
      · have larger : (2 : Int) ^ b < 2 ^ k := pow_lt_pow_right₀ (by norm_num) more
        rw [log2From, if_pos larger]
        exact ih (b + 1) more (by omega)
      · have same : b = k := by omega
        subst same
        simp [log2From]

theorem log2i_pow (k : Nat) : log2i (2 ^ k) = k := by
  apply log2From_pow k _ 0 (Nat.zero_le k)
  have cast : ((2 : Int) ^ k) = ((2 ^ k : Nat) : Int) := by simp
  rw [cast, Int.toNat_natCast, Nat.zero_add]
  exact Nat.lt_two_pow_self.le

/-- What the checks of the dram constructor leave behind. -/
structure Accepted (p : Params) (g : Config) : Prop where
  same : g.p = p
  dram : g.hyperram = false
  burstPs : g.burstPs = (p.burstLength * 1000000).tdiv p.mtps
  burstPow : ∃ k : Nat, g.burstBytes = 2 ^ k
  alignPow : ∃ k : Nat, g.align = 2 ^ k
  aligned : g.burstBytes ≤ g.align
  sizes : ∀ id, ∃ k : Nat, fieldSize p g.burstBytes id = 2 ^ k
  fields : ∀ f ∈ g.fields, f.bits = log2i (fieldSize p g.burstBytes f.id)
  queue : queueAdmits p = true
  fits : allocates p = true

theorem parseTokens_bits (p : Params) (burstBytes : Int) (tokens : List Char)
    (known fields : List Field)
    (good : ∀ f ∈ known, f.bits = log2i (fieldSize p burstBytes f.id))
    (parsed : parseTokens p burstBytes tokens known = .ok fields) :
    ∀ f ∈ fields, f.bits = log2i (fieldSize p burstBytes f.id) := by
  induction tokens, known using parseTokens.induct p burstBytes with
  | case1 a b rest known absent => simp [parseTokens, absent] at parsed
  | case2 a b rest known name id found seen =>
      rw [parseTokens] at parsed
      simp only [found, seen, if_true] at parsed
      cases parsed
  | case3 a b rest known name id found fresh ih =>
      rw [parseTokens] at parsed
      simp only [found, fresh] at parsed
      refine ih ?_ parsed
      intro f member
      rcases List.mem_append.mp member with old | new
      · exact good f old
      · rw [List.mem_singleton.mp new]
  | case4 tokens known short =>
      have done : parseTokens p burstBytes tokens known = .ok known := by
        match tokens, short with
        | [], _ => rfl
        | [_], _ => rfl
        | a :: b :: rest, short => exact absurd rfl (short a b rest)
      rw [done] at parsed
      cases parsed
      exact good

theorem parseMapping_bits (p : Params) (burstBytes : Int) (fields : List Field)
    (parsed : parseMapping p burstBytes = .ok fields) :
    ∀ f ∈ fields, f.bits = log2i (fieldSize p burstBytes f.id) := by
  simp only [parseMapping, except_bind, check_ok, exists_and_left, exists_const] at parsed
  obtain ⟨_, found, tokens, complete⟩ := parsed
  split at complete
  · cases complete
  · cases complete
    exact parseTokens_bits p burstBytes p.mapping [] _ (by simp) tokens

theorem configure_accepted (p : Params) (g : Config) (dram : p.kind = .dram)
    (accepted : configure p = .ok g) : Accepted p g := by
  simp only [configure, dram, configureDram, checkPow2, except_bind, check_ok,
    exists_and_left, exists_const] at accepted
  obtain ⟨_, channels, ranks, bankgroups, banks, rows, burst, align, _, columns,
    fields, parsed, queue, fits, result⟩ := accepted
  cases result
  refine ⟨rfl, rfl, rfl, (isPow2_iff _).mp burst, (isPow2_iff _).mp align, Int.le_max_right _ _,
    ?_, parseMapping_bits p _ fields parsed, queue, fits⟩
  intro id
  cases id
  · exact (isPow2_iff _).mp rows
  · exact (isPow2_iff _).mp ranks
  · exact (isPow2_iff _).mp bankgroups
  · exact (isPow2_iff _).mp banks
  · exact (isPow2_iff _).mp columns
  · exact (isPow2_iff _).mp channels

/-- Every coordinate addresses something the constructor allocated. -/
structure InRange (p : Params) (k : Coord) : Prop where
  ch : 0 ≤ k.ch ∧ k.ch < p.channels
  ra : 0 ≤ k.ra ∧ k.ra < p.ranks
  bg : 0 ≤ k.bg ∧ k.bg < p.bankgroups
  ba : 0 ≤ k.ba ∧ k.ba < p.banks
  row : 0 ≤ k.row

theorem toInt_small (v : Nat) (small : v < 2 ^ 31) : toInt v = v := by
  have whole : v % 2 ^ 32 = v := Nat.mod_eq_of_lt (by omega)
  simp only [toInt, whole]
  rw [if_pos small]

theorem masked_small (size : Int) (k v : Nat) (pow : size = 2 ^ k) (small : size ≤ 2 ^ 31) :
    0 ≤ toInt (v &&& (2 ^ k - 1)) ∧ toInt (v &&& (2 ^ k - 1)) < size := by
  have bound : v % 2 ^ k < 2 ^ k := Nat.mod_lt _ (Nat.two_pow_pos k)
  have cast : size = ((2 ^ k : Nat) : Int) := by rw [pow]; simp
  have fits : v % 2 ^ k < 2 ^ 31 := by
    have : ((2 ^ k : Nat) : Int) ≤ 2 ^ 31 := cast ▸ small
    omega
  rw [Nat.and_two_pow_sub_one_eq_mod, toInt_small _ fits]
  omega

section Decoding

variable {p : Params} {g : Config}

theorem Accepted.size_small (accepted : Accepted p g) :
    p.channels ≤ 2 ^ 31 ∧ p.ranks ≤ 2 ^ 31 ∧ p.bankgroups ≤ 2 ^ 31 ∧ p.banks ≤ 2 ^ 31 := by
  have fits := accepted.fits
  simp only [allocates, Bool.and_eq_true, decide_eq_true_eq] at fits
  exact ⟨fits.1.1.1.1, fits.1.1.1.2, fits.1.1.2, fits.1.2⟩

theorem Accepted.size_positive (accepted : Accepted p g) (id : FieldId) :
    0 < fieldSize p g.burstBytes id := by
  obtain ⟨k, size⟩ := accepted.sizes id
  rw [size]
  positivity

theorem Accepted.put_in_range (accepted : Accepted p g) (f : Field) (member : f ∈ g.fields)
    (k : Coord) (v : Nat) (ranged : InRange p k) :
    InRange p (k.put f.id (v &&& (2 ^ f.bits - 1))) := by
  obtain ⟨channels, ranks, bankgroups, banks⟩ := accepted.size_small
  have bits := accepted.fields f member
  obtain ⟨j, size⟩ := accepted.sizes f.id
  rw [size, log2i_pow] at bits
  rw [bits]
  cases kind : f.id <;> rw [kind] at size
  · exact { ranged with row := Int.natCast_nonneg _ }
  · exact { ranged with ra := masked_small _ j v size ranks }
  · exact { ranged with bg := masked_small _ j v size bankgroups }
  · exact { ranged with ba := masked_small _ j v size banks }
  · exact { ranged with }
  · exact { ranged with ch := masked_small _ j v size channels }

theorem Accepted.fields_in_range (accepted : Accepted p g) (fields : List Field)
    (known : ∀ f ∈ fields, f ∈ g.fields) (a : Nat) (k : Coord) (ranged : InRange p k) :
    InRange p (decodeFields fields a k) := by
  induction fields generalizing a k with
  | nil => exact ranged
  | cons f rest ih =>
      apply ih (fun f member => known f (List.mem_cons_of_mem _ member))
      exact accepted.put_in_range f (known f List.mem_cons_self) k a ranged

theorem Accepted.decode_in_range (accepted : Accepted p g) (addr : Nat) :
    InRange p (decode g addr) := by
  apply accepted.fields_in_range g.fields.reverse (by simp)
  have channels := accepted.size_positive .channel
  have ranks := accepted.size_positive .rank
  have bankgroups := accepted.size_positive .bankgroup
  have banks := accepted.size_positive .bank
  exact ⟨⟨Int.le_refl _, channels⟩, ⟨Int.le_refl _, ranks⟩, ⟨Int.le_refl _, bankgroups⟩,
    ⟨Int.le_refl _, banks⟩, Int.le_refl _⟩

def bankCount (p : Params) : Nat := (p.ranks * p.bankgroups * p.banks).toNat

theorem bankIndex_lt (k : Coord) (ranged : InRange p k) : bankIndex p k < bankCount p := by
  obtain ⟨_, ⟨raLow, raHigh⟩, ⟨bgLow, bgHigh⟩, ⟨baLow, baHigh⟩, _⟩ := ranged
  have group : k.ra * p.bankgroups + k.bg < p.ranks * p.bankgroups := by nlinarith
  have index : (k.ra * p.bankgroups + k.bg) * p.banks + k.ba <
      p.ranks * p.bankgroups * p.banks := by nlinarith
  have low : 0 ≤ (k.ra * p.bankgroups + k.bg) * p.banks + k.ba := by
    have : 0 ≤ p.bankgroups := by omega
    have : 0 ≤ p.banks := by omega
    positivity
  simp only [bankIndex, bankCount]
  omega

end Decoding

end HeteroSim.DramParams

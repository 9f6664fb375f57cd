import HeteroSim.DesignRules
import HeteroSim.DesignSlugs
import HeteroSim.IntSpellings
import Mathlib.Data.String.Basic

/-!
The GUI's sweep as design points, the cells it announces for them, and the rows that the
driver writes for the file with these points. `parse` is `parse_int`, in a build that panics
or in one that wraps. The cells themselves are measured elsewhere; here one only counts.
-/

namespace HeteroSim.SweepCells

open DesignRules (NoZero validate)
open DesignSlugs
open FirstOccurrences
open IntSpellings (Panic strip)

/-! ### The space -/

/-- Items by name. -/
@[ext]
structure BTreeMap (β : Type) where
  items : List (String × β)
  ordered : items.Pairwise fun a b => a.1 < b.1
  deriving DecidableEq

def inserted {β : Type} (k : String) (v : β) : List (String × β) → List (String × β)
  | [] => [(k, v)]
  | item :: rest =>
      if k < item.1 then (k, v) :: item :: rest
      else if k = item.1 then (k, v) :: rest
      else item :: inserted k v rest

theorem inserted_keys {β : Type} (k : String) (v : β) (items : List (String × β)) :
    ∀ item ∈ inserted k v items, item = (k, v) ∨ item ∈ items := by
  induction items with
  | nil => exact fun item member => Or.inl (List.mem_singleton.mp member)
  | cons first rest ih =>
      intro item member
      unfold inserted at member
      split at member
      next => exact List.mem_cons.mp member
      next =>
        split at member
        next =>
          rcases List.mem_cons.mp member with new | old
          · exact Or.inl new
          · exact Or.inr (List.mem_cons_of_mem first old)
        next =>
          rcases List.mem_cons.mp member with rfl | later
          · exact Or.inr List.mem_cons_self
          · exact (ih item later).imp id (List.mem_cons_of_mem first)

theorem inserted_ordered {β : Type} (k : String) (v : β) (items : List (String × β))
    (ordered : items.Pairwise fun a b => a.1 < b.1) :
    (inserted k v items).Pairwise fun a b => a.1 < b.1 := by
  induction items with
  | nil => exact List.pairwise_singleton _ _
  | cons first rest ih =>
      obtain ⟨least, others⟩ := List.pairwise_cons.mp ordered
      unfold inserted
      split
      next below =>
        refine List.pairwise_cons.mpr ⟨fun item member => ?_, ordered⟩
        rcases List.mem_cons.mp member with rfl | later
        · exact below
        · exact lt_trans below (least item later)
      next above =>
        split
        next same =>
          subst same
          exact List.pairwise_cons.mpr ⟨least, others⟩
        next other =>
          refine List.pairwise_cons.mpr ⟨fun item member => ?_, ih others⟩
          rcases inserted_keys k v rest item member with rfl | old
          · exact lt_of_le_of_ne (not_lt.mp above) (Ne.symm other)
          · exact least item old

namespace BTreeMap

variable {β : Type}

def empty : BTreeMap β where
  items := []
  ordered := List.Pairwise.nil

def insert (d : BTreeMap β) (k : String) (v : β) : BTreeMap β where
  items := inserted k v d.items
  ordered := inserted_ordered k v d.items d.ordered

end BTreeMap

inductive SpaceMode where
  | ofat
  | factorial
  | list

/-- What of a `SweepSpec` decides its points and cells. -/
structure SweepSpec where
  models : List (List Char)
  mode : SpaceMode
  /-- The values as typed. -/
  values : BTreeMap (List Char)
  list : List Char

inductive Complaint where
  | overflow
  /-- `is not an integer`. -/
  | notInteger (text : List Char)
  /-- `want KNOB=value`. -/
  | wantValue (token : List Char)
  | unknownKnob (knob : String)
  | atKnob (knob : String) (complaint : Complaint)
  | atLine (line : Nat) (complaint : Complaint)

section Space

variable (parse : List Char → Except Panic (Option Int))

def readInt (v : List Char) : Except Complaint Int :=
  match parse v with
  | .ok (some n) => .ok n
  | .ok none => .error (.notInteger v)
  | .error .overflow => .error .overflow

def parseValues (s : List Char) : Except Complaint (List Int) :=
  (((s.splitOnP fun c => c ∈ [',', ' ', ';']).map strip).filter (· ≠ [])).mapM (readInt parse)

def splitOnce (c : Char) (text : List Char) : Option (List Char × List Char) :=
  match text.span (· != c) with
  | (before, _ :: after) => some (before, after)
  | (_, []) => none

def parseToken (known : List String) (d : BTreeMap Int) (token : List Char) :
    Except Complaint (BTreeMap Int) :=
  match splitOnce '=' token with
  | none => .error (.wantValue token)
  | some (k, v) =>
      let k := String.ofList ((strip k).map Char.toUpper)
      if known ≠ [] ∧ k ∉ known then .error (.unknownKnob k)
      else
        match readInt parse (strip v) with
        | .ok n => .ok (d.insert k n)
        | .error complaint => .error (.atKnob k complaint)

def parseLine (line : List Char) (known : List String) : Except Complaint (BTreeMap Int) :=
  ((line.splitOnP fun c => c ∈ [' ', ',', '\t']).filter (· ≠ [])).foldlM
    (parseToken parse known) .empty

variable (spec : SweepSpec)

def SweepSpec.axes : Except Complaint (List (String × List Int)) := do
  let read ← spec.values.items.mapM fun (k, s) =>
    match parseValues parse s with
    | .ok vs => .ok (k, vs)
    | .error complaint => .error (.atKnob k complaint)
  return read.filter fun axis => axis.2 ≠ []

def ofatDesigns (axes : List (String × List Int)) : List (BTreeMap Int) :=
  axes.flatMap fun (k, vs) => vs.map fun v => BTreeMap.empty.insert k v

def combined (axes : List (String × List Int)) : List (BTreeMap Int) :=
  axes.foldl (fun acc (k, vs) => acc.flatMap fun d => vs.map fun v => d.insert k v) [.empty]

def numberedLines (text : List Char) : List (List Char × Nat) :=
  (((text.splitOn '\n').map fun l => strip (l.takeWhile (· != '#'))).zipIdx).filter (·.1 ≠ [])

def listDesigns (known : List String) : Except Complaint (List (BTreeMap Int)) :=
  (numberedLines spec.list).mapM fun (l, i) =>
    match parseLine parse l known with
    | .ok d => .ok d
    | .error complaint => .error (.atLine (i + 1) complaint)

/-- The points as written, with repeats. -/
def SweepSpec.written (known : List String) : Except Complaint (List (BTreeMap Int)) :=
  match spec.mode with
  | .ofat => (spec.axes parse).map ofatDesigns
  | .factorial => (spec.axes parse).map fun axes => (combined axes).filter fun d => d.items ≠ []
  | .list => listDesigns parse spec known

def SweepSpec.expand (known : List String) : Except Complaint (List (BTreeMap Int)) :=
  (spec.written parse known).map (firsts id)

def SweepSpec.cells (designs : Nat) : Nat := (designs + 1) * spec.models.length

end Space

/-! ### The driver -/

inductive Halt where
  /-- Refused by the argument parser. -/
  | usage
  | unknownKnob (entry : Nat) (knob : String)
  | refused (refusal : Refusal)
  | needsBuild (keys : List (List Char))
  | raised (text : String)

/-- `design[name] = value`. -/
def assign (design : Design) (k : String) (v : Int) : Design :=
  if (design.map Prod.fst).contains k then design.map fun item => if item.1 =
    k then (k, v) else item
  else design ++ [(k, v)]

def knobName (knob : String) : String := String.ofList ((strip knob.toList).map Char.toUpper)

def loadItem (entry : Nat) (design : Design) (item : String × Int) : Except Halt Design :=
  if (defaults.map Prod.fst).contains (knobName item.1) then
    .ok (assign design (knobName item.1) item.2)
  else .error (.unknownKnob entry item.1)

def loadDesign (entry : Nat) (items : List (String × Int)) : Except Halt Design :=
  items.foldlM (loadItem entry) []

def loadDesigns (designs : List (BTreeMap Int)) : Except Halt (List Design) :=
  designs.zipIdx.mapM fun (d, i) => loadDesign i d.items

/-- The design as `validate` reads it. -/
def rules (full : Design) : DesignRules.Design :=
  let value := fun k => (full.lookup k).getD 0
  { hostVlen := value "HOST_VLEN", hostNbLanes := value "HOST_NB_LANES",
    hostLaneWidth := value "HOST_LANE_WIDTH", spatzVlen := value "SPATZ_VLEN",
    spatzNbLanes := value "SPATZ_NB_LANES", spatzLaneWidth := value "SPATZ_LANE_WIDTH",
    snitchNbCore := value "SNITCH_NB_CORE", spatzNbCore := value "SPATZ_NB_CORE",
    tcdmSize := value "TCDM_SIZE", icacheSize := value "ICACHE_SIZE",
    icacheWays := value "ICACHE_WAYS", dcacheSize := value "DCACHE_SIZE",
    dcacheWays := value "DCACHE_WAYS", l2Size := value "L2_SIZE", l2Ways := value "L2_WAYS",
    lineSize := value "LINE_SIZE" }

/-- What a row says of its cell before anything is measured. -/
structure Row where
  slug : List Char
  design : Design
  model : List Char
  reasons : List String

def runCell (design : Design) (model : List Char) : Except Halt Row :=
  match resolve design with
  | .error refusal => .error (.refused refusal)
  | .ok full =>
      -- Nothing catches what `validate` raises.
      match validate (rules full) with
      | .ok reasons => .ok { slug := name full, design := full, model := model, reasons := reasons }
      | .error text => .error (.raised text)

def cellLoop : List (Design × List Char) → List Row × Option Halt
  | [] => ([], none)
  | (design, model) :: rest =>
      match runCell design model with
      | .ok row => (row :: (cellLoop rest).1, (cellLoop rest).2)
      | .error halt => ([], some halt)

def chosen (designs : List (BTreeMap Int)) : Except Halt (List Design) :=
  match loadDesigns designs with
  | .error halt => .error halt
  | .ok explicit =>
      match (do
        let designs ← DesignSlugs.expand "ofat" [] (some explicit)
        let haveKey ← buildKey []
        let keys ← designs.mapM buildKey
        return (designs, keys.filter (· ≠ haveKey))) with
      | .error refusal => .error (.refused refusal)
      | .ok (designs, needsBuild) =>
          if needsBuild = [] then .ok designs
          else .error (.needsBuild needsBuild)

/-- `sweep/run.py --models .. --designs ..`. -/
def sweep (designs : List (BTreeMap Int)) (models : List (List Char)) : List Row × Option Halt :=
  if models = [] then ([], some .usage)
  else
    match chosen designs with
    | .error halt => ([], some halt)
    | .ok designs => cellLoop (designs.flatMap fun d => models.map fun model => (d, model))

/-! ### Where the GUI foresees the rows -/

/-- No value of a knob moved alone is its default; of all combinations one knob has not its
default; the lines differ from the baseline and, unless they are written alike, from each
other. -/
def Foreseen (parse : List Char → Except Panic (Option Int)) (known : List String)
    (spec : SweepSpec) : Prop :=
  match spec.mode with
  | .ofat => ∀ axes, spec.axes parse = .ok axes →
      ∀ axis ∈ axes, ∀ v ∈ axis.2, defaults.lookup axis.1 ≠ some v
  | .factorial => ∀ axes, spec.axes parse = .ok axes →
      axes = [] ∨ ∃ axis ∈ axes, ∀ v ∈ axis.2, defaults.lookup axis.1 ≠ some v
  | .list => ∀ lines, listDesigns parse spec known = .ok lines →
      (∀ d ∈ lines, filled d.items ≠ defaults) ∧
      ∀ d₁ ∈ lines, ∀ d₂ ∈ lines, filled d₁.items = filled d₂.items → d₁ = d₂

/-! ### Designs over the known knobs -/

structure Named (d : Design) : Prop where
  known : ∀ item ∈ d, item.1 ∈ defaults.map Prod.fst
  distinct : (d.map Prod.fst).Nodup

section Designs

variable {d d' : Design}

theorem known_default (named : Named d) {item : String × Int} (member : item ∈ d) :
    ∃ w, (item.1, w) ∈ defaults := by
  obtain ⟨⟨k, w⟩, inside, same⟩ := List.mem_map.mp (named.known item member)
  cases same
  exact ⟨w, inside⟩

theorem filled_eq : filled d = filled d' ↔
    ∀ item ∈ defaults, (d.lookup item.1).getD item.2 = (d'.lookup item.1).getD item.2 := by
  rw [filled, filled, List.map_inj_left]
  refine forall₂_congr fun item _ => ?_
  simp only [Prod.mk.injEq, true_and]

theorem filled_value (named : Named d) {item : String × Int} (member : item ∈ d) {w : Int}
    (byDefault : (item.1, w) ∈ defaults) (same : filled d = filled d') :
    (d'.lookup item.1).getD w = item.2 := by
  rw [← filled_eq.mp same _ byDefault, lookup_member named.distinct member]
  rfl

theorem filled_defaults (named : Named d) :
    filled d = defaults ↔ ∀ item ∈ d, defaults.lookup item.1 = some item.2 := by
  have plain : filled [] = defaults := by decide
  constructor
  · intro same item member
    obtain ⟨w, inside⟩ := known_default named member
    have value := filled_value named member inside (same.trans plain.symm)
    rw [← value]
    exact lookup_defaults _ inside
  · intro moved
    rw [← plain, filled_eq]
    intro item inside
    cases found : d.lookup item.1 with
    | none => rfl
    | some v =>
        have byDefault := moved _ (member_lookup found)
        rw [lookup_defaults item inside, Option.some.injEq] at byDefault
        exact byDefault.symm

theorem filled_injective (named : Named d) (keys : d.map Prod.fst = d'.map Prod.fst)
    (same : filled d = filled d') : d = d' := by
  have distinct : (d'.map Prod.fst).Nodup := keys ▸ named.distinct
  have value : ∀ item ∈ d, d'.lookup item.1 = some item.2 := by
    intro item member
    obtain ⟨w, inside⟩ := known_default named member
    have moved : item.1 ∈ d'.map Prod.fst := keys ▸ List.mem_map_of_mem member
    obtain ⟨other, member', isSame⟩ := List.mem_map.mp moved
    have read := filled_value named member inside same
    have found := lookup_member distinct member'
    rw [isSame] at found
    rw [found, Option.getD_some] at read
    rw [found, read]
  apply List.ext_getElem (by simpa using congrArg List.length keys)
  intro i left right
  have key : d[i].1 = d'[i].1 := by
    have ith := congrArg (fun l => l[i]?) keys
    simpa [left, right] using ith
  refine Prod.ext key ?_
  have read := value d[i] (List.getElem_mem left)
  rw [key, lookup_member distinct (List.getElem_mem right), Option.some.injEq] at read
  exact read.symm

end Designs

/-! ### The points of each mode -/

section Modes

variable {axes : List (String × List Int)} {d : BTreeMap Int}

theorem mapM_keys {α β ε : Type} {f : α → Except ε β} {l : List α} {l' : List β}
    (read : l.mapM f = .ok l') : List.Forall₂ (fun a b => f a = .ok b) l l' := by
  induction l generalizing l' with
  | nil =>
      cases read
      exact List.Forall₂.nil
  | cons a rest ih =>
      rw [List.mapM_cons] at read
      cases first : f a with
      | error e => rw [first] at read; cases read
      | ok b =>
          cases others : rest.mapM f with
          | error e => rw [first, others] at read; cases read
          | ok bs =>
              rw [first, others] at read
              cases read
              exact List.Forall₂.cons first (ih others)

theorem mapM_all {α β ε : Type} {f : α → Except ε β} (g : α → β) {l : List α}
    (every : ∀ a ∈ l, f a = .ok (g a)) : l.mapM f = .ok (l.map g) := by
  induction l with
  | nil => rfl
  | cons a rest ih =>
      obtain ⟨first, others⟩ := List.forall_mem_cons.mp every
      rw [List.mapM_cons, first, ih others]
      rfl

theorem axes_ordered {parse : List Char → Except Panic (Option Int)} {spec : SweepSpec}
    (read : spec.axes parse = .ok axes) : axes.Pairwise fun a b => a.1 < b.1 := by
  rw [SweepSpec.axes] at read
  cases all : spec.values.items.mapM (fun (k, s) =>
      match parseValues parse s with
      | .ok vs => .ok (k, vs)
      | .error complaint => .error (.atKnob k complaint) :
      String × List Char → Except Complaint (String × List Int)) with
  | error complaint => rw [all] at read; cases read
  | ok pairs =>
      rw [all] at read
      cases read
      have keys : spec.values.items.map Prod.fst = pairs.map Prod.fst := by
        refine List.Forall₂.rec rfl (fun {a b} _ _ first _ ih => ?_) (mapM_keys all)
        rw [List.map_cons, List.map_cons, ih]
        simp only at first
        split at first
        next => cases first; rfl
        next => cases first
      have ordered := spec.values.ordered
      rw [← List.pairwise_map, keys, List.pairwise_map] at ordered
      exact ordered.filter _

theorem inserted_last {k : String} {v : Int} {items : List (String × Int)}
    (above : ∀ item ∈ items, item.1 < k) : inserted k v items = items ++ [(k, v)] := by
  induction items with
  | nil => rfl
  | cons first rest ih =>
      obtain ⟨below, others⟩ := List.forall_mem_cons.mp above
      rw [inserted, if_neg (lt_asymm below), if_neg (ne_of_gt below), ih others]
      rfl

def Choice (items : List (String × Int)) (axes : List (String × List Int)) : Prop :=
  List.Forall₂ (fun item axis => item.1 = axis.1 ∧ item.2 ∈ axis.2) items axes

theorem mem_combined_from (ordered : axes.Pairwise fun a b => a.1 < b.1)
    (acc : List (BTreeMap Int))
    (above : ∀ a ∈ acc, ∀ item ∈ a.items, ∀ axis ∈ axes, item.1 < axis.1) :
    d ∈ axes.foldl (fun acc (k, vs) => acc.flatMap fun d => vs.map fun v => d.insert k v) acc ↔
      ∃ a ∈ acc, ∃ items, Choice items axes ∧ d.items = a.items ++ items := by
  induction axes generalizing acc with
  | nil =>
      constructor
      · exact fun member => ⟨d, member, [], List.Forall₂.nil, (List.append_nil _).symm⟩
      · rintro ⟨a, member, items, choice, same⟩
        cases choice
        rw [List.append_nil] at same
        rwa [BTreeMap.ext same]
  | cons axis rest ih =>
      obtain ⟨least, others⟩ := List.pairwise_cons.mp ordered
      have put : ∀ a ∈ acc, ∀ v, (a.insert axis.1 v).items = a.items ++ [(axis.1, v)] :=
        fun a inside v => inserted_last fun item member => above a inside item member axis
          List.mem_cons_self
      have above' : ∀ a ∈ acc.flatMap fun d => axis.2.map fun v => d.insert axis.1 v,
          ∀ item ∈ a.items, ∀ axis' ∈ rest, item.1 < axis'.1 := by
        intro b made item member axis' later
        obtain ⟨a, inside, moved⟩ := List.mem_flatMap.mp made
        obtain ⟨v, _, rfl⟩ := List.mem_map.mp moved
        rw [put a inside, List.mem_append, List.mem_singleton] at member
        rcases member with old | rfl
        · exact above a inside item old axis' (List.mem_cons_of_mem axis later)
        · exact least axis' later
      rw [List.foldl_cons, ih others _ above']
      constructor
      · rintro ⟨b, made, items, choice, same⟩
        obtain ⟨a, inside, moved⟩ := List.mem_flatMap.mp made
        obtain ⟨v, value, rfl⟩ := List.mem_map.mp moved
        refine ⟨a, inside, (axis.1, v) :: items, .cons ⟨rfl, value⟩ choice, ?_⟩
        rw [same, put a inside, List.append_assoc]
        rfl
      · rintro ⟨a, inside, items, choice, same⟩
        cases choice with
        | @cons item _ items _ first choice =>
            refine ⟨a.insert axis.1 item.2, List.mem_flatMap.mpr
              ⟨a, inside, List.mem_map_of_mem first.2⟩, items, choice, ?_⟩
            rw [same, put a inside, List.append_assoc, ← first.1]
            rfl

theorem mem_combined (ordered : axes.Pairwise fun a b => a.1 < b.1) :
    d ∈ combined axes ↔ Choice d.items axes := by
  rw [combined, mem_combined_from ordered [.empty] (by simp [BTreeMap.empty])]
  constructor
  · rintro ⟨a, start, items, choice, same⟩
    rw [List.mem_singleton.mp start] at same
    rwa [same]
  · exact fun choice => ⟨.empty, List.mem_singleton_self _, d.items, choice, rfl⟩

theorem choice_keys {items : List (String × Int)} (choice : Choice items axes) :
    items.map Prod.fst = axes.map Prod.fst := by
  induction choice with
  | nil => rfl
  | cons first _ ih => rw [List.map_cons, List.map_cons, first.1, ih]

theorem choice_item {items : List (String × Int)} (choice : Choice items axes)
    {axis : String × List Int} (member : axis ∈ axes) :
    ∃ v ∈ axis.2, (axis.1, v) ∈ items := by
  induction choice with
  | nil => exact absurd member List.not_mem_nil
  | @cons item _ _ _ first _ ih =>
      rcases List.mem_cons.mp member with rfl | later
      · exact ⟨item.2, first.2, by rw [← first.1]; exact List.mem_cons_self⟩
      · obtain ⟨v, value, inside⟩ := ih later
        exact ⟨v, value, List.mem_cons_of_mem _ inside⟩

def Distinct (points : List (BTreeMap Int)) : Prop :=
  (∀ d ∈ points, filled d.items ≠ defaults) ∧
  ∀ d₁ ∈ points, ∀ d₂ ∈ points, filled d₁.items = filled d₂.items → d₁ = d₂

theorem mem_ofat : d ∈ ofatDesigns axes ↔
    ∃ axis ∈ axes, ∃ v ∈ axis.2, BTreeMap.empty.insert axis.1 v = d := by
  simp only [ofatDesigns, List.mem_flatMap, List.mem_map]

theorem ofat_distinct (named : ∀ d ∈ ofatDesigns axes, Named d.items) :
    Distinct (ofatDesigns axes) ↔
      ∀ axis ∈ axes, ∀ v ∈ axis.2, defaults.lookup axis.1 ≠ some v := by
  have moves : ∀ axis ∈ axes, ∀ v ∈ axis.2,
      filled [(axis.1, v)] = defaults ↔ defaults.lookup axis.1 = some v := by
    intro axis member v value
    have here := filled_defaults (named _ (mem_ofat.mpr ⟨axis, member, v, value, rfl⟩))
    rw [show (BTreeMap.empty.insert axis.1 v).items = [(axis.1, v)] from rfl] at here
    rw [here]
    simp
  constructor
  · rintro ⟨moved, _⟩ axis member v value same
    exact moved _ (mem_ofat.mpr ⟨axis, member, v, value, rfl⟩)
      ((moves axis member v value).mpr same)
  · intro moved
    constructor
    · intro d member
      obtain ⟨axis, inside, v, value, rfl⟩ := mem_ofat.mp member
      exact fun same => moved axis inside v value ((moves axis inside v value).mp same)
    · intro d₁ left d₂ right same
      have known := named d₁ left
      obtain ⟨axis₁, inside₁, v₁, value₁, rfl⟩ := mem_ofat.mp left
      obtain ⟨axis₂, inside₂, v₂, value₂, rfl⟩ := mem_ofat.mp right
      have moves₁ : (axis₁.1, v₁) ∈ (BTreeMap.empty.insert axis₁.1 v₁).items := List.mem_cons_self
      obtain ⟨w, byDefault⟩ := known_default known moves₁
      have read := filled_value known moves₁ byDefault same
      by_cases key : axis₁.1 = axis₂.1
      · have found : [(axis₂.1, v₂)].lookup axis₁.1 = some v₂ := by
          rw [key]
          exact List.lookup_cons_self
        rw [show (BTreeMap.empty.insert axis₂.1 v₂).items = [(axis₂.1, v₂)] from rfl, found] at read
        have equal : v₂ = v₁ := read
        rw [key, equal]
      · have missed : [(axis₂.1, v₂)].lookup axis₁.1 = none := by
          rw [List.lookup_cons, beq_false_of_ne key]
          rfl
        rw [show (BTreeMap.empty.insert axis₂.1 v₂).items =
          [(axis₂.1, v₂)] from rfl, missed] at read
        exact absurd ((lookup_defaults _ byDefault).trans (congrArg some read))
          (moved axis₁ inside₁ v₁ value₁)

theorem mem_factorial (ordered : axes.Pairwise fun a b => a.1 < b.1) :
    d ∈ (combined axes).filter (fun d => d.items ≠ []) ↔ Choice d.items axes ∧ d.items ≠ [] := by
  rw [List.mem_filter, mem_combined ordered, decide_eq_true_eq]

theorem factorial_distinct (ordered : axes.Pairwise fun a b => a.1 < b.1)
    (named : ∀ d ∈ (combined axes).filter (fun d => d.items ≠ []), Named d.items) :
    Distinct ((combined axes).filter fun d => d.items ≠ []) ↔
      axes = [] ∨ ∃ axis ∈ axes, ∀ v ∈ axis.2, defaults.lookup axis.1 ≠ some v := by
  constructor
  · rintro ⟨moved, _⟩
    by_contra every
    rw [not_or] at every
    obtain ⟨nonempty, every⟩ := every
    have values : ∀ axis ∈ axes, ∃ v ∈ axis.2, defaults.lookup axis.1 = some v := by
      intro axis member
      by_contra without
      exact every ⟨axis, member, fun v value same => without ⟨v, value, same⟩⟩
    -- The baseline is one of the combinations.
    have choice : Choice (axes.map fun axis => (axis.1, (defaults.lookup axis.1).getD 0)) axes := by
      rw [Choice, List.forall₂_map_left_iff, List.forall₂_same]
      intro axis member
      obtain ⟨v, value, same⟩ := values axis member
      rw [same]
      exact ⟨rfl, value⟩
    have ordered' : (axes.map fun axis => (axis.1, (defaults.lookup axis.1).getD 0)).Pairwise
        fun a b => a.1 < b.1 := List.pairwise_map.mpr ordered
    have inside := (mem_factorial ordered (d := ⟨_, ordered'⟩)).mpr
      ⟨choice, fun none => nonempty (List.map_eq_nil_iff.mp none)⟩
    refine moved _ inside ((filled_defaults (named _ inside)).mpr fun item member => ?_)
    obtain ⟨axis, there, rfl⟩ := List.mem_map.mp member
    obtain ⟨v, _, same⟩ := values axis there
    rw [same]
    rfl
  · intro apart
    constructor
    · intro d member same
      obtain ⟨choice, nonempty⟩ := (mem_factorial ordered).mp member
      rcases apart with rfl | ⟨axis, inside, moved⟩
      · exact nonempty (List.forall₂_nil_right_iff.mp choice)
      · obtain ⟨v, value, item⟩ := choice_item choice inside
        exact moved v value ((filled_defaults (named d member)).mp same _ item)
    · intro d₁ left d₂ right same
      have keys := (choice_keys ((mem_factorial ordered).mp left).1).trans
        (choice_keys ((mem_factorial ordered).mp right).1).symm
      exact BTreeMap.ext (filled_injective (named d₁ left) keys same)

end Modes

/-! ### The rows -/

section Rows

variable {ds : List (BTreeMap Int)}

theorem named_map {d : BTreeMap Int} (known : ∀ item ∈ d.items, item.1 ∈ defaults.map Prod.fst) :
    Named d.items where
  known := known
  distinct := List.pairwise_map.mpr (d.ordered.imp fun below => ne_of_lt below)

theorem knobName_known : ∀ k ∈ defaults.map Prod.fst, knobName k = k := by decide +kernel

theorem unknown_named {d : Design} (named : Named d) : unknown d = [] := by
  rw [unknown, List.filter_eq_nil_iff]
  intro k member
  obtain ⟨item, inside, rfl⟩ := List.mem_map.mp member
  rw [List.contains_iff_mem.mpr (named.known item inside)]
  decide

theorem loadDesign_named {d : Design} (entry : Nat) (named : Named d) :
    loadDesign entry d = .ok d := by
  have load : ∀ items acc : Design, Named (acc ++ items) →
      items.foldlM (loadItem entry) acc = .ok (acc ++ items) := by
    intro items
    induction items with
    | nil =>
        intro acc _
        rw [List.append_nil]
        rfl
    | cons item rest ih =>
        intro acc named
        have known := named.known item (by simp)
        have fresh : item.1 ∉ acc.map Prod.fst := by
          have distinct := named.distinct
          rw [List.map_append, List.nodup_append] at distinct
          exact fun old => distinct.2.2 _ old item.1 (by simp) rfl
        have loaded : loadItem entry acc item = .ok (acc ++ [item]) := by
          rw [loadItem, knobName_known _ known, if_pos (List.contains_iff_mem.mpr known), assign,
            if_neg (by simpa using fresh)]
        have more : acc ++ item :: rest = (acc ++ [item]) ++ rest := by simp
        rw [List.foldlM_cons, loaded, more]
        rw [more] at named
        exact ih (acc ++ [item]) named
  exact load d [] named

theorem loadDesigns_named (named : ∀ d ∈ ds, Named d.items) :
    loadDesigns ds = .ok (ds.map BTreeMap.items) := by
  have entries : (ds.zipIdx.map fun entry => entry.1.items) =
      (ds.zipIdx.map Prod.fst).map BTreeMap.items := List.map_map.symm
  rw [loadDesigns, mapM_all (fun entry : BTreeMap Int × Nat => entry.1.items)]
  · rw [entries, List.zipIdx_map_fst]
  · rintro ⟨d, i⟩ member
    exact loadDesign_named i (named d (List.fst_mem_of_mem_zipIdx member))

theorem chosen_firsts (named : ∀ d ∈ ds, Named d.items)
    (built : ∀ d ∈ ds, buildKey d.items = buildKey [])
    (identify : ∀ d₁ ∈ [] :: ds.map BTreeMap.items, ∀ d₂ ∈ [] :: ds.map BTreeMap.items,
      slug d₁ = slug d₂ → resolve d₁ = resolve d₂) :
    chosen ds = .ok (firsts filled ([] :: ds.map BTreeMap.items)) := by
  have known : ∀ d ∈ [] :: ds.map BTreeMap.items, unknown d = [] := by
    refine List.forall_mem_cons.mpr ⟨rfl, fun d member => ?_⟩
    obtain ⟨map, inside, rfl⟩ := List.mem_map.mp member
    exact unknown_named (named map inside)
  have finer : ∀ d₁ ∈ [] :: ds.map BTreeMap.items, ∀ d₂ ∈ [] :: ds.map BTreeMap.items,
      name (filled d₁) = name (filled d₂) → filled d₁ = filled d₂ := by
    intro d₁ left d₂ right same
    have resolved := identify d₁ left d₂ right
    rw [slug_known (known d₁ left), slug_known (known d₂ right), same, resolve, resolve,
      if_pos (known d₁ left), if_pos (known d₂ right)] at resolved
    exact Except.ok.inj (resolved rfl)
  have pointed : points "ofat" [] (some (ds.map BTreeMap.items)) =
      .ok ([] :: ds.map BTreeMap.items) := rfl
  have run := expand_points pointed known
  rw [(firsts_coarser (fun d => name (filled d)) filled ([] :: ds.map BTreeMap.items)
    fun a _ b _ same => congrArg name same).mpr finer] at run
  obtain ⟨key, first⟩ : ∃ key, buildKey [] = .ok key := ⟨_, rfl⟩
  have keys : (firsts filled ([] :: ds.map BTreeMap.items)).mapM buildKey =
      .ok ((firsts filled ([] :: ds.map BTreeMap.items)).map fun _ => key) := by
    refine mapM_all (fun _ => key) fun d member => ?_
    rcases List.mem_cons.mp ((firsts_sublist filled _).mem member) with rfl | other
    · exact first
    · obtain ⟨map, inside, rfl⟩ := List.mem_map.mp other
      exact (built map inside).trans first
  have same : ((firsts filled ([] :: ds.map BTreeMap.items)).map fun _ => key).filter (· ≠ key) =
      [] := by
    simp
  simp only [chosen, loadDesigns_named named, run, first, keys, bind, Except.bind,
    pure, Except.pure,
    same, if_true]

theorem runCell_ends {d : Design} (named : unknown d = []) (model : List Char) :
    (∃ row, runCell d model = .ok row) ↔ NoZero (rules (filled d)) := by
  rw [runCell, resolve, if_pos named, ← DesignRules.validate_returns]
  simp only
  cases validate (rules (filled d)) with
  | ok reasons => simp
  | error text => simp

theorem cellLoop_length (cells : List (Design × List Char)) :
    (cellLoop cells).1.length ≤ cells.length ∧
      ((cellLoop cells).1.length = cells.length ↔
        ∀ cell ∈ cells, ∃ row, runCell cell.1 cell.2 = .ok row) := by
  induction cells with
  | nil => simp [cellLoop]
  | cons cell rest ih =>
      rw [cellLoop]
      cases ran : runCell cell.1 cell.2 with
      | ok row =>
          simp only [List.length_cons, List.forall_mem_cons, ran]
          refine ⟨by omega, ?_⟩
          rw [← ih.2]
          simp
      | error halt =>
          simp [ran]

theorem flatMap_pairs {α β : Type} (l : List α) (r : List β) :
    (l.flatMap fun a => r.map fun b => (a, b)).length = l.length * r.length := by
  induction l with
  | nil => simp
  | cons a rest ih =>
      rw [List.flatMap_cons, List.length_append, List.length_map, ih,
        List.length_cons, Nat.succ_mul,
        Nat.add_comm]

theorem cells_run (named : ∀ d ∈ ds, Named d.items) (models : List (List Char))
    (nonempty : models ≠ []) :
    (∀ cell ∈ (firsts filled ([] :: ds.map BTreeMap.items)).flatMap
        fun d => models.map fun model => (d, model), ∃ row, runCell cell.1 cell.2 = .ok row) ↔
      ∀ d ∈ ds, NoZero (rules (filled d.items)) := by
  have known : ∀ d ∈ [] :: ds.map BTreeMap.items, unknown d = [] := by
    refine List.forall_mem_cons.mpr ⟨rfl, fun d member => ?_⟩
    obtain ⟨map, inside, rfl⟩ := List.mem_map.mp member
    exact unknown_named (named map inside)
  have inside : ∀ d ∈ firsts filled ([] :: ds.map BTreeMap.items),
    d ∈ [] :: ds.map BTreeMap.items :=
    fun d => (firsts_sublist filled _).mem
  constructor
  · intro run d member
    obtain ⟨model, there⟩ := List.exists_mem_of_ne_nil models nonempty
    obtain ⟨kept, first, like⟩ := firsts_represented filled ([] :: ds.map BTreeMap.items) d.items
      (List.mem_cons_of_mem _ (List.mem_map_of_mem member))
    have ended := run (kept, model) (List.mem_flatMap.mpr ⟨kept, first, List.mem_map_of_mem there⟩)
    rw [← like]
    exact (runCell_ends (known kept (inside kept first)) model).mp ended
  · rintro zero ⟨d, model⟩ member
    obtain ⟨kept, first, there⟩ := List.mem_flatMap.mp member
    obtain ⟨model, _, pair⟩ := List.mem_map.mp there
    cases pair
    refine (runCell_ends (known d (inside d first)) model).mpr ?_
    rcases List.mem_cons.mp (inside d first) with rfl | other
    · unfold NoZero
      decide
    · obtain ⟨map, origin, rfl⟩ := List.mem_map.mp other
      exact zero map origin

end Rows

section Prediction

variable {parse : List Char → Except Panic (Option Int)} {known : List String} {spec : SweepSpec}
variable {ds : List (BTreeMap Int)}

theorem written_distinct {points : List (BTreeMap Int)}
    (wrote : spec.written parse known = .ok points) (named : ∀ d ∈ points, Named d.items) :
    Distinct points ↔ Foreseen parse known spec := by
  unfold SweepSpec.written at wrote
  unfold Foreseen
  split at wrote
  next =>
    cases read : spec.axes parse with
    | error complaint => rw [read] at wrote; cases wrote
    | ok axes =>
        rw [read] at wrote
        cases wrote
        rw [ofat_distinct named]
        exact ⟨fun held _ same => Except.ok.inj same ▸ held, fun held => held axes rfl⟩
  next =>
    cases read : spec.axes parse with
    | error complaint => rw [read] at wrote; cases wrote
    | ok axes =>
        rw [read] at wrote
        cases wrote
        rw [factorial_distinct (axes_ordered read) named]
        exact ⟨fun held _ same => Except.ok.inj same ▸ held, fun held => held axes rfl⟩
  next =>
    rw [wrote]
    exact ⟨fun held _ same => Except.ok.inj same ▸ held, fun held => held points rfl⟩

theorem expand_written (expanded : spec.expand parse known = .ok ds) :
    ∃ points, spec.written parse known = .ok points ∧ ds = firsts id points := by
  rw [SweepSpec.expand] at expanded
  cases wrote : spec.written parse known with
  | error complaint => rw [wrote] at expanded; cases expanded
  | ok points =>
      rw [wrote] at expanded
      exact ⟨points, rfl, (Except.ok.inj expanded).symm⟩

theorem expanded_distinct (expanded : spec.expand parse known = .ok ds)
    (named : ∀ d ∈ ds, Named d.items) :
    (([] :: ds.map BTreeMap.items).map filled).Nodup ↔ Foreseen parse known spec := by
  obtain ⟨points, wrote, rfl⟩ := expand_written expanded
  have members : ∀ d, d ∈ firsts id points ↔ d ∈ points := by
    intro d
    constructor
    · exact (firsts_sublist id points).mem
    · intro member
      obtain ⟨kept, first, same⟩ := firsts_represented id points d member
      have equal : kept = d := same
      exact equal ▸ first
  have nodup : (firsts id points).Nodup := by
    have distinct := firsts_distinct id points
    rwa [List.map_id] at distinct
  have plain : filled [] = defaults := by decide
  rw [← written_distinct wrote fun d member => named d ((members d).mpr member), List.map_cons,
    List.nodup_cons, List.map_map, List.nodup_map_iff_inj_on nodup, plain, Distinct]
  simp only [members, List.mem_map, Function.comp, not_exists, not_and, ne_eq]

end Prediction

/-- Points over the known knobs for the build that exists, with slugs that tell machines
apart. -/
structure Runnable (ds : List (BTreeMap Int)) : Prop where
  known : ∀ d ∈ ds, ∀ item ∈ d.items, item.1 ∈ defaults.map Prod.fst
  built : ∀ d ∈ ds, buildKey d.items = buildKey []
  identify : ∀ d₁ ∈ [] :: ds.map BTreeMap.items, ∀ d₂ ∈ [] :: ds.map BTreeMap.items,
    slug d₁ = slug d₂ → resolve d₁ = resolve d₂

/-- The GUI announces as many cells as the driver writes rows exactly where it foresees them
and no design divides by zero. -/
theorem cells_predicted (parse : List Char → Except Panic (Option Int)) (known : List String)
    (spec : SweepSpec) (ds : List (BTreeMap Int)) (expanded : spec.expand parse known = .ok ds)
    (runnable : Runnable ds) :
    ((∀ d ∈ ds, NoZero (rules (filled d.items))) → (sweep ds spec.models).1.length =
      (([] :: ds.map BTreeMap.items).map filled).toFinset.card * spec.models.length) ∧
    (spec.cells ds.length = (sweep ds spec.models).1.length ↔
      spec.models = [] ∨
        Foreseen parse known spec ∧ ∀ d ∈ ds, NoZero (rules (filled d.items))) := by
  have named : ∀ d ∈ ds, Named d.items := fun d member => named_map (runnable.known d member)
  rw [← expanded_distinct expanded named, ← firsts_whole, ← firsts_card, SweepSpec.cells]
  by_cases nothing : spec.models = []
  · simp [nothing, sweep]
  have rows : (sweep ds spec.models).1 =
    (cellLoop ((firsts filled ([] :: ds.map BTreeMap.items)).flatMap
      fun d => spec.models.map fun model => (d, model))).1 := by
    rw [sweep, if_neg nothing, chosen_firsts named runnable.built runnable.identify]
  obtain ⟨few, whole⟩ := cellLoop_length ((firsts filled ([] :: ds.map BTreeMap.items)).flatMap
    fun d => spec.models.map fun model => (d, model))
  rw [cells_run named spec.models nothing, flatMap_pairs] at whole
  rw [flatMap_pairs] at few
  have fewer := (firsts_sublist filled ([] :: ds.map BTreeMap.items)).length_le
  rw [List.length_cons, List.length_map] at fewer
  have positive : 0 < spec.models.length := List.length_pos_iff.mpr nothing
  rw [rows, List.length_cons, List.length_map]
  refine ⟨whole.mpr, ?_⟩
  constructor
  · intro same
    have least : (ds.length + 1) * spec.models.length ≤
        (firsts filled ([] :: ds.map BTreeMap.items)).length * spec.models.length := same ▸ few
    have equal := Nat.le_antisymm fewer (Nat.le_of_mul_le_mul_right least positive)
    refine Or.inr ⟨equal, whole.mp ?_⟩
    rw [← same, equal]
  · rintro (empty | ⟨equal, zero⟩)
    · exact absurd empty nothing
    · rw [whole.mpr zero, equal]

theorem slugs_tell {ds : List Design} (known : ∀ d ∈ ds, unknown d = [])
    (apart : ds.Pairwise fun a b => filled a = filled b ∨ name (filled a) ≠ name (filled b)) :
    ∀ d₁ ∈ ds, ∀ d₂ ∈ ds, slug d₁ = slug d₂ → resolve d₁ = resolve d₂ := by
  intro d₁ left d₂ right same
  rw [slug_known (known d₁ left), slug_known (known d₂ right), Except.ok.injEq] at same
  rw [resolve, resolve, if_pos (known d₁ left), if_pos (known d₂ right)]
  let Told := fun a b : Design => filled a = filled b ∨ name (filled a) ≠ name (filled b)
  have symm : Std.Symm Told := ⟨fun a b told => told.imp Eq.symm Ne.symm⟩
  have told : Told d₁ d₂ :=
    List.Pairwise.forall_of_forall (R := Told) (fun a _ => Or.inl rfl) apart left right
  rcases told with equal | other
  · rw [equal]
  · exact absurd same other

def cacheWays : SweepSpec where
  models := [['k', 'w', 's'], ['m', 'n', 'i', 's', 't']]
  mode := .ofat
  values := BTreeMap.empty.insert "L2_WAYS" ['4', ',', '0', 'x', '1', '0']
  list := []

def wayPoints : List (BTreeMap Int) :=
  [BTreeMap.empty.insert "L2_WAYS" 4, BTreeMap.empty.insert "L2_WAYS" 16]

/-- Two moved caches and the baseline, on two models. -/
theorem cells_predicted_ways : cacheWays.expand IntSpellings.parseInt [] = .ok wayPoints ∧
    cacheWays.cells wayPoints.length = (sweep wayPoints cacheWays.models).1.length := by
  have axes : cacheWays.axes IntSpellings.parseInt = .ok [("L2_WAYS", [4, 16])] := rfl
  have runnable : Runnable wayPoints := by
    refine ⟨by decide, ?_, slugs_tell (by decide) (by decide +kernel)⟩
    exact List.forall_mem_cons.mpr ⟨rfl, List.forall_mem_singleton.mpr rfl⟩
  refine ⟨rfl, (cells_predicted IntSpellings.parseInt [] cacheWays wayPoints rfl runnable).2.mpr
    (Or.inr ⟨?_, ?_⟩)⟩
  · intro read same
    cases axes.symm.trans same
    decide
  · unfold NoZero
    decide

def ownDefault : SweepSpec where
  models := [['o', 'p', 's', '/', 'm', 'n', 'i', 's', 't']]
  mode := .ofat
  values := BTreeMap.empty.insert "SPATZ_NB_LANES" ['2', ',', ' ', '4']
  list := []

def lanePoints : List (BTreeMap Int) :=
  [BTreeMap.empty.insert "SPATZ_NB_LANES" 2, BTreeMap.empty.insert "SPATZ_NB_LANES" 4]

/-- The GUI announces three cells, the driver runs two. -/
theorem baseline_counted_twice : ownDefault.expand IntSpellings.parseInt [] = .ok lanePoints ∧
    Runnable lanePoints ∧ ownDefault.cells lanePoints.length = 3 ∧
      (sweep lanePoints ownDefault.models).1.length = 2 := by
  refine ⟨rfl, ⟨by decide, ?_, slugs_tell (by decide) (by decide +kernel)⟩, rfl, by decide +kernel⟩
  exact List.forall_mem_cons.mpr ⟨rfl, List.forall_mem_singleton.mpr rfl⟩

end HeteroSim.SweepCells

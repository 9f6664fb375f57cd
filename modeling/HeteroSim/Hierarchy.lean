import HeteroSim.EngineAnswers
import HeteroSim.TimingCache

/-!
The memory hierarchy: timing caches one behind the other, the DRAM model behind
them, and the memory that holds the bytes behind that. What a request reads and
writes is what the memory alone would read and write.
-/

namespace HeteroSim.Hierarchy

open TimingCache
open EngineAnswers (Led Answering Timely)

/-! ### The memory and the DRAM model -/

abbrev Bytes := Nat → UInt8

def loaded (r : Req) (m : Bytes) : List UInt8 :=
  if r.isWrite then r.data else (List.range r.size).map fun i => m (r.addr + i)

def written (r : Req) (m : Bytes) : Bytes :=
  if r.isWrite then
    fun a => if r.addr ≤ a ∧ a < r.addr + r.size then r.data.getD (a - r.addr) 0 else m a
  else m

/-- A memory of `size` bytes. -/
def flat (size : Nat) : Port Bytes := fun _ r m =>
  if r.addr < size ∧ r.addr + r.size ≤ size then
    .ok (.ok, { r with data := loaded r m }, written r m)
  else .ok (.invalid, r, m)

structure Dram where
  engine : DramEngine.Engine
  nbLatencyCycles : Nat := 0

/-- What the DRAM model and the caches in front of it share. -/
structure Board where
  period : Int
  size : Nat

/-- `Dram::req`. `fuel` bounds the loops of the engine. -/
def dram (b : Board) (fuel : Nat) : Port (Dram × Bytes) := fun cycles r (d, m) => do
  let (status, answer, m) ← flat b.size cycles r m
  if answer.debug || status = .invalid then return (status, answer, (d, m))
  else do
    expectOk status
    let now := cycles * b.period
    match DramEngine.access fuel now answer.addr answer.size answer.isWrite d.engine with
    | .error _ _ => .error .endless
    | .ok done engine =>
        let latency := (done - now + b.period - 1).tdiv b.period
        let d := { engine := engine
                   nbLatencyCycles := ((d.nbLatencyCycles + latency) % word).toNat }
        return (.ok, { answer with latency := latency }, (d, m))

/-! ### The chain -/

/-- The caches, the first one first, and what is behind them. -/
def Level : List Config → Type
  | [] => Dram × Bytes
  | _ :: rest => Cache × Level rest

def level (b : Board) (fuel : Nat) : (gs : List Config) → Port (Level gs)
  | [] => dram b fuel
  | g :: rest => req g (level b fuel rest)

/-- The bytes in the memory. -/
def bytes : (gs : List Config) → Level gs → Bytes
  | [], (_, m) => m
  | _ :: rest, (_, l) => bytes rest l

/-- Everything but the bytes. -/
def timing : (gs : List Config) → Level gs → List Cache × Dram
  | [], (d, _) => ([], d)
  | _ :: rest, (c, l) => (c :: (timing rest l).1, (timing rest l).2)

/-- The engine at the end of the chain. -/
def engineOf : (gs : List Config) → Level gs → DramEngine.Engine
  | [], (d, _) => d.engine
  | _ :: rest, (_, l) => engineOf rest l

/-- After reset, with a memory loaded before. -/
def started (engine : DramEngine.Engine) (m : Bytes) : (gs : List Config) → Level gs
  | [] => ({ engine := engine }, m)
  | _ :: rest => (reset, started engine m rest)

def InRange (b : Board) (r : Req) : Prop := r.addr < b.size ∧ r.addr + r.size ≤ b.size

/-- The states after requests that are all in range and came back, next to the memory
that had the requests itself. The engine is one that the constructor makes of `p`. -/
inductive Run (b : Board) (p : DramParams.Params) (gs : List Config) : Level gs → Bytes → Prop
  | reset (engine : DramEngine.Engine) (m : Bytes) (created : DramEngine.create p = .ok engine) :
      Run b p gs (started engine m gs) m
  | req (fuel now : Nat) (l l' : Level gs) (m m' : Bytes) (r answer direct : Req)
      (status status' : Status) (before : Run b p gs l m) (inside : InRange b r)
      (answered : level b fuel gs now r l = .ok (status, answer, l'))
      (alone : flat b.size now r m = .ok (status', direct, m')) : Run b p gs l' m'

/-! ### Outcomes -/

/-- Enough fuel makes no difference to the outcome. -/
def Returns {α : Type} (x : Nat → Except Stop α) (a : α) : Prop :=
  ∃ enough, ∀ fuel, enough ≤ fuel → x fuel = .ok a

/-- A computation that ends in `after` or has not ended yet. It ends with enough fuel,
but for the reason `stuck`. -/
structure Meets {α : Type} (stuck : Prop) (x : Nat → Except Stop α) (after : α → Prop) :
    Prop where
  outcome : ∀ fuel, (∃ a, x fuel = .ok a ∧ after a) ∨ x fuel = .error .endless
  ends : stuck ∨ ∃ a, Returns x a

section Rules

variable {α β : Type} {stuck : Prop}

theorem Meets.known {x : Except Stop α} {after : α → Prop} (a : α) (ended : x = .ok a)
    (held : after a) : Meets stuck (fun _ => x) after :=
  ⟨fun _ => Or.inl ⟨a, ended, held⟩, Or.inr ⟨a, 0, fun _ _ => ended⟩⟩

theorem Meets.pure {after : α → Prop} (a : α) (held : after a) :
    Meets stuck (fun _ => (Pure.pure a : Except Stop α)) after := .known a rfl held

theorem Meets.bind {x : Nat → Except Stop α} {next : Nat → α → Except Stop β} {after : β → Prop}
    (middle : α → Prop) (first : Meets stuck x middle)
    (rest : ∀ a, middle a → Meets stuck (fun fuel => next fuel a) after) :
    Meets stuck (fun fuel => x fuel >>= next fuel) after := by
  constructor
  · intro fuel
    rcases first.outcome fuel with ⟨a, ended, held⟩ | ended
    · rw [ended]
      exact (rest a held).outcome fuel
    · rw [ended]
      exact Or.inr rfl
  · rcases first.ends with why | ⟨a, one, came⟩
    · exact Or.inl why
    · have held : middle a := by
        rcases first.outcome one with ⟨a', ended, held⟩ | ended
        · cases ended.symm.trans (came one (Nat.le_refl one))
          exact held
        · cases ended.symm.trans (came one (Nat.le_refl one))
      rcases (rest a held).ends with why | ⟨b, two, went⟩
      · exact Or.inl why
      · refine Or.inr ⟨b, max one two, fun fuel enough => ?_⟩
        show (x fuel >>= next fuel) = _
        rw [came fuel (by omega)]
        exact went fuel (by omega)

theorem Meets.ite {P : Prop} [Decidable P] {x y : Nat → Except Stop α} {after : α → Prop}
    (yes : P → Meets stuck x after) (no : ¬ P → Meets stuck y after) :
    Meets stuck (fun fuel => if P then x fuel else y fuel) after := by
  by_cases h : P
  · simp only [h, if_true]
    exact yes h
  · simp only [h, if_false]
    exact no h

theorem Meets.weaken {x : Nat → Except Stop α} {middle after : α → Prop} {less : Prop}
    (first : Meets less x middle) (why : less → stuck) (held : ∀ a, middle a → after a) :
    Meets stuck x after := by
  refine ⟨fun fuel => ?_, first.ends.imp_left why⟩
  rcases first.outcome fuel with ⟨a, ended, still⟩ | ended
  · exact Or.inl ⟨a, ended, held a still⟩
  · exact Or.inr ended

end Rules

/-! ### What a level owes its master -/

section Transparent

variable {σ τ : Type}

structure Answered (bytes : σ → Bytes) (quiet : σ → τ) (good : σ → Prop) (r : Req) (s : σ)
    (result : Status × Req × σ) : Prop where
  status : result.1 = .ok
  data : result.2.1.data = loaded r (bytes s)
  debug : result.2.1.debug = r.debug
  bytes : bytes result.2.2 = written r (bytes s)
  good : good result.2.2
  silent : r.debug = true → quiet result.2.2 = quiet s

/-- A level shows its master the memory: only a timed request may fail to end, and only
for the reason `stuck`. -/
def Transparent (b : Board) (stuck : Prop) (next : Nat → Port σ) (bytes : σ → Bytes) (quiet : σ → τ)
    (good : σ → Prop) : Prop :=
  ∀ now r s, InRange b r → good s →
    Meets (r.debug = false ∧ stuck) (fun fuel => next fuel now r s)
      (Answered bytes quiet good r s)

end Transparent

/-! ### The DRAM model -/

theorem dram_transparent (b : Board) (first : DramEngine.Engine) :
    Transparent b (¬ Answering b.size first) (dram b) Prod.snd Prod.fst
      fun s => Led b.size first s.1.engine := by
  rintro now r ⟨d, m⟩ inside led
  have direct : flat b.size now r m = .ok (.ok, { r with data := loaded r m }, written r m) :=
    if_pos inside
  refine Meets.bind (fun x => x = (.ok, { r with data := loaded r m }, written r m))
    (.known _ direct rfl) ?_
  rintro _ rfl
  -- A debug access ends at the memory; a timed one goes on to the engine.
  cases debug : r.debug with
  | true => exact Meets.pure _ ⟨rfl, rfl, debug.symm, rfl, led, fun _ => rfl⟩
  | false =>
      refine Meets.bind (fun _ => True) (.known () rfl trivial) fun _ _ => ⟨fun fuel => ?_, ?_⟩
      · cases ended : DramEngine.access fuel (now * b.period) r.addr r.size r.isWrite d.engine with
        | ok done engine =>
            simp only [ended]
            refine Or.inl ⟨_, rfl, rfl, rfl, debug.symm, rfl, ?_, fun silent => ?_⟩
            · exact led.access _ _ fuel _ _ _ _ done inside.1 inside.2 ended
            · rw [debug] at silent
              cases silent
        | error _ e' =>
            simp only [ended]
            exact Or.inr trivial
      · by_cases answers : Answering b.size first
        · obtain ⟨done, after, enough, came⟩ := answers _ led (now * b.period) r.addr r.size
            r.isWrite inside.1 inside.2
          have ends : ∀ fuel, enough ≤ fuel →
              DramEngine.access fuel (now * b.period) r.addr r.size r.isWrite d.engine =
                .ok done after := came
          refine Or.inr ⟨?_, enough, fun fuel more => ?_⟩
          rotate_left
          · simp only [ends fuel more]
            exact rfl
        · exact Or.inl ⟨rfl, answers⟩

/-! ### A cache -/

def Within (g : Config) (size line : Nat) : Prop := (line + 1) * 2 ^ g.lineBits ≤ size

/-- The lines a cache holds or is about to write back are inside the memory. -/
structure Sound (g : Config) (size : Nat) (c : Cache) : Prop where
  tags : ∀ i, c.tags i ≠ lineInvalid → Within g size (c.tags i)
  victims : ∀ line ∈ c.victims, Within g size line

/-- The memory is made of whole lines. -/
structure Fits (g : Config) (size : Nat) : Prop where
  accepts : g.accepts = true
  whole : g.lineSize ∣ size
  small : size < word

section Cache

variable {g : Config} {size : Nat} {c c' : Cache}

theorem Fits.line_bits (fits : Fits g size) : 2 ^ g.lineBits = g.lineSize := by
  have checked := fits.accepts
  simp only [Config.accepts, Bool.and_eq_true, decide_eq_true_eq] at checked
  exact checked.1.1.1

theorem Sound.same (sound : Sound g size c) (tags : c'.tags = c.tags)
    (victims : c'.victims = c.victims) : Sound g size c' := by
  refine ⟨?_, ?_⟩
  · rw [tags]
    exact sound.tags
  · rw [victims]
    exact sound.victims

theorem line_within (fits : Fits g size) {x : Nat} (inside : x < size) :
    Within g size (x >>> g.lineBits) := by
  have whole := fits.whole
  rw [← fits.line_bits] at whole
  obtain ⟨k, product⟩ := whole
  rw [Within, Nat.shiftRight_eq_div_pow, product, Nat.mul_comm]
  refine Nat.mul_le_mul_left _ (Nat.div_lt_of_lt_mul ?_)
  rwa [← product]

theorem within_le {line line' : Nat} (within : Within g size line') (le : line ≤ line') :
    Within g size line :=
  Nat.le_trans (Nat.mul_le_mul_right _ (Nat.succ_le_succ le)) within

section Request

variable {b : Board} {r : Req}

theorem last_byte (fits : Fits g b.size) (inside : InRange b r) :
    g.lastLine r.addr r.size = (r.addr + (if r.size = 0 then 1 else r.size) - 1) >>> g.lineBits ∧
      r.addr + (if r.size = 0 then 1 else r.size) - 1 < b.size := by
  have below : r.addr + (if r.size = 0 then 1 else r.size) - 1 < b.size := by
    obtain ⟨start, stop⟩ := inside
    split <;> omega
  refine ⟨?_, below⟩
  rw [Config.lastLine, Nat.mod_eq_of_lt (Nat.lt_trans below fits.small)]

theorem lines_within (fits : Fits g b.size) (inside : InRange b r) :
    ∀ line ∈ g.lines r.addr r.size, Within g b.size line := by
  intro line member
  obtain ⟨last, below⟩ := last_byte fits inside
  refine within_le (line_within fits below) ?_
  rw [← last]
  exact (mem_lines.mp member).2

theorem fill_in_range (fits : Fits g b.size) (inside : InRange b r) (w debug : Bool)
    (data : List UInt8) : InRange b
      { addr := (g.fillRange r.addr r.size).1, size := (g.fillRange r.addr r.size).2,
        isWrite := w, debug := debug, data := data } := by
  obtain ⟨last, below⟩ := last_byte fits inside
  have within := line_within fits below
  rw [← last, Within, Nat.succ_mul] at within
  have order : g.firstLine r.addr ≤ g.lastLine r.addr r.size := by
    rw [last, Config.firstLine, Nat.shiftRight_eq_div_pow, Nat.shiftRight_eq_div_pow]
    refine Nat.div_le_div_right ?_
    split <;> omega
  have multiples := Nat.mul_le_mul_right (2 ^ g.lineBits) order
  have positive : 0 < 2 ^ g.lineBits := Nat.two_pow_pos _
  have small := fits.small
  simp only [InRange, Config.fillRange, Nat.shiftLeft_eq]
  generalize g.firstLine r.addr * 2 ^ g.lineBits = first at *
  generalize g.lastLine r.addr r.size * 2 ^ g.lineBits = final at *
  generalize 2 ^ g.lineBits = line at *
  rw [word] at *
  omega

theorem victim_in_range {line : Nat} (within : Within g b.size line) (w debug : Bool)
    (data : List UInt8) : InRange b
      { addr := line <<< g.lineBits, size := 2 ^ g.lineBits, isWrite := w, debug := debug,
        data := data } := by
  have positive : 0 < 2 ^ g.lineBits := Nat.two_pow_pos _
  rw [Within, Nat.succ_mul] at within
  simp only [InRange, Nat.shiftLeft_eq]
  omega

end Request

/-! ### An access -/

theorem allocated_sound (sound : Sound g size c) {line : Nat} (within : Within g size line)
    (readyTime : Int) : Sound g size (c.allocated g line readyTime) := by
  constructor
  · intro i valid
    simp only [Cache.allocated, Cache.stamped, setAt] at valid ⊢
    split at valid
    · rwa [if_pos ‹_›]
    · rw [if_neg ‹_›]
      exact sound.tags i valid
  · intro victim member
    simp only [Cache.allocated, Cache.stamped] at member
    split at member
    -- The line pushed out was in the tag array, so it is inside as well.
    case isTrue pushed =>
      simp only [Bool.and_eq_true, bne_iff_ne, ne_eq] at pushed
      rcases List.mem_append.mp member with old | new
      · exact sound.victims victim old
      · rw [List.mem_singleton.mp new]
        exact sound.tags _ pushed.1.2
    case isFalse => exact sound.victims victim member

theorem lookup_sound (sound : Sound g size c) {line : Nat} (within : Within g size line)
    (allocate : Bool) (readyTime : Int) : Sound g size (c.lookup g line allocate readyTime).2 := by
  rw [Cache.lookup]
  split
  · exact sound.same rfl rfl
  · split
    · exact allocated_sound sound within readyTime
    · exact sound

theorem turns_sound (a : Access) (lines : List Nat) (within : ∀ line ∈ lines, Within g size line)
    (st : Int × Cache) (sound : Sound g size st.2) :
    Sound g size (lines.foldl (turn g a) st).2 := by
  induction lines generalizing st with
  | nil => exact sound
  | cons line rest ih =>
      refine ih (fun other member => within other (List.mem_cons_of_mem _ member)) _ ?_
      have looked := lookup_sound sound (within line List.mem_cons_self) (g.allocates a.isWrite)
        (max a.now st.2.nextLevelFree + a.nextLevelLatency + g.missLatency + g.refillCycles)
      simp only [turn]
      split
      · exact looked.same rfl rfl
      · split <;> exact looked.same rfl rfl

theorem marks_sound (lines : List Nat) (sound : Sound g size c) :
    Sound g size (lines.foldl (Cache.markDirty g) c) := by
  induction lines generalizing c with
  | nil => exact sound
  | cons line rest ih =>
      refine ih ?_
      rw [Cache.markDirty]
      split <;> exact sound.same rfl rfl

theorem access_sound (a : Access) (within : ∀ line ∈ g.lines a.addr a.size, Within g size line)
    (sound : Sound g size c) : Sound g size (c.access g a).2 := by
  have counted : Sound g size (c.counted a.isWrite) := by
    rw [Cache.counted]
    split <;> exact sound.same rfl rfl
  have looked := turns_sound a _ within (a.now + g.hitLatency, c.counted a.isWrite) counted
  have kept : Sound g size (stored g a ((g.lines a.addr a.size).foldl (turn g a)
      (a.now + g.hitLatency, c.counted a.isWrite))).2 := by
    simp only [stored]
    split
    · exact marks_sound _ looked
    · split
      · exact looked.same rfl rfl
      · exact looked
  exact kept.same rfl rfl

end Cache

/-! ### What a cache sends -/

section Sends

variable {σ τ : Type} {b : Board} {g : Config} {stuck : Prop} {next : Nat → Port σ}
  {bytes : σ → Bytes} {quiet : σ → τ} {good : σ → Prop}

theorem side_meets (clear : Transparent b stuck next bytes quiet good) (now : Nat) (r : Req)
    (c : Cache) (s : σ) (inside : InRange b r) (held : good s) :
    Meets stuck (fun fuel => side (next fuel) now r c s) fun (_, c', s') =>
      c' = { c with sideData := loaded r (bytes s) } ∧ bytes s' = written r (bytes s) ∧
        good s' := by
  refine Meets.bind (Answered bytes quiet good r s)
    ((clear now r s inside held).weaken And.right fun _ answered => answered) ?_
  rintro ⟨status, answer, s'⟩ ⟨status_ok, data, _, memory, still, _⟩
  refine Meets.bind (fun _ => True) (.known () (expectOk_ok.mpr status_ok) trivial) fun _ _ => ?_
  exact Meets.pure _ ⟨by rw [← data], memory, still⟩

theorem write_back_same (r w : Req) (m : Bytes) (read : r.isWrite = false)
    (addr : w.addr = r.addr) (size : w.size = r.size) (data : w.data = loaded r m) :
    written w m = m := by
  funext a
  rw [written]
  split
  case isFalse => rfl
  case isTrue =>
    simp only [addr, size, data, loaded, read, Bool.false_eq_true, if_false]
    split
    case isFalse => rfl
    case isTrue inside =>
      have offset : a - r.addr < r.size := by omega
      simp only [List.getD_eq_getElem?_getD, List.getElem?_map, List.getElem?_range offset,
        Option.map_some, Option.getD_some]
      rw [Nat.add_sub_cancel' inside.1]

theorem flushVictim_meets (clear : Transparent b stuck next bytes quiet good) (now line : Nat)
    (c : Cache) (s : σ) (within : Within g b.size line) (held : good s) :
    Meets stuck (fun fuel => flushVictim g (next fuel) now line c s) fun (c', s') =>
      c'.tags = c.tags ∧ c'.victims = c.victims ∧ bytes s' = bytes s ∧ good s' := by
  refine Meets.bind _ (side_meets clear now _ c s (victim_in_range within false true _) held) ?_
  rintro ⟨_, c₁, s₁⟩ ⟨rfl, memory, still⟩
  refine Meets.bind _ (side_meets clear now _ _ s₁ (victim_in_range within true false _) still) ?_
  rintro ⟨_, c₂, s₂⟩ ⟨rfl, memory', still'⟩
  refine Meets.pure _ ⟨rfl, rfl, ?_, still'⟩
  -- The second request writes what the first one read.
  have same : bytes s₁ = bytes s := memory
  rw [memory', same]
  exact write_back_same
    { addr := line <<< g.lineBits, size := 2 ^ g.lineBits, isWrite := false, debug := true,
      data := c.sideData } _ (bytes s) rfl rfl rfl rfl

theorem flushTurns_meets (clear : Transparent b stuck next bytes quiet good) (now : Nat)
    (lines : List Nat) (c : Cache) (s : σ) (within : ∀ line ∈ lines, Within g b.size line)
    (held : good s) : Meets stuck (fun fuel => flushTurns g (next fuel) now lines c s)
      fun (c', s') => c'.tags = c.tags ∧ c'.victims = c.victims ∧ bytes s' = bytes s ∧ good s' := by
  induction lines generalizing c s with
  | nil => exact Meets.pure _ ⟨rfl, rfl, rfl, held⟩
  | cons line rest ih =>
      refine Meets.bind _ (flushVictim_meets clear now line c s (within line List.mem_cons_self)
        held) ?_
      rintro ⟨c₁, s₁⟩ ⟨tags, victims, memory, still⟩
      refine (ih c₁ s₁ (fun other member => within other (List.mem_cons_of_mem _ member))
        still).weaken id ?_
      rintro ⟨c₂, s₂⟩ ⟨tags', victims', memory', still'⟩
      exact ⟨tags'.trans tags, victims'.trans victims, memory'.trans memory, still'⟩

theorem flushVictims_meets (clear : Transparent b stuck next bytes quiet good) (now : Nat)
    (c : Cache) (s : σ) (sound : Sound g b.size c) (held : good s) :
    Meets stuck (fun fuel => flushVictims g (next fuel) now c s) fun (c', s') =>
      Sound g b.size c' ∧ bytes s' = bytes s ∧ good s' := by
  refine Meets.bind _ (flushTurns_meets clear now c.victims _ s sound.victims held) ?_
  rintro ⟨c₁, s₁⟩ ⟨tags, _, memory, still⟩
  refine Meets.pure _ ⟨⟨?_, nofun⟩, memory, still⟩
  intro i valid
  rw [tags] at valid ⊢
  exact sound.tags i valid

theorem timedFill_meets (clear : Transparent b stuck next bytes quiet good) (fits : Fits g b.size)
    (now : Nat) (r : Req) (c : Cache) (s : σ) (inside : InRange b r) (sound : Sound g b.size c)
    (held : good s) :
    Meets stuck (fun fuel => timedFill g (next fuel) now r.addr r.size c s) fun (_, c', s') =>
      Sound g b.size c' ∧ bytes s' = bytes s ∧ good s' := by
  have fill := fun data => fill_in_range fits inside false false data
  unfold timedFill
  generalize g.fillRange r.addr r.size = range at fill ⊢
  refine Meets.bind _ (side_meets clear now _ c s (fill _) held) ?_
  rintro ⟨_, c₁, s₁⟩ ⟨rfl, memory, still⟩
  exact Meets.pure _ ⟨sound.same rfl rfl, memory, still⟩

theorem refill_meets (clear : Transparent b stuck next bytes quiet good) (fits : Fits g b.size)
    (now : Nat) (r answer : Req) (c : Cache) (s : σ) (inside : InRange b r)
    (sound : Sound g b.size c) (held : good s) :
    Meets stuck (fun fuel => refill g (next fuel) now r answer c s) fun (_, c', s') =>
      Sound g b.size c' ∧ bytes s' = bytes s ∧ good s' := by
  refine Meets.ite (fun _ => Meets.pure _ ⟨sound, rfl, held⟩) fun _ => Meets.ite (fun _ => ?_) ?_
  · exact timedFill_meets clear fits now r c s inside sound held
  · exact fun _ => Meets.pure _ ⟨sound, rfl, held⟩

theorem writeback_transparent (clear : Transparent b stuck next bytes quiet good)
    (fits : Fits g b.size) :
    Transparent b stuck (fun fuel => reqWriteback g (next fuel)) (fun l => bytes l.2) (fun l =>
      (l.1, quiet l.2))
      fun l => Sound g b.size l.1 ∧ good l.2 := by
  rintro now r ⟨c, s⟩ inside ⟨sound, held⟩
  -- The cache changes the debug flag only, which no range check looks at.
  have down : ∀ debug, InRange b { r with debug := debug } := fun _ => inside
  refine Meets.ite (fun debug => ?_) fun timed => ?_
  · refine Meets.bind _ ((clear now r s inside held).weaken (fun why => ?_) fun _ answered =>
      answered) ?_
    · rw [debug] at why
      cases why.1
    · rintro ⟨status, answer, s'⟩ ⟨status_ok, data, flag, memory, still, silent⟩
      exact Meets.pure _ ⟨status_ok, data, flag, memory, ⟨sound, still⟩, fun _ =>
        congrArg (Prod.mk c) (silent debug)⟩
  · have debug : r.debug = false := eq_false_of_ne_true timed
    refine Meets.bind _ ((clear now _ s (down _) held).weaken (fun why => ⟨debug, why.2⟩)
      fun _ answered => answered) ?_
    rintro ⟨status, answer, s'⟩ ⟨status_ok, data, flag, memory, still, silent⟩
    subst status_ok
    refine Meets.ite nofun fun _ => ?_
    refine Meets.bind (fun _ => True) (.known () rfl trivial) fun _ _ => ?_
    refine Meets.bind _ ((refill_meets clear fits now r _ c s' inside sound still).weaken
      (fun why => ⟨debug, why⟩) fun _ met => met) ?_
    rintro ⟨latency, c₁, s₁⟩ ⟨sound₁, memory₁, still₁⟩
    -- The refill comes before the lookups, and the victims go out after them.
    have sound₂ := access_sound (r.access now latency) (lines_within fits inside) sound₁
    refine Meets.bind _ ((flushVictims_meets clear now _ s₁ sound₂ still₁).weaken
      (fun why => ⟨debug, why⟩) fun _ met => met) ?_
    rintro ⟨c₃, s₃⟩ ⟨sound₃, memory₃, still₃⟩
    refine Meets.pure _ ⟨rfl, data, ?_, ?_, ⟨sound₃, still₃⟩, fun silent => ?_⟩
    -- The flag went out set unless this was a refill, and the cache clears it again.
    · rw [debug]
      cases refill : !c.probe g r.addr r.size && !r.isWrite with
      | false => rfl
      | true =>
          rw [refill] at flag
          exact flag
    · exact memory₃.trans (memory₁.trans memory)
    · rw [debug] at silent
      cases silent

theorem through_transparent (clear : Transparent b stuck next bytes quiet good)
    (fits : Fits g b.size) :
    Transparent b stuck (fun fuel => reqThrough g (next fuel)) (fun l => bytes l.2) (fun l =>
      (l.1, quiet l.2))
      fun l => Sound g b.size l.1 ∧ good l.2 := by
  rintro now r ⟨c, s⟩ inside ⟨sound, held⟩
  have down : ∀ debug, InRange b { r with debug := debug } := fun _ => inside
  refine Meets.bind _ ((clear now _ s (down _) held).weaken (fun why => ?_)
    fun _ answered => answered) ?_
  · rw [Bool.or_eq_false_iff] at why
    exact ⟨why.1.1, why.2⟩
  rintro ⟨status, answer, s'⟩ ⟨status_ok, data, flag, memory, still, silent⟩
  subst status_ok
  dsimp only at data flag memory still silent ⊢
  cases debug : r.debug with
  | true =>
      rw [debug] at flag
      exact Meets.pure _ ⟨rfl, data, flag.trans debug.symm, memory, ⟨sound, still⟩, fun _ =>
        congrArg (Prod.mk c) (silent (by rw [debug]; rfl))⟩
  | false =>
      have sound' := access_sound (r.access now answer.latency) (lines_within fits inside) sound
      refine Meets.pure _ ⟨rfl, data, ?_, memory, ⟨sound', still⟩, fun timed => ?_⟩
      · rw [debug] at flag ⊢
        simp only [Bool.not_false, Bool.true_and, Bool.false_or] at flag ⊢
        cases here : !r.isWrite && c.probe g r.addr r.size with
        | true => rfl
        | false =>
            rw [here] at flag
            exact flag
      · rw [debug] at timed
        cases timed

end Sends

/-! ### The chain -/

section Chain

variable {b : Board} {gs : List Config}

/-- Every cache is sound, and the engine at the end has the property. -/
def Settled (size : Nat) (Inv : DramEngine.Engine → Prop) : (gs : List Config) → Level gs → Prop
  | [], (d, _) => Inv d.engine
  | g :: rest, (c, l) => Sound g size c ∧ Settled size Inv rest l

theorem started_settled (size : Nat) (Inv : DramEngine.Engine → Prop)
    (engine : DramEngine.Engine) (m : Bytes) (held : Inv engine) (gs : List Config) :
    Settled size Inv gs (started engine m gs) := by
  induction gs with
  | nil => exact held
  | cons g rest ih => exact ⟨⟨fun _ valid => absurd rfl valid, nofun⟩, ih⟩

theorem settled_engine {size : Nat} {Inv : DramEngine.Engine → Prop}
    (Inv' : DramEngine.Engine → Prop) {gs : List Config} {l : Level gs}
    (settled : Settled size Inv gs l) :
    Inv (engineOf gs l) ∧ (Inv' (engineOf gs l) → Settled size Inv' gs l) := by
  induction gs with
  | nil => exact ⟨settled, id⟩
  | cons g rest ih =>
      obtain ⟨sound, deeper⟩ := settled
      obtain ⟨held, turned⟩ := ih deeper
      exact ⟨held, fun held' => ⟨sound, turned held'⟩⟩

theorem started_bytes (engine : DramEngine.Engine) (m : Bytes) (gs : List Config) :
    bytes gs (started engine m gs) = m := by
  induction gs with
  | nil => rfl
  | cons g rest ih => exact ih

theorem cons_transparent {g : Config} {rest : List Config} {stuck : Prop}
    {Inv : DramEngine.Engine → Prop} (fits : Fits g b.size)
    (clear : Transparent b stuck (level b · rest) (bytes rest) (timing rest)
      (Settled b.size Inv rest)) :
    Transparent b stuck (level b · (g :: rest)) (bytes (g :: rest)) (timing (g :: rest))
      (Settled b.size Inv (g :: rest)) := by
  have here : Transparent b stuck (fun fuel => req g (level b fuel rest))
      (fun l => bytes rest l.2) (fun l => (l.1, timing rest l.2))
      fun l => Sound g b.size l.1 ∧ Settled b.size Inv rest l.2 := by
    cases mode : g.writeback with
    | true =>
        simp only [req, mode, if_true]
        exact writeback_transparent clear fits
    | false =>
        simp only [req, mode, Bool.false_eq_true, if_false]
        exact through_transparent clear fits
  rintro now r ⟨c, l⟩ inside held
  refine (here now r (c, l) inside held).weaken id ?_
  rintro ⟨status, answer, c', l'⟩ ⟨status_ok, data, flag, memory, still, silent⟩
  refine ⟨status_ok, data, flag, memory, still, fun debug => ?_⟩
  obtain ⟨same, same'⟩ := Prod.mk.inj (silent debug)
  dsimp only at same same'
  rw [timing, timing, same, same']

theorem level_transparent (gs : List Config) (fits : ∀ g ∈ gs, Fits g b.size)
    (first : DramEngine.Engine) :
    Transparent b (¬ Answering b.size first) (level b · gs) (bytes gs) (timing gs)
      (Settled b.size (Led b.size first) gs) := by
  -- On the caches from the memory up: each is transparent if what is behind it is.
  induction gs with
  | nil =>
      rintro now r ⟨d, m⟩ inside led
      refine (dram_transparent b first now r (d, m) inside led).weaken id ?_
      rintro ⟨status, answer, d', m'⟩ ⟨status_ok, data, flag, memory, still, silent⟩
      refine ⟨status_ok, data, flag, memory, still, fun debug => ?_⟩
      exact congrArg (Prod.mk []) (silent debug)
  | cons g rest ih =>
      exact cons_transparent (fits g List.mem_cons_self)
        (ih fun other member => fits other (List.mem_cons_of_mem _ member))

theorem flat_in_range {r : Req} (inside : InRange b r) (now : Nat) (m : Bytes) :
    flat b.size now r m = .ok (.ok, { r with data := loaded r m }, written r m) := if_pos inside

theorem run_settled {p : DramParams.Params} (fits : ∀ g ∈ gs, Fits g b.size)
    (small : b.size < word) {l : Level gs} {m : Bytes} (run : Run b p gs l m) :
    bytes gs l = m ∧ Settled b.size (EngineRuns.Reachable p) gs l := by
  induction run with
  | reset engine m created =>
      exact ⟨started_bytes engine m gs,
        started_settled b.size _ engine m (.start engine created) gs⟩
  | req fuel now l l' m m' r answer direct status status' before inside answered alone ih =>
      obtain ⟨same, settled⟩ := ih
      obtain ⟨reached, turned⟩ := settled_engine (Led b.size (engineOf gs l)) settled
      -- Both runs got the request, so what the memory answers decides both.
      rw [flat_in_range inside] at alone
      cases alone
      rcases (level_transparent gs fits (engineOf gs l) now r l inside
        (turned .here)).outcome fuel with ⟨_, ended, met⟩ | ended
      · cases answered.symm.trans ended
        obtain ⟨led, turned'⟩ := settled_engine (EngineRuns.Reachable p) met.good
        exact ⟨met.bytes.trans (by rw [same]),
          turned' (EngineAnswers.led_reachable small reached led)⟩
      · cases answered.symm.trans ended

end Chain

/-- The hierarchy is transparent: after any requests that are in range the memory is
what it would be without the caches and the DRAM model, and whenever the next request
has come back it is answered as the memory alone answers it, with its debug flag as it
was; a debug request changes nothing but the memory. With enough fuel a debug request
comes back, and every request does if the engine of the chain answers from here on, which
it does whenever its constructor took parameters whose loops end on this memory. -/
theorem transparent (b : Board) (p : DramParams.Params) (gs : List Config)
    (accepts : ∀ g ∈ gs, g.accepts = true) (whole : ∀ g ∈ gs, g.lineSize ∣ b.size)
    (small : b.size < word) (l : Level gs) (m : Bytes) (run : Run b p gs l m) :
    bytes gs l = m ∧
    (∀ now r, InRange b r → ∃ direct m', flat b.size now r m = .ok (.ok, direct, m') ∧
      (∀ fuel, (∃ answer l', level b fuel gs now r l = .ok (.ok, answer, l') ∧
        answer.data = direct.data ∧ bytes gs l' = m' ∧ answer.debug = r.debug ∧
        (r.debug = true → timing gs l' = timing gs l)) ∨
        level b fuel gs now r l = .error .endless) ∧
      (r.debug = true ∨ Answering b.size (engineOf gs l) →
        ∃ answer l', Returns (level b · gs now r l) (.ok, answer, l'))) ∧
    (Timely b.size p → Answering b.size (engineOf gs l)) := by
  have fits : ∀ g ∈ gs, Fits g b.size := fun g member =>
    ⟨accepts g member, whole g member, small⟩
  obtain ⟨same, settled⟩ := run_settled fits small run
  obtain ⟨reached, turned⟩ := settled_engine (Led b.size (engineOf gs l)) settled
  refine ⟨same, fun now r inside => ?_,
    fun timely => EngineAnswers.timely_answering small timely reached⟩
  have met := level_transparent gs fits (engineOf gs l) now r l inside (turned .here)
  refine ⟨_, _, flat_in_range inside now m, fun fuel => ?_, fun why => ?_⟩
  · rcases met.outcome fuel with ⟨⟨status, answer, l'⟩, ended, shown⟩ | ended
    · obtain rfl : status = .ok := shown.status
      refine Or.inl ⟨answer, l', ended, ?_, ?_, shown.debug, shown.silent⟩
      · rw [← same]
        exact shown.data
      · rw [← same]
        exact shown.bytes
    · exact Or.inr ended
  · rcases met.ends with ⟨timed, silent⟩ | ⟨⟨status, answer, l'⟩, enough, came⟩
    · rcases why with debug | answers
      · rw [timed] at debug
        cases debug
      · exact absurd answers silent
    · rcases met.outcome enough with ⟨found, ended, shown⟩ | ended
      · cases ended.symm.trans (came enough (Nat.le_refl _))
        obtain rfl : status = .ok := shown.status
        exact ⟨answer, l', enough, came⟩
      · cases ended.symm.trans (came enough (Nat.le_refl _))

/-! ### Two caches in front of an LPDDR5 -/

def board : Board := { period := 1000, size := 64 }

def inner : Config := { size := 4, lineSize := 2, ways := 2 }

def outer : Config := { size := 8, lineSize := 4, ways := 2, writeback := true }

/-- Across two lines of the inner cache and two of the outer. -/
def store : Req := { addr := 3, size := 2, isWrite := true, data := [7, 9] }

def load : Req := { addr := 3, size := 2, isWrite := false }

theorem lpddr5_timely : Timely board.size DramPresets.lpddr5 := by
  intro _
  obtain ⟨timed, _, fits, _⟩ := DramPresets.presets_timed DramPresets.lpddr5
    (by simp [DramPresets.presets])
  refine ⟨timed, fits, fun g configured => ?_⟩
  obtain ⟨g', configured', sized⟩ : ∃ g', DramParams.configure DramPresets.lpddr5 = .ok g' ∧
      g'.align < 2 ^ 63 ∧ 1 < g'.burstBytes ∧ board.size + g'.align.toNat ≤ word :=
    ⟨_, rfl, by decide +kernel, by decide +kernel, by decide +kernel⟩
  cases configured.symm.trans configured'
  exact sized

/-- A store comes back, and the load after it has what it stored. -/
theorem transparent_load : ∃ e fuel stored l₁ answer l₂,
    DramEngine.create DramPresets.lpddr5 = .ok e ∧
    level board fuel [inner, outer] 0 store (started e Nat.toUInt8 [inner, outer]) =
      .ok (.ok, stored, l₁) ∧
    level board fuel [inner, outer] 100 load l₁ = .ok (.ok, answer, l₂) ∧ answer.data = [7, 9] := by
  obtain ⟨e, created⟩ : ∃ e, DramEngine.create DramPresets.lpddr5 = .ok e := ⟨_, rfl⟩
  have clear := transparent board DramPresets.lpddr5 [inner, outer] (by decide) (by decide)
    (by decide)
  have reset : Run board DramPresets.lpddr5 [inner, outer] _ _ := .reset e Nat.toUInt8 created
  obtain ⟨_, serves, answering⟩ := clear _ _ reset
  obtain ⟨direct, m₁, alone, _, returns⟩ := serves 0 store ⟨by decide, by decide⟩
  obtain ⟨stored, l₁, enough₁, came₁⟩ := returns (Or.inr (answering lpddr5_timely))
  -- The load comes back too, and `m₁` is what the memory alone holds by then.
  have run := reset.req enough₁ 0 _ l₁ _ m₁ store stored direct .ok .ok ⟨by decide, by decide⟩
    (came₁ _ (Nat.le_refl _)) alone
  obtain ⟨_, serves', answering'⟩ := clear l₁ m₁ run
  obtain ⟨direct', m₂, alone', shown, returns'⟩ := serves' 100 load ⟨by decide, by decide⟩
  obtain ⟨answer, l₂, enough₂, came₂⟩ := returns' (Or.inr (answering' lpddr5_timely))
  have came := came₂ (max enough₁ enough₂) (Nat.le_max_right _ _)
  refine ⟨e, max enough₁ enough₂, stored, l₁, answer, l₂, created, came₁ _ (Nat.le_max_left _ _),
    came, ?_⟩
  rcases shown (max enough₁ enough₂) with ⟨answer', l', ended, data, _⟩ | ended
  · cases ended.symm.trans came
    cases alone
    cases alone'
    exact data
  · cases ended.symm.trans came

end HeteroSim.Hierarchy

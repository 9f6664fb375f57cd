import HeteroSim.HyperBus

/-!
When the engine answers. A HyperRAM always does. The controller of the dram family does
if a refresh with the activation after it fits in tREFI, a burst is more than a byte and
no access touches the last granule of the address space.
-/

namespace HeteroSim.EngineAnswers

open DramParams DramChannel ChannelMachine DramEngine EngineRuns Effect AccessLoop NominalLatency
  HyperBus

/-- The engines that accesses below `size` lead to. -/
inductive Led (size : Nat) (e : Engine) : Engine → Prop where
  | here : Led size e e
  | access (before after : Engine) (fuel : Nat) (now : Int) (addr bytes : Nat) (w : Bool)
      (done : Int) (led : Led size e before) (start : addr < size) (stop : addr + bytes ≤ size)
      (ended : access fuel now addr bytes w before = .ok done after) : Led size e after

/-- From here on every access below `size` returns. -/
def Answering (size : Nat) (e : Engine) : Prop :=
  ∀ later, Led size e later → ∀ now addr bytes w, addr < size → addr + bytes ≤ size →
    ∃ done after, Returns (fun fuel => access fuel now addr bytes w) later done after

/-- The parameters for which the controller's loops end on a memory of `size` bytes. -/
def Timely (size : Nat) (p : Params) : Prop :=
  p.kind = .dram → NonNegative p ∧ RefreshFits p ∧ ∀ g, configure p = .ok g →
    g.align < 2 ^ 63 ∧ 1 < g.burstBytes ∧ size + g.align.toNat ≤ word

section Answers

variable {p : Params} {size : Nat} {e later : Engine}

theorem led_reachable (small : size < word) (reached : Reachable p e) (led : Led size e later) :
    Reachable p later := by
  induction led with
  | here => exact reached
  | access before after fuel now addr bytes w done _ start stop ended ih =>
      exact ih.access _ _ fuel now addr bytes w done (by omega) (by omega) ended

/-! ### HyperRAM -/

theorem hyperram_config (kind : p.kind = .hyperram) (reached : Reachable p e) :
    e.g = { p := p, hyperram := true } ∧ 0 < p.hbBusBytes := by
  induction reached with
  | start e created =>
      simp only [create, configure, kind, except_bind, check_ok, exists_and_left, exists_const,
        Bool.not_eq_true', Bool.or_eq_false_iff, decide_eq_false_iff_not, Int.not_le] at created
      obtain ⟨g, ⟨⟨⟨_, width⟩, _⟩, same⟩, made⟩ := created
      cases same
      cases made
      exact ⟨rfl, width⟩
  | access before after fuel now addr bytes w done _ _ _ ended ih =>
      obtain ⟨config, width⟩ := ih
      rw [access_chunks p before config] at ended
      split at ended
      · cases ended
      · cases ended
        exact ⟨config, width⟩

theorem hyperram_answers (kind : p.kind = .hyperram) (reached : Reachable p e) (now : Int)
    (addr bytes : Nat) (w : Bool) :
    ∃ done after, Returns (fun fuel => access fuel now addr bytes w) e done after := by
  obtain ⟨config, width⟩ := hyperram_config kind reached
  obtain ⟨⟨finish, st⟩, ends⟩ := chunks_enough width (movedBytes p addr (max bytes 1)).toNat
    (movedBytes p addr (max bytes 1)) (max (now + p.ctrlPs.tdiv 2) e.hbFree)
    (max (now + p.ctrlPs.tdiv 2) e.hbFree) (e.st.request w) (Int.self_le_toNat _)
  refine ⟨finish + (p.ctrlPs - p.ctrlPs.tdiv 2), { e with st := st, hbFree := finish + p.hbRwrPs },
    (movedBytes p addr (max bytes 1)).toNat, fun fuel enough => ?_⟩
  show access fuel now addr bytes w e = _
  rw [access_chunks p e config, ends fuel enough]

/-! ### The dram family -/

theorem reachable_configured (dram : p.kind = .dram) (timed : NonNegative p)
    (reached : Reachable p e) : configure p = .ok e.g := by
  induction reached with
  | start e created =>
      simp only [create, except_bind] at created
      obtain ⟨g, configured, made⟩ := created
      cases made
      exact configured
  | access before after fuel now addr bytes w done reached _ _ ended ih =>
      obtain ⟨g, accepted, connected⟩ :=
        visited_connected p before dram timed (.between before reached)
      obtain rfl := connected.config
      have kept := (access_keeps (accepted.same.symm ▸ timed) accepted fuel now addr bytes w).ok
        before after done connected ended
      rw [kept.config]
      exact ih

theorem dram_answers (dram : p.kind = .dram) (timely : Timely size p) (reached : Reachable p e)
    (now : Int) (addr bytes : Nat) (w : Bool) (start : addr < size) (stop : addr + bytes ≤ size) :
    ∃ done after, Returns (fun fuel => access fuel now addr bytes w) e done after := by
  obtain ⟨timed, fits, sized⟩ := timely dram
  have configured := reachable_configured dram timed reached
  have accepted := configure_accepted p e.g dram configured
  obtain ⟨narrow, wide, room⟩ := sized e.g configured
  -- an access of no bytes is one of a single byte
  have least : ∀ fuel, access fuel now addr bytes w = access fuel now addr (max bytes 1) w := by
    intro fuel
    by_cases nothing : bytes = 0
    · subst nothing
      rfl
    · rw [max_eq_left (by omega)]
  have inside : lastByte e.g addr (max bytes 1) + 1 < word := by
    have below := Nat.div_mul_le_self (addr + max bytes 1 - 1) e.g.align.toNat
    have positive : 0 < e.g.align.toNat := by
      obtain ⟨j, power⟩ := accepted.alignPow
      rw [power]
      simp
    simp only [lastByte]
    omega
  have times := access_times p e.g dram configured narrow e rfl now addr (max bytes 1) w (by omega)
    (by omega)
  obtain ⟨done, after, _, returns, _⟩ := times.1.mpr ⟨wide, inside, times.2 timed fits reached⟩
  simp only [least]
  exact ⟨done, after, returns⟩

theorem unknown_made {name : String} (kind : p.kind = .other name) : ¬ Reachable p e := by
  intro reached
  induction reached with
  | start e created => simp [create, configure, kind, bind, Except.bind] at created
  | access _ _ _ _ _ _ _ _ _ _ _ _ ih => exact ih

theorem timely_answering (small : size < word) (timely : Timely size p)
    (reached : Reachable p e) : Answering size e := by
  intro later led now addr bytes w start stop
  have reached' := led_reachable small reached led
  cases kind : p.kind with
  | hyperram => exact hyperram_answers kind reached' now addr bytes w
  | dram => exact dram_answers kind timely reached' now addr bytes w start stop
  | other name => exact absurd reached' (unknown_made kind)

end Answers

end HeteroSim.EngineAnswers

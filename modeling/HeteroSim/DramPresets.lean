import HeteroSim.DramParams

/-!
The dram presets of the board generator, in clock cycles as its tables have
them, expanded to the picoseconds the engine reads.
-/

namespace HeteroSim.DramPresets

open DramParams

structure Lpddr4Clocks where
  RCD : Int
  RPpb : Int
  RPab : Int
  RAS : Int
  RCpb : Int
  RL : Int
  WL : Int
  RRD : Int
  FAW : Int
  CCD : Int
  WTR : Int
  DQSCK : Int
  RPST : Int
  WR : Int
  RTP : Int
  REFI : Int
  RFCab : Int

/-- `_lpddr4`: the read latency includes the two-part command and tDQSCK, and
the read-to-write turnaround is worked out from the same table. -/
def lpddr4Die (tCK mtps rows : Int) (t : Lpddr4Clocks) : Params :=
  { tCK := tCK, mtps := mtps, rows := rows, banks := 8, pageBytes := 1024 * 2
    widthBits := 16, burstLength := 16, wqDepth := 32, wqHigh := 25, wqLow := 7
    tRCD := t.RCD * tCK, tRP := t.RPpb * tCK, tRPab := t.RPab * tCK, tRAS := t.RAS * tCK
    tRC := t.RCpb * tCK, tRL := (4 + t.RL + t.DQSCK) * tCK, tWL := t.WL * tCK
    tRRD_S := t.RRD * tCK, tRRD_L := t.RRD * tCK, tFAW := t.FAW * tCK
    tCCD_S := t.CCD * tCK, tCCD_L := t.CCD * tCK, tWTR_S := t.WTR * tCK, tWTR_L := t.WTR * tCK
    tRTW := (t.RL + t.DQSCK + 16 / 2 + t.RPST + 1 - t.WL) * tCK
    tWR := t.WR * tCK, tRTP := t.RTP * tCK, tREFI := t.REFI * tCK, tRFC := t.RFCab * tCK }

def lpddr4 : Params := lpddr4Die 625 3200 65536
  { RCD := 29, RPpb := 29, RPab := 34, RAS := 68, RCpb := 97, RL := 28, WL := 14, RRD := 16
    FAW := 64, CCD := 8, WTR := 16, DQSCK := 6, RPST := 0, WR := 29, RTP := 12, REFI := 6246
    RFCab := 448 }

def lpddr4x : Params := lpddr4Die 469 4266 131072
  { RCD := 39, RPpb := 39, RPab := 45, RAS := 90, RCpb := 129, RL := 36, WL := 18, RRD := 22
    FAW := 86, CCD := 8, WTR := 22, DQSCK := 4, RPST := 0, WR := 39, RTP := 17, REFI := 8341
    RFCab := 812 }

/-- Bank-group mode: the group is the lowest mapping field, so the two bursts of
a cache line land in different groups. -/
def lpddr5 : Params :=
  { tCK := 1250, mtps := 6400, mapping := ['R', 'o', 'B', 'a', 'C', 'o', 'B', 'g']
    bankgroups := 4, banks := 4, rows := 2 ^ 15, pageBytes := 1024 * 2, widthBits := 16
    burstLength := 16, wqDepth := 32, wqHigh := 25, wqLow := 7
    tRCD := 15 * 1250, tRP := 15 * 1250, tRPab := 17 * 1250, tRAS := 34 * 1250
    tRC := 49 * 1250, tRL := (17 + 1) * 1250, tWL := (9 + 1) * 1250, tRRD_S := 4 * 1250
    tRRD_L := 4 * 1250, tFAW := 16 * 1250, tCCD_S := 2 * 1250, tCCD_L := 4 * 1250
    tWTR_S := (5 - 1) * 1250, tWTR_L := (10 + 2 - 1) * 1250, tRTW := (17 + 2 + 2 - 9) * 1250
    tRTW_L := (17 + 4 + 2 - 9) * 1250, tWR := 28 * 1250, tRTP := 6 * 1250
    tREFI := 3906000 / 1250 * 1250, tRFC := 168 * 1250 }

def presets : List Params := [lpddr4, lpddr4x, lpddr5]

instance (p : Params) : Decidable (NonNegative p) :=
  decidable_of_iff
    (∀ t ∈ [p.tCK, p.tRCD, p.tRP, p.tRPab, p.tRAS, p.tRC, p.tRL, p.tWL, p.tRRD_S, p.tRRD_L,
      p.tFAW, p.tCCD_S, p.tCCD_L, p.tWTR_S, p.tWTR_L, p.tRTW, p.tRTW_L, p.tWR, p.tRTP, p.tREFI,
      p.tRFC], 0 ≤ t)
    ⟨fun all => by constructor <;> exact all _ (by simp),
      fun ⟨_, _, _, _, _, _, _, _, _, _, _, _, _, _, _, _, _, _, _, _, _⟩ => by simp [*]⟩

instance (p : Params) : Decidable (GroupsWiden p) :=
  decidable_of_iff (p.tRRD_S ≤ p.tRRD_L ∧ p.tCCD_S ≤ p.tCCD_L ∧ p.tWTR_S ≤ p.tWTR_L)
    ⟨fun ⟨rrd, ccd, wtr⟩ => ⟨rrd, ccd, wtr⟩, fun ⟨rrd, ccd, wtr⟩ => ⟨rrd, ccd, wtr⟩⟩

instance (p : Params) : Decidable (RefreshFits p) :=
  inferInstanceAs (Decidable (p.tREFI ≤ 0 ∨ p.tRFC + p.tRCD < p.tREFI))

theorem presets_timed : ∀ p ∈ presets, NonNegative p ∧ GroupsWiden p ∧ RefreshFits p ∧
    (p.tRTW_L = 0 ∨ p.tRTW ≤ p.tRTW_L) ∧ p.ranks = 1 := by decide

theorem presets_accepted : ∀ p ∈ presets, (configure p).isOk = true := by decide +kernel

end HeteroSim.DramPresets

import HeteroSim.KeywordEnds

/-!
Both builds end with what the serial loop without the clusters ends with, and both
can be taken to their end from any state in which no core has trapped.
-/

namespace HeteroSim.KeywordLoop

open SharedWords ClusterJob Mailbox DescriptorIntegrity ExactlyOnce
open Relation (ReflTransGen)

variable {R M : Type}

theorem loops_agree (app : App R M) (c : Engine → Cluster) (net : M) (zero : R)
    (apart : app.Apart) {s t : Chip R M}
    (pipelined : Reachable { app with pipelined := true } c net zero s)
    (serial : Reachable { app with pipelined := false } c net zero t)
    (ended : s.main.place = .ended) (ended' : t.main.place = .ended) :
    s.main.copied = app.rows app.inputs app.clips ∧
      t.main.copied = app.rows app.inputs app.clips ∧
      s.main.compared = app.rows app.elems app.clips ∧
      t.main.compared = app.rows app.elems app.clips ∧
      s.main.correct = t.main.correct ∧ s.main.agree = t.main.agree ∧
      s.main.maxdiff = t.main.maxdiff ∧ s.main.net = t.main.net := by
  have follows : ∀ pipelined, App.Follows { app with pipelined := pipelined } = app.Follows := by
    intro pipelined
    funext m m'
    rw [App.Follows, ideal_pipelined]
    rfl
  have apart' : ∀ pipelined, App.Apart { app with pipelined := pipelined } := fun _ => apart
  obtain ⟨m, sound⟩ := reachable_sound (apart' true) pipelined
  obtain ⟨m', sound'⟩ := reachable_sound (apart' false) serial
  obtain ⟨copied, compared⟩ := sound_logged sound
  obtain ⟨copied', compared'⟩ := sound_logged sound'
  rw [← sound.place, ended] at copied compared
  rw [← sound'.place, ended'] at copied' compared'
  obtain ⟨same, still⟩ := ended_main sound ended
  obtain ⟨same', still'⟩ := ended_main sound' ended'
  have run := sound.serial
  have run' := sound'.serial
  rw [still, ← same, follows] at run
  rw [still', ← same', follows] at run'
  have equal : s.main = t.main := ideal_ends run run' ended ended'
  refine ⟨copied.trans (List.append_nil _), copied'.trans (List.append_nil _),
    compared.trans (List.append_nil _), compared'.trans (List.append_nil _), ?_⟩
  rw [equal]
  exact ⟨rfl, rfl, rfl, rfl⟩

/-- The pipelined loop is the serial one. Whatever the clusters do and when, in a run
in which every post and wait succeeds it hands the network and compares the Mfcc
of each clip, never reads the half of `features` that is being filled, which before
the last clip is always the other one, and ends where the serial loop ends. Where the
clusters can serve the jobs both builds can go on to their end, as long as no core has
trapped and no wait is out of polls. -/
theorem pipelined_equals_serial (app : App R M) (c : Engine → Cluster) (net : M) (zero : R)
    (apart : app.Apart) (s t : Chip R M)
    (pipelined : Reachable { app with pipelined := true } c net zero s)
    (serial : Reachable { app with pipelined := false } c net zero t) :
    (∀ x ∈ s.main.copied ++ s.main.compared, x.2.2 = app.mfcc (app.audio x.1) x.2.1) ∧
    (∀ n half, app.reads s.main.place = some n → s.Filling app half → half ≠ n % 2) ∧
    (∀ n, app.reads s.main.place = some n → n + 1 < app.clips →
      s.Filling app ((n + 1) % 2)) ∧
    (s.main.place = .ended → t.main.place = .ended →
      s.main.copied = app.rows app.inputs app.clips ∧
      t.main.copied = app.rows app.inputs app.clips ∧
      s.main.compared = app.rows app.elems app.clips ∧
      t.main.compared = app.rows app.elems app.clips ∧
      s.main.correct = t.main.correct ∧ s.main.agree = t.main.agree ∧
      s.main.maxdiff = t.main.maxdiff ∧ s.main.net = t.main.net) ∧
    (app.Servable c →
      (Live s → ∃ s', ReflTransGen (Step { app with pipelined := true } c) s s' ∧
        s'.main.place = .ended) ∧
      (Live t → ∃ t', ReflTransGen (Step { app with pipelined := false } c) t t' ∧
        t'.main.place = .ended)) := by
  have apart' : ∀ pipelined, App.Apart { app with pipelined := pipelined } := fun _ => apart
  obtain ⟨m, sound⟩ := reachable_sound (apart' true) pipelined
  obtain ⟨copied, compared⟩ := sound_logged sound
  refine ⟨?_, fun n half reads filling => reads_apart (apart' true) sound reads filling,
    fun n reads more => reads_beside sound rfl reads more,
    loops_agree app c net zero apart pipelined serial, fun servable => ⟨?_, ?_⟩⟩
  · intro x member
    rw [copied, compared] at member
    simp only [List.mem_append] at member
    rcases member with (rows | row) | rows | row
    · exact rows_value app _ _ x rows
    · exact row_value app _ _ x row
    · exact rows_value app _ _ x rows
    · exact row_value app _ _ x row
  · have builds : App.Servable { app with pipelined := true } c :=
      ⟨servable.features, servable.nodes⟩
    exact loop_ends apart builds pipelined
  · have builds : App.Servable { app with pipelined := false } c :=
      ⟨servable.features, servable.nodes⟩
    exact loop_ends apart builds serial

/-- The Mfcc of one clip: 256 points and 20 bands, the clip's audio and its half first. -/
def clipJob (n half : Nat) : Job where
  kernel := 5
  args i := [0x82000000 + 0x10000 * n.toUInt32, 0x83000000 + 0x1000 * half.toUInt32, 62, 256, 128,
    256, 0x84000000, 0x84001000, 0x84002000, 0x84003000, 0x84004000, 20, 0x84005000, 10,
    236].getD i 0
  nargs := 15
  flags := 0

/-- Two clips of one feature each and a network of one node, on the other cluster. -/
def twoClips : App Nat Nat where
  pipelined := false
  frontEnd := .snitch
  clips := 2
  elems := 1
  inputs := 1
  fits := Nat.le_refl 1
  classes := 1
  audio n _ := n
  mfcc sound := sound
  mfccJob := clipJob
  nodes := [⟨some .spatz, oneArg 0x82000000, fun net => net + 1⟩]
  setInput _ _ v := v
  outputs net _ := net
  distance a b := (a - b) + (b - a)
  above a b := decide (b < a)
  mfccRef n _ := n
  labels _ := 0
  reference _ := 0

theorem twoClips_servable : twoClips.Servable fun _ => plain := by
  constructor
  · intro n half _ d agrees
    have kernel : d .kernelId = 5 := agrees .kernelId 5 rfl
    have flags : d .flags = 0 := agrees .flags 0 rfl
    have fft : d (.args Mfcc.fftLen) = 256 := agrees (.args 5) 256 rfl
    have mel : d (.args Mfcc.nbMel) = 20 := agrees (.args 11) 20 rfl
    simp [jobError, placement, jobScratch, wanted, reserveScratch, planScratch, jobKernel, kernel,
      flags, fft, mel, Kernel.ofId, plain, refusal]
    rw [if_neg (by decide)]
    exact fun none => absurd none (by decide : align64 0x10008000 ≠ 0)
  · intro node member e engine d agrees
    cases List.mem_singleton.mp member
    have kernel : d .kernelId = 2 := agrees .kernelId 2 rfl
    have flags : d .flags = 0 := agrees .flags 0 rfl
    simp [jobError, placement, jobScratch, wanted, reserveScratch, planScratch, jobKernel, kernel,
      flags, Kernel.ofId, plain, refusal]

def freshChip : Chip Nat Nat where
  board := freshBoard
  tasks _ := []
  features _ _ := 0
  main := { net := 0, maxdiff := 0 }

/-- Both builds end after two clips, and on the way the pipelined one reads the first
clip while the second is being filled. -/
theorem pipelined_equals_serial_first : ∃ s t u,
    Reachable { twoClips with pipelined := true } (fun _ => plain) 0 0 s ∧
    Reachable { twoClips with pipelined := false } (fun _ => plain) 0 0 t ∧
    s.main.place = .ended ∧ t.main.place = .ended ∧
    s.main.copied = [(0, 0, 0), (1, 0, 1)] ∧ s.main.compared = [(0, 0, 0), (1, 0, 1)] ∧
    s.main.correct = t.main.correct ∧ s.main.maxdiff = t.main.maxdiff ∧
    Reachable { twoClips with pipelined := true } (fun _ => plain) 0 0 u ∧
    twoClips.reads u.main.place = some 0 ∧ u.Filling twoClips 1 ∧ ¬ u.Filling twoClips 0 := by
  have fresh : Started freshChip (0 : Nat) (0 : Nat) :=
    ⟨fun _ => ⟨signedIn, ⟨rfl, rfl, rfl, rfl, rfl, rfl, rfl, rfl⟩, rfl, rfl⟩, fun _ => rfl, rfl⟩
  have live : Live freshChip := fun _ => ⟨nofun, nofun⟩
  have apart : twoClips.Apart := by
    intro node member
    cases List.mem_singleton.mp member
    simp [twoClips]
  have both := fun s t pipelined serial =>
    pipelined_equals_serial twoClips (fun _ => plain) 0 0 apart s t pipelined serial
  obtain ⟨_, _, _, _, ends⟩ := both freshChip freshChip (.start _ fresh) (.start _ fresh)
  obtain ⟨s, run, ended⟩ := (ends twoClips_servable).1 live
  obtain ⟨t, run', ended'⟩ := (ends twoClips_servable).2 live
  have pipelined := reached_run (.start _ fresh) run
  have serial := reached_run (.start _ fresh) run'
  obtain ⟨_, _, _, agree, _⟩ := both s t pipelined serial
  obtain ⟨copied, _, compared, _, correct, _, maxdiff, _⟩ := agree ended ended'
  -- Before the loop, its head, the post, the first element of the first clip.
  have apart' : App.Apart { twoClips with pipelined := true } := apart
  have servable : App.Servable { twoClips with pipelined := true } fun _ => plain :=
    ⟨twoClips_servable.features, twoClips_servable.nodes⟩
  have start : Reachable { twoClips with pipelined := true } (fun _ => plain) 0 0 freshChip :=
    .start _ fresh
  obtain ⟨a, primed, liveA, atHead⟩ := place_goes apart' servable start live nofun
  have reachedA := reached_run start primed
  obtain ⟨b, headed, liveB, atPost⟩ :=
    place_goes apart' servable reachedA liveA (by rw [atHead]; nofun)
  have reachedB := reached_run reachedA headed
  rw [atHead] at atPost
  obtain ⟨u, posted, liveU, atCopy⟩ :=
    place_goes apart' servable reachedB liveB (by rw [atPost]; nofun)
  have reachedU := reached_run reachedB posted
  rw [atPost] at atCopy
  have reads : twoClips.reads u.main.place = some 0 := by
    rw [atCopy]
    rfl
  obtain ⟨_, apartU, beside, _⟩ := both u freshChip reachedU (.start _ fresh)
  exact ⟨s, t, u, pipelined, serial, ended, ended', copied, compared, correct, maxdiff, reachedU,
    reads, beside 0 reads (by decide), fun filling => apartU 0 0 reads filling rfl⟩

end HeteroSim.KeywordLoop

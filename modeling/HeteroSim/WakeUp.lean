import HeteroSim.DescriptorIntegrity

/-!
The doorbell. The host stores the job number and then rings; the control core
compares, sleeps until the bell is pending, clears it and compares again. The
clear may take a bell rung for the next job with it, but then the comparison
that follows sees that job.
-/

namespace HeteroSim.WakeUp

open SharedWords ClusterJob Mailbox DescriptorIntegrity

section Bell

variable {c : Cluster} {l l' : Link} {h : History} {e : Event}

structure Rung (l : Link) : Prop where
  ahead : ∀ job rest waits, l.host = .posting job rest waits → ∀ w v, (w, v) ∈ rest → w ≠ .seq
  bell : l.control = .asleep → l.words .seq ≠ l.served →
    l.doorbell = true ∨ ∃ waits, l.host = .ringing waits

theorem started_rung (started : Started l) : Rung l where
  ahead job rest waits here := by
    rw [started.host] at here
    cases here
  bell asleep := by
    rw [started.control] at asleep
    cases asleep

theorem Rung.waits (rung : Rung l) (before : ∀ waits, l.host ≠ .ringing waits) (host : Host)
    (after : ∀ job rest waits, host ≠ .posting job rest waits) (inFlight : Bool)
    (busyCycles : UInt32) :
    Rung { l with host := host, inFlight := inFlight, busyCycles := busyCycles } where
  ahead job rest waits here := absurd here (after job rest waits)
  bell asleep behind := by
    rcases rung.bell asleep behind with bell | ⟨waits, here⟩
    · exact Or.inl bell
    · exact absurd here (before waits)

theorem host_rung {requiresStaging : Bool} (taken : HostStep requiresStaging l e l')
    (rung : Rung l) : Rung l' := by
  cases taken with
  | refuse idle busy => exact rung
  | nothing idle free => exact rung
  | accept job waits idle free =>
      constructor
      · rintro posted rest waiting here w v member
        cases here
        exact (descriptor_apart w (posted_descriptor _ w v ((stores_posted _ w v).mp member))).1
      · intro asleep behind
        rcases rung.bell asleep behind with bell | ⟨waiting, here⟩
        · exact Or.inl bell
        · simp [idle] at here
  | store job w v rest waits here =>
      -- a word of the descriptor is not the job number, so the core has nothing new to see
      have other : w ≠ .seq := rung.ahead job _ waits here w v List.mem_cons_self
      constructor
      · rintro posted left waiting same word value member
        cases same
        exact rung.ahead job _ waits here word value (List.mem_cons_of_mem _ member)
      · intro asleep behind
        have kept : setWord l.words w v .seq = l.words .seq := setWord_other _ _ _ _ other.symm
        rcases rung.bell asleep (fun same => behind (kept.trans same)) with bell | ⟨waiting, rings⟩
        · exact Or.inl bell
        · simp [here] at rings
  | publish job waits here => exact ⟨nofun, fun _ _ => Or.inr ⟨waits, rfl⟩⟩
  | ring waits here =>
      refine ⟨fun job rest waiting same => ?_, fun _ _ => Or.inl rfl⟩
      cases waits <;> cases same
  | wait idle busy => exact rung.waits (by simp [idle]) .waiting nofun _ _
  | begin here => exact rung.waits (by simp [here]) (.polling maxPolls) nofun false _
  | poll left here running => exact rung.waits (by simp [here]) (.polling left) nofun _ _
  | done left here same => exact rung.waits (by simp [here]) (.collecting collect) nofun _ _
  | giveUp here => exact rung.waits (by simp [here]) .idle nofun _ _
  | gather w next here => exact rung.waits (by simp [here]) (.collecting _) nofun _ _
  | answer r here => exact rung.waits (by simp [here]) .idle nofun _ _

theorem core_rung (taken : CoreStep c l e l') (rung : Rung l) : Rung l' := by
  cases taken with
  | sleep here same => exact ⟨rung.ahead, fun _ behind => absurd same behind⟩
  | notice here fresh => exact ⟨rung.ahead, nofun⟩
  | wake here bell => exact ⟨rung.ahead, nofun⟩
  | clear here => exact ⟨rung.ahead, nofun⟩
  | take active cycles here => exact ⟨rung.ahead, nofun⟩
  | load w next here => exact ⟨rung.ahead, nofun⟩
  | store w v next here => exact ⟨rung.ahead, nofun⟩
  | act a next here => exact ⟨rung.ahead, nofun⟩
  | finish here => exact ⟨rung.ahead, nofun⟩
  | trap rest cause here => exact ⟨rung.ahead, nofun⟩

theorem reachable_rung {allowed : Link → History → Event → Prop}
    (reached : Reachable c allowed l h) : Rung l := by
  induction reached with
  | start l started => exact started_rung started
  | step l l' h e before permitted taken ih =>
      rcases taken with host | core
      · exact host_rung host ih
      · exact core_rung core ih

end Bell

/-- No wake-up is lost: in no state of any run does the control core sleep with no
bell pending, the host past its ring, and a job number it has not served. -/
theorem no_lost_wakeup (c : Cluster) (l : Link) (h : History)
    (reached : Reachable c (fun _ _ _ => True) l h) :
    ¬ (l.control = .asleep ∧ l.doorbell = false ∧ (∀ waits, l.host ≠ .ringing waits) ∧
      l.words .seq ≠ l.served) := by
  rintro ⟨asleep, silent, past, behind⟩
  rcases (reachable_rung reached).bell asleep behind with bell | ⟨waits, here⟩
  · rw [silent] at bell
    cases bell
  · exact past waits here

/-- A core that went to sleep before the first job was posted has its bell. -/
theorem no_lost_wakeup_first : ∃ l h, Reachable plain (fun _ _ _ => True) l h ∧
    l.control = .asleep ∧ (∀ waits, l.host ≠ .ringing waits) ∧ l.words .seq ≠ l.served ∧
    l.doorbell ≠ false := by
  have started : Started signedIn := ⟨rfl, rfl, rfl, rfl, rfl, rfl, rfl, rfl⟩
  have start : Reachable plain (fun _ _ _ => True) signedIn {} := .start _ started
  have slept := start.step _ _ _ _ trivial (Or.inr (.sleep _ rfl rfl))
  have accepted := slept.step _ _ _ _ trivial
    (Or.inl (.accept _ (oneArg 0x82000000) false rfl rfl))
  have stored := accepted.step _ _ _ _ trivial (Or.inl (.store _ _ (.args 0) _ _ _ rfl))
  have kernel := stored.step _ _ _ _ trivial (Or.inl (.store _ _ .kernelId _ _ _ rfl))
  have nargs := kernel.step _ _ _ _ trivial (Or.inl (.store _ _ .nargs _ _ _ rfl))
  have flags := nargs.step _ _ _ _ trivial (Or.inl (.store _ _ .flags _ _ _ rfl))
  have published := flags.step _ _ _ _ trivial (Or.inl (.publish _ _ _ rfl))
  have rung := published.step _ _ _ _ trivial (Or.inl (.ring _ _ rfl))
  refine ⟨_, _, rung, rfl, nofun, by decide, fun silent => ?_⟩
  exact no_lost_wakeup plain _ _ rung ⟨rfl, silent, nofun, by decide⟩

end HeteroSim.WakeUp

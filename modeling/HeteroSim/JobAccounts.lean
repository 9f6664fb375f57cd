import HeteroSim.WakeUp
import Mathlib.Data.UInt
import Mathlib.Logic.Relation

/-!
The jobs of one mailbox, one after the other: which were taken, what their passes
stored and what the waits returned, kept by every step of a run in which no wait
gives up.
-/

namespace HeteroSim.ExactlyOnce

open SharedWords ClusterJob Mailbox DescriptorIntegrity

/-- What a link's jobs came to: which were taken, what their passes stored, and
what the waits for them returned. -/
structure Account where
  taken : List Nat := []
  written : List (Nat × Word × UInt32) := []
  waited : List (Nat × Result) := []

def Account.record (a : Account) (l : Link) (h : History) : Event → Account
  | .take => { a with taken := a.taken ++ [h.descriptors.length - 1] }
  | .coreStore w v => { a with written := a.written ++ [(h.current, w, v)] }
  | .result r =>
      match l.host with
      | .collecting _ => { a with waited := a.waited ++ [(h.descriptors.length - 1, r)] }
      | _ => a
  | _ => a

structure Site where
  link : Link
  past : History := {}
  account : Account := {}

def Site.next (s : Site) (e : Event) (l : Link) : Site :=
  ⟨l, s.past.record s.link e, s.account.record s.link s.past e⟩

/-! ### What holds of a site -/

/-- The actions of job `k`'s pass, in order. -/
def actsOf (h : History) (k : Nat) : List Act :=
  h.acts.filterMap fun x => if x.1 = k then some x.2 else none

/-- The stores of job `k`'s pass, in order. -/
def Account.storesOf (a : Account) (k : Nat) : List (Word × UInt32) :=
  a.written.filterMap fun x => if x.1 = k then some x.2 else none

/-- Job `k` was served by one whole pass over a descriptor with what was posted. -/
def Executed (c : Cluster) (h : History) (a : Account) (k : Nat) : Prop :=
  ∃ job d active cycles, h.jobs[k]? = some job ∧ (∀ w v, job.posted w = some v → d w = v) ∧
    actsOf h k = (serve c active cycles).acts d ∧
    a.storesOf k = (serve c active cycles).stores d

/-- The status words as a wait returns them. -/
def statusOf (r : Result) : List (Word × UInt32) :=
  [(.error, r.error), (.cycles, r.cycles), (.staged, r.staged), (.nbCores, r.nbCores)]

structure Once (c : Cluster) (s : Site) : Prop where
  taken : s.account.taken = List.range s.account.taken.length
  finished : s.past.finished = List.range s.past.finished.length
  begun : s.account.taken.length ≤ s.past.finished.length + 1
  accepted : s.past.finished.length ≤ s.account.taken.length ∧
    s.account.taken.length ≤ s.past.jobs.length ∧
    s.past.jobs.length ≤ s.past.finished.length + 1
  executed : ∀ k ∈ s.past.finished, Executed c s.past s.account k
  waited : ∀ k r, (k, r) ∈ s.account.waited →
    k ∈ s.past.finished ∧ s.account.storesOf k = statusOf r
  busy : s.link.busyCycles = (s.account.waited.map fun x => x.2.cycles).sum
  each : (s.account.waited.map Prod.fst).Pairwise (· < ·)
  settled : s.link.host = .idle → s.link.inFlight = false →
    s.past.finished.length = s.past.jobs.length

/-! ### The invariant -/

section Sites

variable {c : Cluster}

/-- The control core is inside a pass, or was when it trapped. -/
def Inside : Control → Prop
  | .serving _ | .parked => True
  | _ => False

instance (control : Control) : Decidable (Inside control) := by
  cases control <;> unfold Inside <;> infer_instance

structure Counted (s : Site) : Prop where
  taken : s.account.taken = List.range s.account.taken.length
  finished : s.past.finished = List.range s.past.finished.length
  inside : s.account.taken.length = s.past.finished.length + if Inside s.link.control then 1 else 0
  current : Inside s.link.control → s.past.current = s.past.finished.length
  posted : s.past.descriptors.length =
    s.past.finished.length + if s.link.words .seq = s.link.words .doneSeq then 0 else 1

def Partway (c : Cluster) (s : Site) (rest : Core Unit) : Prop :=
  ∃ d active cycles, s.past.descriptors[s.past.current]? = some d ∧
    (∀ w, descriptorWord w → s.link.words w = d w) ∧ Confined rest ∧
    actsOf s.past s.past.current ++ rest.acts d = (serve c active cycles).acts d ∧
    s.account.storesOf s.past.current ++ rest.stores d = (serve c active cycles).stores d

def Shown (s : Site) : Prop :=
  ∀ x ∈ s.account.storesOf (s.account.taken.length - 1), s.link.words x.1 = x.2

def Unwaited (h : History) (a : Account) : Prop :=
  0 < h.descriptors.length ∧ ∀ x ∈ a.waited, x.1 + 1 < h.descriptors.length

def Owed (s : Site) : Prop :=
  match s.link.host with
  | .idle =>
      if s.link.inFlight then Unwaited s.past s.account
      else ∀ x ∈ s.account.waited, x.1 < s.past.descriptors.length
  | .posting .. => ∀ x ∈ s.account.waited, x.1 < s.past.descriptors.length
  | .ringing _ | .waiting => Unwaited s.past s.account
  | .polling _ | .collecting _ => s.link.inFlight = false ∧ Unwaited s.past s.account

structure Accounted (c : Cluster) (s : Site) : Prop where
  intact : Intact c s.link s.past
  patient : s.past.gaveUp = false
  rung : WakeUp.Rung s.link
  counted : Counted s
  acts : ∀ x ∈ s.past.acts, x.1 ∈ s.account.taken
  written : ∀ x ∈ s.account.written, x.1 ∈ s.account.taken ∧ statusWord x.2.1
  partway : ∀ rest, s.link.control = .serving rest → Partway c s rest
  executed : ∀ k ∈ s.past.finished, Executed c s.past s.account k
  shown : Shown s
  reading : ∀ rest, s.link.host = .collecting rest →
    rest.eval s.link.words = collect.eval s.link.words
  owed : Owed s
  waited : ∀ k r, (k, r) ∈ s.account.waited →
    k ∈ s.past.finished ∧ s.account.storesOf k = statusOf r
  each : (s.account.waited.map Prod.fst).Pairwise (· < ·)
  busy : s.link.busyCycles = (s.account.waited.map fun x => x.2.cycles).sum

/-! ### Steps of the host -/

variable {s : Site} {l : Link} {e : Event}

structure Beside (s s' : Site) : Prop where
  control : s'.link.control = s.link.control
  served : s'.link.served = s.link.served
  status : ∀ w, statusWord w → s'.link.words w = s.link.words w
  doneSeq : s'.link.words .doneSeq = s.link.words .doneSeq
  acts : s'.past.acts = s.past.acts
  finished : s'.past.finished = s.past.finished
  current : s'.past.current = s.past.current
  taken : s'.account.taken = s.account.taken
  written : s'.account.written = s.account.written

theorem host_beside {requiresStaging : Bool} (step : HostStep requiresStaging s.link e l)
    (intact : Intact c s.link s.past) : Beside s (s.next e l) := by
  cases step with
  | store job w v rest waits here =>
      have host := intact.host
      simp only [HostOk, here] at host
      obtain ⟨_, _, _, _, left⟩ := host
      obtain ⟨_, doneSeq, _, status⟩ := descriptor_apart w
        (posted_descriptor job w v (left w v List.mem_cons_self))
      refine ⟨rfl, rfl, ?_, setWord_other _ _ _ _ doneSeq.symm, rfl, rfl, rfl, rfl, rfl⟩
      exact fun other known => setWord_other _ _ _ _ (by rintro rfl; exact status known)
  | publish job waits here =>
      refine ⟨rfl, rfl, ?_, setWord_other s.link.words .seq (s.link.nextSeq + 1) .doneSeq (by simp),
        rfl, rfl, rfl, rfl, rfl⟩
      intro other known
      exact setWord_other _ _ _ _ (by rintro rfl; exact known)
  | answer r here =>
      refine ⟨rfl, rfl, fun _ _ => rfl, rfl, rfl, rfl, rfl, ?_, ?_⟩ <;>
        simp [Site.next, Account.record, here]
  | nothing idle free =>
      refine ⟨rfl, rfl, fun _ _ => rfl, rfl, rfl, rfl, rfl, ?_, ?_⟩ <;>
        simp [Site.next, Account.record, idle]
  | _ => exact ⟨rfl, rfl, fun _ _ => rfl, rfl, rfl, rfl, rfl, rfl, rfl⟩

theorem host_words {requiresStaging : Bool} (step : HostStep requiresStaging s.link e l)
    (intact : Intact c s.link s.past) :
    ((s.next e l).past.descriptors = s.past.descriptors ∧
      l.words .seq = s.link.words .seq ∧ (l.words = s.link.words ∨ Quiet s.link s.past)) ∨
    (Quiet s.link s.past ∧ (s.next e l).past.descriptors = s.past.descriptors ++ [s.link.words] ∧
      l.words .seq = s.link.words .seq + 1) := by
  have host := intact.host
  cases step with
  | store job w v rest waits here =>
      simp only [HostOk, here] at host
      obtain ⟨quiet, _, _, _, left⟩ := host
      obtain ⟨seq, _⟩ := descriptor_apart w
        (posted_descriptor job w v (left w v List.mem_cons_self))
      exact Or.inl ⟨rfl, setWord_other _ _ _ _ seq.symm, Or.inr quiet⟩
  | publish job waits here =>
      simp only [HostOk, here] at host
      refine Or.inr ⟨host.1, rfl, ?_⟩
      show setWord s.link.words .seq (s.link.nextSeq + 1) .seq = s.link.words .seq + 1
      rw [setWord_same, intact.number]
  | _ => exact Or.inl ⟨rfl, rfl, Or.inl rfl⟩

theorem quiet_same (quiet : Quiet s.link s.past) :
    s.link.words .seq = s.link.words .doneSeq ∧ ¬ Inside s.link.control := by
  obtain ⟨seq, doneSeq, resting, _⟩ := quiet
  refine ⟨seq.trans doneSeq.symm, fun inside => ?_⟩
  cases here : s.link.control <;> rw [here] at resting inside <;>
    first | exact resting | exact inside

theorem host_counted {requiresStaging : Bool} (step : HostStep requiresStaging s.link e l)
    (intact : Intact c s.link s.past) (counted : Counted s) : Counted (s.next e l) := by
  have beside := host_beside step intact
  obtain ⟨taken, finished, inside, current, posted⟩ := counted
  refine ⟨?_, ?_, ?_, ?_, ?_⟩
  · rw [beside.taken]
    exact taken
  · rw [beside.finished]
    exact finished
  · rw [beside.taken, beside.finished, beside.control]
    exact inside
  · rw [beside.current, beside.finished, beside.control]
    exact current
  · rw [beside.finished, beside.doneSeq]
    rcases host_words step intact with ⟨same, seq, _⟩ | ⟨quiet, more, seq⟩
    · rw [same, show (s.next e l).link.words .seq = s.link.words .seq from seq]
      exact posted
    -- Every job was done, so the new number is one ahead of `done_seq`.
    · have same := (quiet_same quiet).1
      rw [if_pos same] at posted
      rw [more, show (s.next e l).link.words .seq = s.link.words .seq + 1 from seq, ← same,
        if_neg (succ_apart _).symm, List.length_append, posted]
      rfl

theorem host_jobs {requiresStaging : Bool} (step : HostStep requiresStaging s.link e l) (k : Nat)
    (job : Job) (known : s.past.jobs[k]? = some job) :
    (s.next e l).past.jobs[k]? = some job := by
  cases step with
  | accept _ waits idle free => exact entry_kept _ _ _ _ known
  | _ => exact known

theorem Beside.passes {s' : Site} (beside : Beside s s') (k : Nat) :
    actsOf s'.past k = actsOf s.past k ∧ s'.account.storesOf k = s.account.storesOf k := by
  rw [actsOf, actsOf, Account.storesOf, Account.storesOf, beside.acts, beside.written]
  exact ⟨rfl, rfl⟩

theorem host_partway {requiresStaging : Bool} (step : HostStep requiresStaging s.link e l)
    (intact : Intact c s.link s.past) (rest : Core Unit)
    (serving : s.link.control = .serving rest) (partway : Partway c s rest) :
    Partway c (s.next e l) rest := by
  have beside := host_beside step intact
  obtain ⟨acts, stores⟩ := beside.passes s.past.current
  -- while a pass runs the host stores nothing
  have busy : ¬ Quiet s.link s.past := fun quiet =>
    (quiet_same quiet).2 (by rw [serving]; trivial)
  obtain ⟨d, active, cycles, known, agrees, confined, done, stored⟩ := partway
  rcases host_words step intact with ⟨same, _, words | quiet⟩ | ⟨quiet, _⟩
  · refine ⟨d, active, cycles, ?_, ?_, confined, ?_, ?_⟩
    · rw [same, beside.current]
      exact known
    · intro w descriptor
      rw [show (s.next e l).link.words = s.link.words from words]
      exact agrees w descriptor
    · rw [beside.current, acts]
      exact done
    · rw [beside.current, stores]
      exact stored
  · exact absurd quiet busy
  · exact absurd quiet busy

theorem stores_status (written : ∀ x ∈ s.account.written, x.1 ∈ s.account.taken ∧ statusWord x.2.1)
    (k : Nat) : ∀ x ∈ s.account.storesOf k, statusWord x.1 := by
  intro x member
  obtain ⟨one, inside, same⟩ := List.mem_filterMap.mp member
  by_cases mine : one.1 = k
  · rw [if_pos mine] at same
    cases same
    exact (written one inside).2
  · rw [if_neg mine] at same
    cases same

theorem answered_waited {r : Result} {rest : Collect} (here : s.link.host = .collecting rest)
    (l : Link) : (s.next (.result r) l).account.waited =
      s.account.waited ++ [(s.past.descriptors.length - 1, r)] := by
  simp [Site.next, Account.record, here]

theorem host_owed {requiresStaging : Bool} (step : HostStep requiresStaging s.link e l)
    (patient : e ≠ .giveUp) (owed : Owed s) : Owed (s.next e l) := by
  cases step with
  | refuse idle busy => exact owed
  | nothing idle free =>
      simpa [Owed, Site.next, Account.record, History.record, idle, free] using owed
  | accept job waits idle free =>
      simpa [Owed, Site.next, Account.record, History.record, idle, free] using owed
  | store job w v rest waits here =>
      simpa [Owed, Site.next, Account.record, History.record, here] using owed
  | publish job waits here =>
      simp only [Owed, here] at owed
      refine ⟨by simp [Site.next, History.record], fun x member => ?_⟩
      simpa [Site.next, History.record] using owed x member
  | ring waits here =>
      simp only [Owed, here] at owed
      cases waits
      · simpa [Owed, Site.next, Account.record, History.record] using owed
      · exact owed
  | wait idle busy =>
      simpa [Owed, Site.next, Account.record, History.record, idle, busy] using owed
  | begin here =>
      simp only [Owed, here] at owed
      exact ⟨rfl, owed⟩
  | poll left here running =>
      simpa [Owed, Site.next, Account.record, History.record, here] using owed
  | done left here same =>
      simpa [Owed, Site.next, Account.record, History.record, Unwaited, here] using owed
  | giveUp here => exact absurd rfl patient
  | gather w next here =>
      simpa [Owed, Site.next, Account.record, History.record, here] using owed
  | answer r here =>
      simp only [Owed, here] at owed
      obtain ⟨free, some, earlier⟩ := owed
      show if s.link.inFlight then Unwaited _ _ else
        ∀ x ∈ (s.next (.result r) _).account.waited, x.1 < s.past.descriptors.length
      rw [if_neg (by simp [free]), answered_waited here]
      intro x member
      rcases List.mem_append.mp member with old | new
      · exact Nat.lt_of_succ_lt (earlier x old)
      · rw [List.mem_singleton.mp new]
        exact Nat.sub_one_lt_of_lt some

theorem host_reading {requiresStaging : Bool} (step : HostStep requiresStaging s.link e l)
    (reading : ∀ rest, s.link.host = .collecting rest →
      rest.eval s.link.words = collect.eval s.link.words)
    (rest : Collect) (there : l.host = .collecting rest) :
    rest.eval l.words = collect.eval l.words := by
  cases step with
  | refuse idle busy => exact reading rest there
  | nothing idle free => exact reading rest there
  | accept job waits idle free => cases there
  | store job w v left waits here => cases there
  | publish job waits here => cases there
  | ring waits here => cases waits <;> cases there
  | wait idle busy => cases there
  | begin here => cases there
  | poll left here running => cases there
  -- Collecting begins here; each later load reads words that still stand.
  | done left here same =>
      cases there
      rfl
  | giveUp here => cases there
  | gather w next here =>
      cases there
      exact reading (.load w next) here
  | answer r here => cases there

theorem whole_stores {k : Nat} (executed : Executed c s.past s.account k) :
    ∃ error cycles staged nbCores, s.account.storesOf k =
      [(.error, error), (.cycles, cycles), (.staged, staged), (.nbCores, nbCores)] := by
  obtain ⟨job, d, active, cycles, _, _, _, stores⟩ := executed
  rw [serve_stores] at stores
  exact ⟨_, _, _, _, stores⟩

theorem collected (counted : Counted s) (quiet : Quiet s.link s.past) (shown : Shown s)
    (executed : ∀ k ∈ s.past.finished, Executed c s.past s.account k)
    (nonempty : 0 < s.past.descriptors.length) :
    s.past.descriptors.length - 1 ∈ s.past.finished ∧
      s.account.storesOf (s.past.descriptors.length - 1) =
        statusOf (collect.eval s.link.words) := by
  have member : s.past.descriptors.length - 1 ∈ s.past.finished :=
    quiet.2.2.2 _ (Nat.sub_one_lt_of_lt nonempty)
  -- With every job done the last pass was for the last posted job.
  have last : s.account.taken.length = s.past.descriptors.length := by
    obtain ⟨same, outside⟩ := quiet_same quiet
    rw [counted.inside, counted.posted, if_neg outside, if_pos same]
  obtain ⟨error, cycles, staged, nbCores, stores⟩ := whole_stores (executed _ member)
  rw [Shown, last, stores] at shown
  simp only [List.forall_mem_cons] at shown
  obtain ⟨atError, atCycles, atStaged, atNbCores, _⟩ := shown
  refine ⟨member, ?_⟩
  have words : statusOf (collect.eval s.link.words) =
      [(.error, s.link.words .error), (.cycles, s.link.words .cycles),
        (.staged, s.link.words .staged), (.nbCores, s.link.words .nbCores)] := by
    by_cases trap : s.link.words .trapCause = 0 <;> simp [collect, statusOf, Thread.eval, trap]
  rw [stores, words, atError, atCycles, atStaged, atNbCores]

theorem host_waited {requiresStaging : Bool} (step : HostStep requiresStaging s.link e l)
    (accounted : Accounted c s) :
    let s' := s.next e l
    (∀ k r, (k, r) ∈ s'.account.waited →
      k ∈ s'.past.finished ∧ s'.account.storesOf k = statusOf r) ∧
    (s'.account.waited.map Prod.fst).Pairwise (· < ·) ∧
    s'.link.busyCycles = (s'.account.waited.map fun x => x.2.cycles).sum := by
  have beside := host_beside step accounted.intact
  have old : ∀ k r, (k, r) ∈ s.account.waited → k ∈ (s.next e l).past.finished ∧
      (s.next e l).account.storesOf k = statusOf r := by
    intro k r member
    rw [beside.finished, (beside.passes k).2]
    exact accounted.waited k r member
  cases step with
  | answer r here =>
      have owed := accounted.owed
      have host := accounted.intact.host
      simp only [Owed, here] at owed
      simp only [HostOk, here] at host
      obtain ⟨_, some, earlier⟩ := owed
      obtain ⟨member, stores⟩ :=
        collected accounted.counted host.2 accounted.shown accounted.executed some
      rw [← accounted.reading (.ret r) here] at stores
      refine ⟨?_, ?_, ?_⟩
      · intro k result waited
        rw [answered_waited here] at waited
        rcases List.mem_append.mp waited with before | now
        · exact old k result before
        · cases List.mem_singleton.mp now
          rw [beside.finished, (beside.passes _).2]
          exact ⟨member, stores⟩
      · rw [answered_waited here, List.map_append]
        refine List.pairwise_append.mpr ⟨accounted.each, List.pairwise_singleton _ _, ?_⟩
        intro k before last only
        obtain ⟨x, waited, rfl⟩ := List.mem_map.mp before
        rw [List.mem_singleton.mp only]
        exact Nat.lt_sub_of_add_lt (earlier x waited)
      · rw [answered_waited here, List.map_append, List.sum_append, ← accounted.busy]
        simp [Site.next]
  | nothing idle free =>
      simp only [Site.next, Account.record, idle] at old ⊢
      exact ⟨old, accounted.each, accounted.busy⟩
  | _ => exact ⟨old, accounted.each, accounted.busy⟩

theorem host_patient {requiresStaging : Bool} (step : HostStep requiresStaging s.link e l)
    (patient : e ≠ .giveUp) (came : s.past.gaveUp = false) :
    (s.next e l).past.gaveUp = false := by
  cases step with
  | giveUp here => exact absurd rfl patient
  | done left here same => rfl
  | _ => exact came

theorem host_accounted (step : HostStep c.requiresStaging s.link e l) (patient : e ≠ .giveUp)
    (accounted : Accounted c s) : Accounted c (s.next e l) := by
  have intact := accounted.intact
  have beside := host_beside step intact
  have settled : Settled s.link s.past e := by
    cases e <;> first | trivial | exact fun gave => by simp [accounted.patient] at gave
  obtain ⟨waited, each, busy⟩ := host_waited step accounted
  refine {
    intact := host_keeps step settled intact
    patient := host_patient step patient accounted.patient
    rung := WakeUp.host_rung step accounted.rung
    counted := host_counted step intact accounted.counted
    acts := ?_
    written := ?_
    partway := ?_
    executed := ?_
    shown := ?_
    reading := host_reading step accounted.reading
    owed := host_owed step patient accounted.owed
    waited := waited
    each := each
    busy := busy }
  · rw [beside.acts, beside.taken]
    exact accounted.acts
  · rw [beside.written, beside.taken]
    exact accounted.written
  · intro rest serving
    rw [beside.control] at serving
    exact host_partway step intact rest serving (accounted.partway rest serving)
  · intro k member
    rw [beside.finished] at member
    obtain ⟨job, d, active, cycles, known, agrees, acts, stores⟩ := accounted.executed k member
    obtain ⟨sameActs, sameStores⟩ := beside.passes k
    exact ⟨job, d, active, cycles, host_jobs step k job known, agrees, sameActs.trans acts,
      sameStores.trans stores⟩
  · intro x member
    rw [beside.taken, (beside.passes _).2] at member
    exact (beside.status _ (stores_status accounted.written _ x member)).trans
      (accounted.shown x member)

/-! ### Steps of the control core -/

theorem taking_pending (intact : Intact c s.link s.past) (here : s.link.control = .taking) :
    Pending s.link s.past := by
  rcases intact.phase with quiet | pending | busy
  · simp [Quiet, AtRest, here] at quiet
  · exact pending
  · obtain ⟨_, _, _, _, _, _, _, passing⟩ := busy
    simp [Passing, here] at passing

theorem inside_busy (intact : Intact c s.link s.past) (inside : Inside s.link.control) :
    Busy c s.link s.past := by
  rcases intact.phase with quiet | pending | busy
  · exact absurd inside (quiet_same quiet).2
  · obtain ⟨_, _, resting, _⟩ := pending
    cases here : s.link.control <;> simp [AtRest, Inside, here] at resting inside
  · exact busy

theorem acts_append (h : History) (j k : Nat) (a : Act) :
    actsOf { h with acts := h.acts ++ [(j, a)] } k =
      actsOf h k ++ if j = k then [a] else [] := by
  by_cases mine : j = k <;> simp [actsOf, List.filterMap_append, mine]

theorem stores_append (account : Account) (j k : Nat) (w : Word) (v : UInt32) :
    { account with written := account.written ++ [(j, w, v)] }.storesOf k =
      account.storesOf k ++ if j = k then [(w, v)] else [] := by
  by_cases mine : j = k <;> simp [Account.storesOf, List.filterMap_append, mine]

theorem untouched (accounted : Accounted c s) {k : Nat} (fresh : k ∉ s.account.taken) :
    actsOf s.past k = [] ∧ s.account.storesOf k = [] := by
  constructor
  · refine List.filterMap_eq_nil_iff.mpr fun x member => if_neg ?_
    rintro rfl
    exact fresh (accounted.acts x member)
  · refine List.filterMap_eq_nil_iff.mpr fun x member => if_neg ?_
    rintro rfl
    exact fresh (accounted.written x member).1

theorem store_status (accounted : Accounted c s) {w : Word} {v : UInt32} {next : Core Unit}
    (here : s.link.control = .serving (.store w v next)) : statusWord w := by
  obtain ⟨_, _, _, _, _, confined, _⟩ := accounted.partway _ here
  exact confined.1

theorem status_apart (w : Word) (status : statusWord w) :
    w ≠ .seq ∧ w ≠ .doneSeq ∧ w ≠ .trapCause ∧ ¬ descriptorWord w := by
  cases w <;> first | exact False.elim status | simp [descriptorWord]

theorem taking_next (accounted : Accounted c s) (here : s.link.control = .taking) :
    s.link.words .seq ≠ s.link.words .doneSeq ∧
      s.account.taken.length = s.past.finished.length ∧
      s.past.descriptors.length = s.past.finished.length + 1 := by
  obtain ⟨seq, doneSeq, _⟩ := taking_pending accounted.intact here
  obtain ⟨_, _, inside, _, posted⟩ := accounted.counted
  have behind : s.link.words .seq ≠ s.link.words .doneSeq := by
    rw [seq, doneSeq]
    exact (succ_apart _).symm
  simp only [here, Inside, if_false] at inside
  rw [if_neg behind] at posted
  exact ⟨behind, inside, posted⟩

theorem core_counted (step : CoreStep c s.link e l) (accounted : Accounted c s) :
    Counted (s.next e l) := by
  have intact := accounted.intact
  obtain ⟨taken, finished, inside, current, posted⟩ := accounted.counted
  cases step with
  | sleep here same =>
      simp only [here, Inside] at inside
      exact ⟨taken, finished, inside, nofun, posted⟩
  | notice here fresh =>
      simp only [here, Inside] at inside
      exact ⟨taken, finished, inside, nofun, posted⟩
  | wake here rung =>
      simp only [here, Inside] at inside
      exact ⟨taken, finished, inside, nofun, posted⟩
  | clear here =>
      simp only [here, Inside] at inside
      exact ⟨taken, finished, inside, nofun, posted⟩
  | take active cycles here =>
      obtain ⟨behind, before, last⟩ := taking_next accounted here
      rw [if_neg behind] at posted
      have number : s.past.descriptors.length - 1 = s.account.taken.length := by omega
      refine ⟨?_, finished, ?_, fun _ => ?_, ?_⟩
      · show s.account.taken ++ [s.past.descriptors.length - 1] =
          List.range (s.account.taken ++ [_]).length
        rw [List.length_append, List.length_singleton, List.range_succ, number, ← taken]
      · show (s.account.taken ++ [_]).length = s.past.finished.length + 1
        rw [List.length_append, before]
        rfl
      · show s.past.descriptors.length - 1 = s.past.finished.length
        omega
      · exact posted.trans (congrArg _ (if_neg behind).symm)
  | load w next here =>
      simp only [here, Inside] at inside current
      exact ⟨taken, finished, inside, current, posted⟩
  | store w v next here =>
      obtain ⟨seq, doneSeq, _⟩ := status_apart w (store_status accounted here)
      simp only [here, Inside] at inside current
      refine ⟨taken, finished, inside, current, posted.trans ?_⟩
      show _ = s.past.finished.length + if setWord s.link.words w v .seq =
        setWord s.link.words w v .doneSeq then 0 else 1
      rw [setWord_other _ _ _ _ seq.symm, setWord_other _ _ _ _ doneSeq.symm]
  | act a next here =>
      simp only [here, Inside] at inside current
      exact ⟨taken, finished, inside, current, posted⟩
  | finish here =>
      have busy := inside_busy intact (by rw [here]; trivial)
      simp only [here, Inside, if_true] at inside current
      have behind : s.link.words .seq ≠ s.link.words .doneSeq := by
        rw [busy.1, ← busy.2.1]
        exact (succ_apart _).symm
      rw [if_neg behind] at posted
      refine ⟨taken, ?_, ?_, nofun, ?_⟩
      · show s.past.finished ++ [s.past.current] = List.range (s.past.finished ++ [_]).length
        rw [List.length_append, List.length_singleton, List.range_succ, current trivial,
          ← finished]
      · show s.account.taken.length = (s.past.finished ++ [_]).length + 0
        rw [List.length_append, inside]
        rfl
      · show s.past.descriptors.length = (s.past.finished ++ [_]).length +
          if setWord s.link.words .doneSeq s.link.served .seq =
            setWord s.link.words .doneSeq s.link.served .doneSeq then 0 else 1
        rw [setWord_same, setWord_other _ _ _ _ (by simp), if_pos busy.1, posted,
          List.length_append]
        rfl
  | trap rest cause here =>
      simp only [here, Inside] at inside current
      refine ⟨taken, finished, inside, current, posted.trans ?_⟩
      show _ = s.past.finished.length + if setWord s.link.words .trapCause cause .seq =
        setWord s.link.words .trapCause cause .doneSeq then 0 else 1
      rw [setWord_other _ _ _ _ (by simp), setWord_other _ _ _ _ (by simp)]

theorem current_taken (counted : Counted s) (inside : Inside s.link.control) :
    s.past.current ∈ s.account.taken ∧ s.past.current ∉ s.past.finished ∧
      s.account.taken.length - 1 = s.past.current := by
  have one := counted.inside
  rw [if_pos inside] at one
  rw [counted.taken, counted.finished, counted.current inside, one, List.mem_range, List.mem_range]
  exact ⟨Nat.lt_succ_self _, Nat.lt_irrefl _, by rw [List.length_range, Nat.add_sub_cancel]⟩

theorem core_partway (step : CoreStep c s.link e l) (accounted : Accounted c s)
    (rest : Core Unit) (serving : l.control = .serving rest) :
    Partway c (s.next e l) rest := by
  cases step with
  | sleep here same => cases serving
  | notice here fresh => cases serving
  | wake here rung => cases serving
  | clear here => cases serving
  | take active cycles here =>
      cases serving
      obtain ⟨_, _, _, ⟨d, last, agrees⟩, _⟩ := taking_pending accounted.intact here
      obtain ⟨_, before, posted⟩ := taking_next accounted here
      -- the pass has not begun: the job's number is past those taken
      have fresh : s.past.descriptors.length - 1 ∉ s.account.taken := by
        rw [accounted.counted.taken, List.mem_range]
        omega
      obtain ⟨acts, stores⟩ := untouched accounted fresh
      rw [List.getLast?_eq_getElem?] at last
      exact ⟨d, active, cycles, last, agrees, serve_confined c active cycles,
        congrArg (· ++ _) acts, congrArg (· ++ _) stores⟩
  | load w next here =>
      cases serving
      obtain ⟨d, active, cycles, known, agrees, confined, acts, stores⟩ :=
        accounted.partway _ here
      obtain ⟨descriptor, later⟩ := confined
      rw [agrees w descriptor]
      exact ⟨d, active, cycles, known, agrees, later _, acts, stores⟩
  | store w v next here =>
      cases serving
      obtain ⟨d, active, cycles, known, agrees, ⟨status, later⟩, acts, stores⟩ :=
        accounted.partway _ here
      refine ⟨d, active, cycles, known, ?_, later, acts, ?_⟩
      · intro other descriptor
        refine (setWord_other _ _ _ _ ?_).trans (agrees other descriptor)
        rintro rfl
        exact (status_apart _ status).2.2.2 descriptor
      · show Account.storesOf { s.account with written := _ ++ [(s.past.current, w, v)] }
          s.past.current ++ _ = _
        rw [stores_append, if_pos rfl, List.append_assoc]
        exact stores
  | act a next here =>
      cases serving
      obtain ⟨d, active, cycles, known, agrees, confined, acts, stores⟩ :=
        accounted.partway _ here
      refine ⟨d, active, cycles, known, agrees, confined, ?_, stores⟩
      show actsOf { s.past with acts := _ ++ [(s.past.current, a)] } s.past.current ++ _ = _
      rw [acts_append, if_pos rfl, List.append_assoc]
      exact acts
  | finish here => cases serving
  | trap rest cause here => cases serving

theorem core_passes (step : CoreStep c s.link e l) {k : Nat}
    (other : Inside s.link.control → k ≠ s.past.current) :
    actsOf (s.next e l).past k = actsOf s.past k ∧
      (s.next e l).account.storesOf k = s.account.storesOf k := by
  cases step with
  | act a next here =>
      refine ⟨?_, rfl⟩
      show actsOf { s.past with acts := _ ++ [(s.past.current, a)] } k = _
      rw [acts_append, if_neg (other (by rw [here]; trivial)).symm, List.append_nil]
  | store w v next here =>
      refine ⟨rfl, ?_⟩
      show Account.storesOf { s.account with written := _ ++ [(s.past.current, w, v)] } k = _
      rw [stores_append, if_neg (other (by rw [here]; trivial)).symm, List.append_nil]
  | _ => exact ⟨rfl, rfl⟩

theorem core_executed (step : CoreStep c s.link e l) (accounted : Accounted c s) (k : Nat)
    (member : k ∈ (s.next e l).past.finished) :
    Executed c (s.next e l).past (s.next e l).account k := by
  have jobs : (s.next e l).past.jobs = s.past.jobs := (core_leaves (h := s.past) step).2.2.2.1
  have old : k ∈ s.past.finished → Executed c (s.next e l).past (s.next e l).account k := by
    intro earlier
    obtain ⟨job, d, active, cycles, known, agrees, acts, stores⟩ := accounted.executed k earlier
    obtain ⟨sameActs, sameStores⟩ := core_passes (k := k) step fun inside same =>
      (current_taken accounted.counted inside).2.1 (same ▸ earlier)
    exact ⟨job, d, active, cycles, by rw [jobs]; exact known, agrees, sameActs.trans acts,
      sameStores.trans stores⟩
  cases step with
  | finish here =>
      rcases List.mem_append.mp member with earlier | now
      · exact old earlier
      · rw [List.mem_singleton.mp now]
        obtain ⟨d, active, cycles, known, _, _, acts, stores⟩ := accounted.partway _ here
        obtain ⟨job, posted, agrees⟩ := accounted.intact.ledger.posted _ d known
        rw [Thread.acts_ret, List.append_nil] at acts
        rw [Thread.stores_ret, List.append_nil] at stores
        exact ⟨job, d, active, cycles, posted, agrees, acts, stores⟩
  | _ => exact old member

theorem core_shown (step : CoreStep c s.link e l) (accounted : Accounted c s) :
    Shown (s.next e l) := by
  have shown := accounted.shown
  have counted := accounted.counted
  cases step with
  | take active cycles here =>
      obtain ⟨seq, doneSeq, _⟩ := taking_pending accounted.intact here
      have fresh : s.account.taken.length ∉ s.account.taken := by
        rw [counted.taken, List.length_range, List.mem_range]
        exact Nat.lt_irrefl _
      intro x member
      have nothing := (untouched accounted fresh).2
      have length : (s.account.taken ++ [s.past.descriptors.length - 1]).length - 1 =
          s.account.taken.length := by simp
      have member : x ∈ s.account.storesOf
        ((s.account.taken ++ [s.past.descriptors.length - 1]).length - 1) := member
      rw [length, nothing] at member
      simp at member
  | store w v next here =>
      have inside : Inside s.link.control := by rw [here]; trivial
      obtain ⟨_, _, last⟩ := current_taken counted inside
      obtain ⟨d, active, cycles, _, _, _, _, stores⟩ := accounted.partway _ here
      -- a pass stores each status word once
      have once : ((serve c active cycles).stores d |>.map Prod.fst).Nodup := by
        rw [serve_stores]
        exact (by decide : [Word.error, Word.cycles, Word.staged, Word.nbCores].Nodup)
      rw [← stores, List.map_append] at once
      intro x member
      have member : x ∈ Account.storesOf
        { s.account with written := s.account.written ++ [(s.past.current, w, v)] }
        (s.account.taken.length - 1) := member
      rw [stores_append, last, if_pos rfl] at member
      show setWord s.link.words w v x.1 = x.2
      rcases List.mem_append.mp member with old | new
      · rw [setWord_other]
        · exact shown x (last ▸ old)
        · intro same
          refine (List.nodup_append.mp once).2.2 x.1 (List.mem_map_of_mem old) w ?_ same
          exact List.mem_cons_self
      · rw [List.mem_singleton.mp new]
        exact setWord_same _ _ _
  | finish here =>
      intro x member
      refine (setWord_other _ _ _ _ ?_).trans (shown x member)
      exact (status_apart _ (stores_status accounted.written _ x member)).2.1
  | trap rest cause here =>
      intro x member
      refine (setWord_other _ _ _ _ ?_).trans (shown x member)
      exact (status_apart _ (stores_status accounted.written _ x member)).2.2.1
  | _ => exact shown

theorem core_account (step : CoreStep c s.link e l) :
    (s.next e l).account.waited = s.account.waited ∧ l.busyCycles = s.link.busyCycles ∧
      (∀ k ∈ s.past.finished, k ∈ (s.next e l).past.finished) := by
  cases step with
  | finish here => exact ⟨rfl, rfl, fun k member => List.mem_append_left _ member⟩
  | _ => exact ⟨rfl, rfl, fun _ member => member⟩

theorem core_acts (step : CoreStep c s.link e l) (accounted : Accounted c s) :
    (∀ x ∈ (s.next e l).past.acts, x.1 ∈ (s.next e l).account.taken) ∧
      ∀ x ∈ (s.next e l).account.written,
        x.1 ∈ (s.next e l).account.taken ∧ statusWord x.2.1 := by
  have acts := accounted.acts
  have written := accounted.written
  cases step with
  | take active cycles here =>
      exact ⟨fun x member => List.mem_append_left _ (acts x member),
        fun x member => ⟨List.mem_append_left _ (written x member).1, (written x member).2⟩⟩
  | act a next here =>
      refine ⟨fun x member => ?_, written⟩
      rcases List.mem_append.mp member with old | new
      · exact acts x old
      · rw [List.mem_singleton.mp new]
        exact (current_taken accounted.counted (by rw [here]; trivial)).1
  | store w v next here =>
      refine ⟨acts, fun x member => ?_⟩
      rcases List.mem_append.mp member with old | new
      · exact written x old
      · rw [List.mem_singleton.mp new]
        exact ⟨(current_taken accounted.counted (by rw [here]; trivial)).1,
          store_status accounted here⟩
  | _ => exact ⟨acts, written⟩

theorem core_accounted (step : CoreStep c s.link e l) (accounted : Accounted c s) :
    Accounted c (s.next e l) := by
  have intact := accounted.intact
  obtain ⟨host, inFlight, _, _, descriptors, gaveUp⟩ := core_leaves (h := s.past) step
  obtain ⟨waited, busyCycles, finished⟩ := core_account step
  obtain ⟨acts, written⟩ := core_acts step accounted
  refine {
    intact := core_keeps step intact
    patient := gaveUp.trans accounted.patient
    rung := WakeUp.core_rung step accounted.rung
    counted := core_counted step accounted
    acts := acts
    written := written
    partway := core_partway step accounted
    executed := core_executed step accounted
    shown := core_shown step accounted
    reading := ?_
    owed := ?_
    waited := ?_
    each := by rw [waited]; exact accounted.each
    busy := by rw [waited]; exact busyCycles.trans accounted.busy }
  -- While the host collects the core is at rest and stores nothing.
  · intro rest collecting
    have there : s.link.host = .collecting rest := host.symm.trans collecting
    have host := intact.host
    simp only [HostOk, there] at host
    rw [show (s.next e l).link.words = s.link.words from (core_quiet step host.2).2.1]
    exact accounted.reading rest there
  · have owed := accounted.owed
    have sameDescriptors : (s.next e l).past.descriptors = s.past.descriptors := descriptors
    simp only [Owed, Unwaited, waited, sameDescriptors] at owed ⊢
    rw [show (s.next e l).link.host = s.link.host from host,
      show (s.next e l).link.inFlight = s.link.inFlight from inFlight]
    exact owed
  · intro k r member
    rw [waited] at member
    obtain ⟨done, stores⟩ := accounted.waited k r member
    obtain ⟨_, same⟩ := core_passes (k := k) step fun inside mine =>
      (current_taken accounted.counted inside).2.1 (mine ▸ done)
    exact ⟨finished k done, same.trans stores⟩

theorem stir_accounted (here : s.link.control = .asleep) (accounted : Accounted c s) :
    Accounted c (s.next .wake { s.link with control := .waking }) := by
  obtain ⟨intact, patient, rung, counted, acts, written, _, executed, shown, reading, owed, waited,
    each, busy⟩ := accounted
  have quiet : Quiet s.link s.past → Quiet { s.link with control := .waking } s.past := by
    rintro ⟨seq, doneSeq, _, done⟩
    exact ⟨seq, doneSeq, trivial, done⟩
  have phase : Quiet { s.link with control := .waking } s.past ∨
      Pending { s.link with control := .waking } s.past ∨
      Busy c { s.link with control := .waking } s.past := by
    rcases intact.phase with still | pending | inside
    · exact Or.inl (quiet still)
    · obtain ⟨seq, doneSeq, _, held, earlier⟩ := pending
      exact Or.inr (Or.inl ⟨seq, doneSeq, Or.inl trivial, held, earlier⟩)
    · obtain ⟨_, _, _, _, _, _, _, passing⟩ := inside
      simp [Passing, here] at passing
  have host : HostOk { s.link with control := .waking } s.past := by
    have host := intact.host
    simp only [HostOk] at host ⊢
    cases doing : s.link.host with
    | idle =>
        simp only [doing] at host ⊢
        exact ⟨host.1, fun free came => quiet (host.2 free came)⟩
    | posting job rest waits =>
        simp only [doing] at host ⊢
        exact ⟨quiet host.1, host.2⟩
    | collecting rest =>
        simp only [doing] at host ⊢
        exact ⟨host.1, quiet host.2⟩
    | ringing waits => simpa only [doing] using host
    | waiting => simpa only [doing] using host
    | polling left => simpa only [doing] using host
  obtain ⟨taken, finished, inside, _, posted⟩ := counted
  simp only [here, Inside] at inside
  have awake : ¬ Inside Control.waking := id
  have up : Control.waking ≠ .asleep := by simp
  have idle : ∀ core, Control.waking ≠ .serving core := by simp
  exact ⟨⟨intact.number, phase, host, intact.ledger⟩, patient,
    ⟨rung.ahead, fun still => absurd still up⟩,
    ⟨taken, finished, inside, fun within => absurd within awake, posted⟩, acts, written,
    fun core serving => absurd serving (idle core), executed, shown, reading, owed, waited, each,
    busy⟩

theorem started_accounted (started : Started l) (nothing : l.busyCycles = 0) :
    Accounted c { link := l } where
  intact := reachable_intact (.start l started)
  patient := rfl
  rung := WakeUp.started_rung started
  counted := by
    refine ⟨rfl, rfl, ?_, ?_, ?_⟩ <;>
      simp [started.control, started.seq, started.doneSeq, Inside]
  acts := by simp
  written := by simp
  partway rest serving := by simp [started.control] at serving
  executed := by simp
  shown := by
    intro x member
    simp [Account.storesOf] at member
  reading rest collecting := by simp [started.host] at collecting
  owed := by simp [Owed, started.host, started.inFlight]
  waited := by simp
  each := by simp
  busy := nothing

theorem jobs_posted (accounted : Accounted c s) :
    s.account.taken.length ≤ s.past.jobs.length ∧
      s.past.jobs.length ≤ s.past.finished.length + 1 := by
  obtain ⟨_, _, inside, _, posted⟩ := accounted.counted
  have host := accounted.intact.host
  have published : s.account.taken.length ≤ s.past.descriptors.length := by
    by_cases serving : Inside s.link.control
    · obtain ⟨seq, doneSeq, _⟩ := inside_busy accounted.intact serving
      rw [if_pos serving] at inside
      rw [if_neg (by rw [seq, ← doneSeq]; exact (succ_apart _).symm)] at posted
      omega
    · rw [if_neg serving] at inside
      omega
  have bound : s.past.descriptors.length ≤ s.past.finished.length + 1 := by
    rw [posted]
    split <;> omega
  cases here : s.link.host with
  | posting job rest waits =>
      simp only [HostOk, here] at host
      obtain ⟨quiet, count, _⟩ := host
      rw [if_pos (quiet_same quiet).1] at posted
      omega
  | idle => simp only [HostOk, here] at host; omega
  | collecting rest => simp only [HostOk, here] at host; omega
  | ringing waits => simp only [HostOk, here] at host; omega
  | waiting => simp only [HostOk, here] at host; omega
  | polling left => simp only [HostOk, here] at host; omega

theorem accounted_once (accounted : Accounted c s) : Once c s := by
  obtain ⟨taken, finished, inside, _, posted⟩ := accounted.counted
  obtain ⟨few, near⟩ := jobs_posted accounted
  refine {
    taken := taken
    finished := finished
    begun := ?_
    accepted := ⟨?_, few, near⟩
    executed := accounted.executed
    waited := accounted.waited
    busy := accounted.busy
    each := accounted.each
    settled := ?_ }
  · rw [inside]
    split <;> omega
  · rw [inside]
    exact Nat.le_add_right _ _
  · intro idle free
    have host := accounted.intact.host
    simp only [HostOk, idle] at host
    rw [if_pos (quiet_same (host.2 free accounted.patient)).1] at posted
    omega

end Sites

end HeteroSim.ExactlyOnce

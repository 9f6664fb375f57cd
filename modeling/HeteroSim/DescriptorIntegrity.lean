import HeteroSim.Mailbox

/-!
What the control core reads while it serves a job is what the host posted for
it, in every run that posts to a cluster only when its last wait came back or
the job that wait gave up on is done. Without that the next post overwrites the
descriptor of a running job.
-/

namespace HeteroSim.DescriptorIntegrity

open SharedWords ClusterJob Mailbox

def descriptorWord : Word → Prop
  | .kernelId | .nargs | .flags | .args _ => True
  | _ => False

def statusWord : Word → Prop
  | .cycles | .nbCores | .staged | .error => True
  | _ => False

theorem setWord_same (words : Word → UInt32) (w : Word) (v : UInt32) :
    setWord words w v w = v := by
  simp [setWord]

theorem setWord_other (words : Word → UInt32) (w : Word) (v : UInt32) (other : Word)
    (apart : other ≠ w) : setWord words w v other = words other := by
  simp [setWord, apart]

/-! ### A pass reads the descriptor and writes the status -/

section Within

abbrev Confined {α : Type} (p : Core α) : Prop := p.Within descriptorWord statusWord

theorem arg_confined (i : Nat) : Confined (arg i) :=
  ⟨trivial, fun _ => trivial⟩

theorem perform_confined (a : Act) : Confined (perform a) := trivial

theorem planOperands_confined (kernel : Option Kernel) : Confined (planOperands kernel) := by
  rcases kernel with _ | kernel
  · trivial
  · cases kernel <;>
      exact ⟨trivial, fun _ => by repeat' first | trivial | refine ⟨trivial, fun _ => ?_⟩⟩

theorem planScratch_confined (kernel : Option Kernel) : Confined (planScratch kernel) := by
  rcases kernel with _ | kernel
  · trivial
  · cases kernel
    case mfcc => exact ⟨trivial, fun _ => ⟨trivial, fun _ => trivial⟩⟩
    all_goals trivial

theorem reserveScratch_confined (c : Cluster) (kernel : Option Kernel) :
    Confined (reserveScratch c kernel) := by
  refine (planScratch_confined kernel).bind fun perCore => ?_
  by_cases nothing : perCore = 0
  · rw [if_pos nothing]
    trivial
  · rw [if_neg nothing]
    exact Thread.Within.ite trivial trivial

theorem copyArgs_confined (n : Nat) (active : Nat → UInt32) : Confined (copyArgs n active) := by
  induction n generalizing active with
  | zero => trivial
  | succ n ih => exact (arg_confined _).bind fun v => ih _

theorem copyOperands_confined (placed : List Placed) (active : Nat → UInt32) :
    Confined (copyOperands placed active) := by
  induction placed generalizing active with
  | nil => trivial
  | cons one rest ih =>
      refine Thread.Within.ite (ih _) ?_
      exact (arg_confined _).bind fun src => (perform_confined _).bind fun _ => ih _

theorem stageIn_confined (c : Cluster) (kernel : Option Kernel) (cursor : UInt32)
    (active : Nat → UInt32) : Confined (stageIn c kernel cursor active) := by
  refine (planOperands_confined kernel).bind fun ops => ?_
  split
  · trivial
  · exact (copyOperands_confined _ active).bind fun _ => trivial

theorem stage_confined (c : Cluster) (kernel : Option Kernel) (cursor : UInt32)
    (active : Nat → UInt32) : Confined (stage c kernel cursor active) := by
  refine Thread.Within.bind (p := read .flags) ⟨trivial, fun _ => trivial⟩ fun flags => ?_
  refine Thread.Within.ite ?_ trivial
  refine (stageIn_confined c kernel cursor active).bind fun staged => ?_
  rcases staged with _ | ⟨placed, args⟩
  · exact (copyArgs_confined _ active).bind fun _ => trivial
  · trivial

theorem stageOut_confined (placed : List Placed) : Confined (stageOut placed) := by
  induction placed with
  | nil => trivial
  | cons one rest ih =>
      refine Thread.Within.ite ?_ ih
      exact (arg_confined _).bind fun dst => (perform_confined _).bind fun _ => ih

theorem serve_confined (c : Cluster) (active : Nat → UInt32) (cycles : UInt32) :
    Confined (serve c active cycles) := by
  refine Thread.Within.bind (p := read .kernelId) ⟨trivial, fun _ => trivial⟩ fun id => ?_
  refine (copyArgs_confined _ active).bind fun args => ?_
  refine (reserveScratch_confined c _).bind fun scratch => ?_
  refine (planScratch_confined _).bind fun want => ?_
  refine (stage_confined c _ _ args).bind fun staged => ?_
  refine Thread.Within.bind (p := write .error _) ⟨trivial, trivial⟩ fun _ => ?_
  refine (perform_confined _).bind fun _ => (perform_confined _).bind fun _ => ?_
  refine (stageOut_confined _).bind fun _ => ?_
  exact ⟨trivial, trivial, trivial, trivial⟩

end Within

/-! ### The invariant -/

section Phases

def AtRest : Control → Prop
  | .looking | .asleep | .waking => True
  | _ => False

/-- The mailbox still holds the descriptor of the job posted last. -/
def Held (l : Link) (h : History) : Prop :=
  ∃ d, h.descriptors.getLast? = some d ∧ ∀ w, descriptorWord w → l.words w = d w

def Earlier (h : History) : Prop := ∀ k, k + 1 < h.descriptors.length → k ∈ h.finished

/-- The control core has only the rest of a pass over `d` before it. -/
def Passing (c : Cluster) (d : Word → UInt32) : Control → Prop
  | .serving rest => Confined rest ∧ ∃ active cycles,
      ∀ a ∈ rest.acts d, a ∈ (serve c active cycles).acts d
  | .parked => True
  | _ => False

/-- Every job is done. -/
def Quiet (l : Link) (h : History) : Prop :=
  l.words .seq = l.served ∧ l.words .doneSeq = l.served ∧ AtRest l.control ∧
    ∀ k < h.descriptors.length, k ∈ h.finished

def Pending (l : Link) (h : History) : Prop :=
  l.words .seq = l.served + 1 ∧ l.words .doneSeq = l.served ∧
    (AtRest l.control ∨ l.control = .taking) ∧ Held l h ∧ Earlier h

def Busy (c : Cluster) (l : Link) (h : History) : Prop :=
  l.words .seq = l.served ∧ l.words .doneSeq + 1 = l.served ∧
    h.current + 1 = h.descriptors.length ∧ Earlier h ∧
    ∃ d, h.descriptors.getLast? = some d ∧ (∀ w, descriptorWord w → l.words w = d w) ∧
      Passing c d l.control

def HostOk (l : Link) (h : History) : Prop :=
  match l.host with
  | .idle => h.jobs.length = h.descriptors.length ∧
      (l.inFlight = false → h.gaveUp = false → Quiet l h)
  | .posting job rest _ => Quiet l h ∧ h.jobs.length = h.descriptors.length + 1 ∧
      h.jobs[h.descriptors.length]? = some job ∧
      (∀ w v, job.posted w = some v → l.words w = v ∨ (w, v) ∈ rest) ∧
      ∀ w v, (w, v) ∈ rest → job.posted w = some v
  | .collecting _ => h.jobs.length = h.descriptors.length ∧ Quiet l h
  | _ => h.jobs.length = h.descriptors.length

/-- What was read and done for a job follows from its descriptor, which holds
what was posted. -/
structure Ledger (c : Cluster) (h : History) : Prop where
  posted : ∀ (k : Nat) (d : Word → UInt32), h.descriptors[k]? = some d →
    ∃ job, h.jobs[k]? = some job ∧ ∀ w v, job.posted w = some v → d w = v
  reads : ∀ (k : Nat) (w : Word) (v : UInt32), (k, w, v) ∈ h.reads →
    ∃ d, h.descriptors[k]? = some d ∧ d w = v
  acts : ∀ (k : Nat) (a : Act), (k, a) ∈ h.acts → ∃ d, h.descriptors[k]? = some d ∧
    ∃ active cycles, a ∈ (serve c active cycles).acts d

structure Intact (c : Cluster) (l : Link) (h : History) : Prop where
  number : l.nextSeq = l.words .seq
  phase : Quiet l h ∨ Pending l h ∨ Busy c l h
  host : HostOk l h
  ledger : Ledger c h

/-- An accepted post finds that the last wait came back, or else that the job it
gave up on has been published as done since. -/
def Settled (l : Link) (h : History) : Event → Prop
  | .accept _ => h.gaveUp = true → l.words .doneSeq = l.nextSeq
  | _ => True

variable {c : Cluster} {l : Link} {h : History}

theorem succ_apart (v : UInt32) : v ≠ v + 1 := by
  intro same
  simp at same

theorem quiet_of_done (intact : Intact c l h) (done : l.words .doneSeq = l.nextSeq) :
    Quiet l h := by
  have same : l.words .doneSeq = l.words .seq := done.trans intact.number
  rcases intact.phase with quiet | pending | busy
  · exact quiet
  · obtain ⟨seq, published, _⟩ := pending
    rw [seq, published] at same
    exact absurd same (succ_apart _)
  · obtain ⟨seq, published, _⟩ := busy
    rw [seq, ← published] at same
    exact absurd same (succ_apart _)

theorem posted_descriptor (job : Job) (w : Word) (v : UInt32) (posted : job.posted w = some v) :
    descriptorWord w := by
  cases w <;> trivial

theorem stores_posted (job : Job) (w : Word) (v : UInt32) :
    (w, v) ∈ job.stores ↔ job.posted w = some v := by
  constructor
  · intro member
    rcases List.mem_append.mp member with slot | field
    · obtain ⟨i, below, same⟩ := List.mem_map.mp slot
      cases same
      exact if_pos (List.mem_range.mp below)
    · simp only [List.mem_cons, Prod.mk.injEq, List.not_mem_nil, or_false] at field
      rcases field with ⟨rfl, rfl⟩ | ⟨rfl, rfl⟩ | ⟨rfl, rfl⟩ <;> rfl
  · intro posted
    cases w <;> simp only [Job.posted, Option.some.injEq, reduceCtorEq] at posted
    case args i =>
      by_cases below : i < job.slots
      · rw [if_pos below] at posted
        cases posted
        exact List.mem_append_left _ (List.mem_map.mpr ⟨i, List.mem_range.mpr below, rfl⟩)
      · rw [if_neg below] at posted
        cases posted
    all_goals
      subst posted
      exact List.mem_append_right _ (by simp)

theorem quiet_words (w : Word) (v : UInt32) (seq : w ≠ .seq) (doneSeq : w ≠ .doneSeq)
    (quiet : Quiet l h) : Quiet { l with words := setWord l.words w v } h := by
  obtain ⟨same, done, rest⟩ := quiet
  exact ⟨(setWord_other _ _ _ _ seq.symm).trans same,
    (setWord_other _ _ _ _ doneSeq.symm).trans done, rest⟩

theorem descriptor_apart (w : Word) (descriptor : descriptorWord w) :
    w ≠ .seq ∧ w ≠ .doneSeq ∧ w ≠ .trapCause ∧ ¬ statusWord w := by
  cases w <;> first | exact False.elim descriptor | simp [statusWord]

end Phases

/-! ### Steps -/

section Steps

variable {c : Cluster} {l l' : Link} {h : History} {e : Event}

theorem entry_kept {α : Type} (entries : List α) (one another : α) (k : Nat)
    (known : entries[k]? = some one) : (entries ++ [another])[k]? = some one := by
  rw [List.getElem?_append_left (List.getElem?_eq_some_iff.mp known).1]
  exact known

theorem Ledger.waited (ledger : Ledger c h) (gave : Bool) :
    Ledger c { h with gaveUp := gave } :=
  ⟨ledger.posted, ledger.reads, ledger.acts⟩

theorem Ledger.accepted (ledger : Ledger c h) (job : Job) :
    Ledger c { h with jobs := h.jobs ++ [job] } where
  posted k d known := by
    obtain ⟨earlier, posted, agrees⟩ := ledger.posted k d known
    exact ⟨earlier, entry_kept _ _ _ _ posted, agrees⟩
  reads := ledger.reads
  acts := ledger.acts

theorem Ledger.published (ledger : Ledger c h) (job : Job) (words : Word → UInt32)
    (last : h.jobs[h.descriptors.length]? = some job)
    (agrees : ∀ w v, job.posted w = some v → words w = v) :
    Ledger c { h with descriptors := h.descriptors ++ [words] } where
  posted k d known := by
    by_cases old : k < h.descriptors.length
    · exact ledger.posted k d (by rwa [List.getElem?_append_left old] at known)
    · have here : k = h.descriptors.length := by
        have := (List.getElem?_eq_some_iff.mp known).1
        simp only [List.length_append, List.length_singleton] at this
        omega
      subst here
      rw [List.getElem?_concat_length] at known
      cases known
      exact ⟨job, last, agrees⟩
  reads k w v read := by
    obtain ⟨d, known, same⟩ := ledger.reads k w v read
    exact ⟨d, entry_kept _ _ _ _ known, same⟩
  acts k a act := by
    obtain ⟨d, known, pass⟩ := ledger.acts k a act
    exact ⟨d, entry_kept _ _ _ _ known, pass⟩

theorem stored_placed {job : Job} {w : Word} {v : UInt32} {rest : List (Word × UInt32)}
    (posted : job.posted w = some v)
    (placed : ∀ other value, job.posted other = some value →
      l.words other = value ∨ (other, value) ∈ (w, v) :: rest) :
    ∀ other value, job.posted other = some value →
      setWord l.words w v other = value ∨ (other, value) ∈ rest := by
  intro other value wanted
  by_cases same : other = w
  · subst same
    rw [posted] at wanted
    cases wanted
    exact Or.inl (setWord_same _ _ _)
  · rcases placed other value wanted with there | member
    · exact Or.inl ((setWord_other _ _ _ _ same).trans there)
    · rcases List.mem_cons.mp member with head | member
      · cases head
        exact absurd rfl same
      · exact Or.inr member

theorem published_pending (quiet : Quiet l h) (number : l.nextSeq = l.words .seq)
    (host : Host) :
    Pending { l with words := setWord l.words .seq (l.nextSeq + 1), nextSeq := l.nextSeq + 1,
                     host := host } (h.record l .publish) := by
  obtain ⟨seq, doneSeq, resting, finished⟩ := quiet
  refine ⟨?_, ?_, Or.inl resting, ⟨l.words, by simp [History.record], ?_⟩, ?_⟩
  · show setWord l.words .seq (l.nextSeq + 1) .seq = l.served + 1
    rw [setWord_same, number, seq]
  · exact (setWord_other l.words .seq (l.nextSeq + 1) .doneSeq (by simp)).trans doneSeq
  · exact fun w descriptor => setWord_other _ _ _ _ (descriptor_apart w descriptor).1
  · intro k before
    exact finished k (by simpa [History.record] using before)

theorem host_keeps {requiresStaging : Bool} (taken : HostStep requiresStaging l e l')
    (settled : Settled l h e) (intact : Intact c l h) : Intact c l' (h.record l e) := by
  have host := intact.host
  cases taken with
  | refuse idle busy => exact intact
  | nothing idle free => exact intact
  | accept job waits idle free =>
      simp only [HostOk, idle] at host
      obtain ⟨count, resting⟩ := host
      have quiet : Quiet l h := by
        cases gave : h.gaveUp
        · exact resting free gave
        · exact quiet_of_done intact (settled gave)
      refine ⟨intact.number, Or.inl quiet, ?_, intact.ledger.accepted _⟩
      refine ⟨quiet, by simp [History.record, count], by simp [History.record, count], ?_, ?_⟩
      · exact fun w v posted => Or.inr ((stores_posted _ w v).mpr posted)
      · exact fun w v member => (stores_posted _ w v).mp member
  | store job w v rest waits here =>
      simp only [HostOk, here] at host
      obtain ⟨quiet, count, last, placed, left⟩ := host
      have posted := left w v List.mem_cons_self
      obtain ⟨seq, doneSeq, _⟩ := descriptor_apart w (posted_descriptor job w v posted)
      have still : Quiet { l with words := setWord l.words w v } h :=
        quiet_words w v seq doneSeq quiet
      refine ⟨?_, Or.inl still, ⟨still, count, last, stored_placed posted placed, ?_⟩,
        intact.ledger⟩
      · exact intact.number.trans (setWord_other _ _ _ _ seq.symm).symm
      · exact fun other value member => left other value (List.mem_cons_of_mem _ member)
  | publish job waits here =>
      simp only [HostOk, here] at host
      obtain ⟨quiet, count, last, placed, _⟩ := host
      have agrees : ∀ w v, job.posted w = some v → l.words w = v := fun w v wanted =>
        (placed w v wanted).resolve_right (List.not_mem_nil)
      refine ⟨(setWord_same l.words .seq (l.nextSeq + 1)).symm,
        Or.inr (Or.inl (published_pending quiet intact.number _)), ?_,
        intact.ledger.published job l.words last agrees⟩
      simpa [HostOk, History.record] using count
  | ring waits here =>
      simp only [HostOk, here] at host
      refine ⟨intact.number, intact.phase, ?_, intact.ledger⟩
      cases waits
      · exact ⟨host, fun free => by cases free⟩
      · exact host
  | wait idle busy =>
      simp only [HostOk, idle] at host
      exact ⟨intact.number, intact.phase, host.1, intact.ledger⟩
  | begin here =>
      simp only [HostOk, here] at host
      exact ⟨intact.number, intact.phase, host, intact.ledger⟩
  | poll left here running =>
      simp only [HostOk, here] at host
      exact ⟨intact.number, intact.phase, host, intact.ledger⟩
  | done left here same =>
      simp only [HostOk, here] at host
      have quiet : Quiet l h := quiet_of_done intact same
      exact ⟨intact.number, intact.phase, ⟨host, quiet⟩, intact.ledger.waited false⟩
  | giveUp here =>
      simp only [HostOk, here] at host
      exact ⟨intact.number, intact.phase, ⟨host, fun _ gave => by cases gave⟩,
        intact.ledger.waited true⟩
  | gather w next here =>
      simp only [HostOk, here] at host
      exact ⟨intact.number, intact.phase, host, intact.ledger⟩
  | answer r here =>
      simp only [HostOk, here] at host
      exact ⟨intact.number, intact.phase, ⟨host.1, fun _ _ => host.2⟩, intact.ledger⟩

theorem core_quiet (taken : CoreStep c l e l') (quiet : Quiet l h) :
    Quiet l' (h.record l e) ∧ l'.words = l.words ∧ h.record l e = h := by
  obtain ⟨seq, doneSeq, resting, finished⟩ := quiet
  cases taken with
  | sleep here same => exact ⟨⟨seq, doneSeq, trivial, finished⟩, rfl, rfl⟩
  | notice here fresh => exact absurd seq fresh
  | wake here rung => exact ⟨⟨seq, doneSeq, trivial, finished⟩, rfl, rfl⟩
  | clear here => exact ⟨⟨seq, doneSeq, trivial, finished⟩, rfl, rfl⟩
  | take active cycles here => simp [AtRest, here] at resting
  | load w next here => simp [AtRest, here] at resting
  | store w v next here => simp [AtRest, here] at resting
  | act a next here => simp [AtRest, here] at resting
  | finish here => simp [AtRest, here] at resting
  | trap rest cause here => simp [AtRest, here] at resting

theorem core_leaves (taken : CoreStep c l e l') :
    l'.host = l.host ∧ l'.inFlight = l.inFlight ∧ l'.nextSeq = l.nextSeq ∧
      (h.record l e).jobs = h.jobs ∧ (h.record l e).descriptors = h.descriptors ∧
      (h.record l e).gaveUp = h.gaveUp := by
  cases taken <;> exact ⟨rfl, rfl, rfl, rfl, rfl, rfl⟩

theorem core_host (taken : CoreStep c l e l') (host : HostOk l h) :
    HostOk l' (h.record l e) := by
  obtain ⟨sameHost, sameFlight, _, sameJobs, sameDescriptors, sameGave⟩ :=
    core_leaves (h := h) taken
  simp only [HostOk, sameHost, sameFlight, sameJobs, sameDescriptors, sameGave] at host ⊢
  cases here : l.host with
  | idle =>
      simp only [here] at host ⊢
      exact ⟨host.1, fun free gave => (core_quiet taken (host.2 free gave)).1⟩
  | posting job rest waits =>
      simp only [here] at host ⊢
      obtain ⟨quiet, count, last, placed, left⟩ := host
      obtain ⟨still, words, _⟩ := core_quiet taken quiet
      exact ⟨still, count, last, by rwa [words], left⟩
  | collecting rest =>
      simp only [here] at host ⊢
      exact ⟨host.1, (core_quiet taken host.2).1⟩
  | ringing waits => simpa only [here] using host
  | waiting => simpa only [here] using host
  | polling left => simpa only [here] using host

theorem Held.kept (held : Held l h) (words : Word → UInt32)
    (same : ∀ w, descriptorWord w → words w = l.words w) :
    ∃ d, h.descriptors.getLast? = some d ∧ ∀ w, descriptorWord w → words w = d w := by
  obtain ⟨d, last, agrees⟩ := held
  exact ⟨d, last, fun w descriptor => (same w descriptor).trans (agrees w descriptor)⟩

theorem current_descriptor (served : h.current + 1 = h.descriptors.length) (d : Word → UInt32)
    (last : h.descriptors.getLast? = some d) : h.descriptors[h.current]? = some d := by
  rw [List.getLast?_eq_getElem?] at last
  rwa [show h.current = h.descriptors.length - 1 by omega]

theorem core_busy (taken : CoreStep c l e l') (busy : Busy c l h) (ledger : Ledger c h) :
    (Quiet l' (h.record l e) ∨ Busy c l' (h.record l e)) ∧ Ledger c (h.record l e) ∧
      l'.words .seq = l.words .seq := by
  obtain ⟨seq, doneSeq, served, earlier, d, last, agrees, passing⟩ := busy
  have mine := current_descriptor served d last
  cases taken with
  | sleep here same => simp [Passing, here] at passing
  | notice here fresh => simp [Passing, here] at passing
  | wake here rung => simp [Passing, here] at passing
  | clear here => simp [Passing, here] at passing
  | take active cycles here => simp [Passing, here] at passing
  | load w next here =>
      simp only [Passing, here] at passing
      obtain ⟨⟨descriptor, confined⟩, active, cycles, ahead⟩ := passing
      have value : l.words w = d w := agrees w descriptor
      refine ⟨Or.inr ⟨seq, doneSeq, served, earlier, d, last, agrees, confined _, active,
        cycles, ?_⟩, ?_, rfl⟩
      · rw [value]
        exact ahead
      · refine ⟨ledger.posted, ?_, ledger.acts⟩
        intro k read v member
        rcases List.mem_append.mp member with old | new
        · exact ledger.reads k read v old
        · cases List.mem_singleton.mp new
          exact ⟨d, mine, value.symm⟩
  | store w v next here =>
      simp only [Passing, here] at passing
      obtain ⟨⟨status, confined⟩, active, cycles, ahead⟩ := passing
      have apart : ∀ other, ¬ statusWord other → setWord l.words w v other = l.words other :=
        fun other not => setWord_other _ _ _ _ (by rintro rfl; exact not status)
      have seqSame := apart .seq id
      refine ⟨Or.inr ⟨seqSame.trans seq, ?_, served, earlier, d, last, ?_, confined, active,
        cycles, ahead⟩, ledger, seqSame⟩
      · exact (congrArg (· + 1) (apart .doneSeq id)).trans doneSeq
      · exact fun other descriptor =>
          (apart other (descriptor_apart other descriptor).2.2.2).trans (agrees other descriptor)
  | act a next here =>
      simp only [Passing, here] at passing
      obtain ⟨confined, active, cycles, ahead⟩ := passing
      refine ⟨Or.inr ⟨seq, doneSeq, served, earlier, d, last, agrees, confined, active,
        cycles, fun other member => ahead other (List.mem_cons_of_mem _ member)⟩, ?_, rfl⟩
      refine ⟨ledger.posted, ledger.reads, ?_⟩
      intro k act member
      rcases List.mem_append.mp member with old | new
      · exact ledger.acts k act old
      · cases List.mem_singleton.mp new
        exact ⟨d, mine, active, cycles, ahead a List.mem_cons_self⟩
  | finish here =>
      refine ⟨Or.inl ⟨?_, setWord_same l.words .doneSeq l.served, trivial, ?_⟩,
        ⟨ledger.posted, ledger.reads, ledger.acts⟩,
        setWord_other l.words .doneSeq l.served .seq (by simp)⟩
      · exact (setWord_other l.words .doneSeq l.served .seq (by simp)).trans seq
      · intro k below
        by_cases before : k + 1 < h.descriptors.length
        · exact List.mem_append_left _ (earlier k before)
        · have same : k = h.current := by
            have bound : k < h.descriptors.length := below
            omega
          rw [same]
          exact List.mem_append_right _ List.mem_cons_self
  | trap rest cause here =>
      have apart : ∀ other, other ≠ .trapCause →
          setWord l.words .trapCause cause other = l.words other :=
        fun other not => setWord_other _ _ _ _ not
      refine ⟨Or.inr ⟨(apart .seq (by simp)).trans seq, ?_, served, earlier, d, last, ?_,
        trivial⟩, ledger, apart .seq (by simp)⟩
      · exact (congrArg (· + 1) (apart .doneSeq (by simp))).trans doneSeq
      · exact fun other descriptor =>
          (apart other (descriptor_apart other descriptor).2.2.1).trans (agrees other descriptor)

theorem core_pending (taken : CoreStep c l e l') (pending : Pending l h) (ledger : Ledger c h) :
    (Pending l' (h.record l e) ∨ Busy c l' (h.record l e)) ∧ Ledger c (h.record l e) ∧
      l'.words .seq = l.words .seq := by
  obtain ⟨seq, doneSeq, control, held, earlier⟩ := pending
  cases taken with
  | sleep here same => exact absurd (same.symm.trans seq) (succ_apart _)
  | notice here fresh =>
      exact ⟨Or.inl ⟨seq, doneSeq, Or.inr rfl, held, earlier⟩, ledger, rfl⟩
  | wake here rung =>
      exact ⟨Or.inl ⟨seq, doneSeq, Or.inl trivial, held, earlier⟩, ledger, rfl⟩
  | clear here =>
      exact ⟨Or.inl ⟨seq, doneSeq, Or.inl trivial, held, earlier⟩, ledger, rfl⟩
  | take active cycles here =>
      obtain ⟨d, last, agrees⟩ := held
      have nonempty : h.descriptors ≠ [] := by
        intro none
        rw [none] at last
        cases last
      refine ⟨Or.inr ⟨rfl, ?_, ?_, earlier, d, last, agrees, serve_confined c active cycles,
        active, cycles, fun a member => member⟩, ⟨ledger.posted, ledger.reads, ledger.acts⟩, rfl⟩
      · exact (congrArg (· + 1) doneSeq).trans seq.symm
      · exact Nat.sub_add_cancel (List.length_pos_iff.mpr nonempty)
  | load w next here => simp [AtRest, here] at control
  | store w v next here => simp [AtRest, here] at control
  | act a next here => simp [AtRest, here] at control
  | finish here => simp [AtRest, here] at control
  | trap rest cause here => simp [AtRest, here] at control

theorem core_keeps (taken : CoreStep c l e l') (intact : Intact c l h) :
    Intact c l' (h.record l e) := by
  have host := core_host taken intact.host
  have kept : (Quiet l' (h.record l e) ∨ Pending l' (h.record l e) ∨ Busy c l' (h.record l e)) ∧
      Ledger c (h.record l e) ∧ l'.words .seq = l.words .seq := by
    rcases intact.phase with quiet | pending | busy
    · obtain ⟨still, words, same⟩ := core_quiet taken quiet
      exact ⟨Or.inl still, by rw [same]; exact intact.ledger, congrFun words .seq⟩
    · obtain ⟨phase, rest⟩ := core_pending taken pending intact.ledger
      exact ⟨Or.inr phase, rest⟩
    · obtain ⟨phase, rest⟩ := core_busy taken busy intact.ledger
      exact ⟨phase.imp id Or.inr, rest⟩
  obtain ⟨phase, ledger, seq⟩ := kept
  refine ⟨?_, phase, host, ledger⟩
  rw [(core_leaves (h := h) taken).2.2.1, seq]
  exact intact.number

theorem reachable_intact (reached : Reachable c Settled l h) : Intact c l h := by
  induction reached with
  | start l started =>
      have served := started.served
      refine ⟨started.nextSeq.trans started.seq.symm, Or.inl ?_, ?_, ?_⟩
      · refine ⟨started.seq.trans served.symm, started.doneSeq.trans served.symm, ?_, ?_⟩
        · rw [started.control]
          trivial
        · intro k below
          simp at below
      · rw [HostOk, started.host]
        refine ⟨rfl, fun _ _ => ⟨started.seq.trans served.symm,
          started.doneSeq.trans served.symm, ?_, ?_⟩⟩
        · rw [started.control]
          trivial
        · intro k below
          simp at below
      · exact ⟨by simp, by simp, by simp⟩
  | step l l' h e before permitted taken ih =>
      rcases taken with host | core
      · exact host_keeps host permitted ih
      · exact core_keeps core ih

end Steps

/-! ### Descriptor integrity -/

theorem copied_out (c : Cluster) (active : Nat → UInt32) (cycles : UInt32) (d : Word → UInt32)
    (dst src bytes : UInt32)
    (member : Act.copyOut dst src bytes ∈ (serve c active cycles).acts d) :
    ∃ op ∈ jobOperands d, op.isOutput = true ∧ dst = d (.args op.arg) ∧ bytes = op.bytes := by
  rw [serve_acts] at member
  have copy : Act.copyOut dst src bytes ∈ copiesOut d ((placement c d).getD []) := by
    rcases List.mem_append.mp member with inward | later
    · obtain ⟨one, _, same⟩ := List.mem_map.mp inward
      cases same
    · simpa using later
  obtain ⟨one, inside, same⟩ := List.mem_map.mp copy
  obtain ⟨known, output⟩ := List.mem_filter.mp inside
  cases same
  have planned : one.op ∈ jobOperands d := by
    cases staged : placement c d with
    | none => simp [staged] at known
    | some placed =>
        rw [staged] at known
        have ops : placed.map Placed.op = jobOperands d :=
          place_operands _ _ _ _ (placement_place c d placed staged)
        rw [← ops]
        exact List.mem_map_of_mem known
  exact ⟨one.op, planned, output, rfl, rfl⟩

/-- In every run whose accepted posts are settled: each read of a posted word
returns what the host posted for that job, a post begins only when all earlier
jobs are done, and what is copied out for a job goes to its own output. -/
theorem descriptor_integrity (c : Cluster) (l : Link) (h : History)
    (reached : Reachable c Settled l h) :
    (∀ (k : Nat) (w : Word) (v : UInt32), (k, w, v) ∈ h.reads →
      ∃ job, h.jobs[k]? = some job ∧ ∀ value, job.posted w = some value → v = value) ∧
    (∀ job rest waits, l.host = .posting job rest waits →
      ∀ k < h.descriptors.length, k ∈ h.finished) ∧
    (∀ (k : Nat) (dst src bytes : UInt32), (k, Act.copyOut dst src bytes) ∈ h.acts →
      ∃ job d, h.jobs[k]? = some job ∧ (∀ w v, job.posted w = some v → d w = v) ∧
        ∃ op ∈ jobOperands d, op.isOutput = true ∧ dst = d (.args op.arg) ∧
          bytes = op.bytes) := by
  have intact := reachable_intact reached
  refine ⟨?_, ?_, ?_⟩
  · intro k w v member
    obtain ⟨d, known, value⟩ := intact.ledger.reads k w v member
    obtain ⟨job, mine, agrees⟩ := intact.ledger.posted k d known
    exact ⟨job, mine, fun posted wanted => value.symm.trans (agrees w posted wanted)⟩
  · intro job rest waits here
    have host := intact.host
    rw [HostOk, here] at host
    exact host.1.2.2.2
  · intro k dst src bytes member
    obtain ⟨d, known, active, cycles, inside⟩ := intact.ledger.acts k _ member
    obtain ⟨job, mine, agrees⟩ := intact.ledger.posted k d known
    exact ⟨job, d, mine, agrees, copied_out c active cycles d dst src bytes inside⟩

/-! ### Runs on two jobs -/

section Runs

variable {c : Cluster} {allowed : Link → History → Event → Prop}

theorem polls_out (l : Link) (h : History) (permitted : ∀ l, allowed l h .poll)
    (running : l.words .doneSeq ≠ l.nextSeq) (left : Nat)
    (reached : Reachable c allowed { l with host := .polling left } h) :
    Reachable c allowed { l with host := .polling 0 } h := by
  induction left with
  | zero => exact reached
  | succ left ih =>
      exact ih (reached.step _ _ _ _ (permitted _) (Or.inl (.poll _ left rfl running)))

theorem settled_step {l l' : Link} {h : History} {e : Event} (reached : Reachable c Settled l h)
    (taken : Step c l e l') (settled : Settled l h e) :
    Reachable c Settled l' (h.record l e) :=
  reached.step _ _ _ _ settled taken

theorem pass_over (rest : Core Unit) (l : Link) (h : History) (reached : Reachable c Settled l h)
    (here : l.control = .serving rest) :
    ∃ words reads acts finished, Reachable c Settled
        { l with words := setWord words .doneSeq l.served, control := .looking }
        { h with reads := h.reads ++ reads, acts := acts, finished := finished } := by
  induction rest generalizing l h with
  | ret done =>
      have ended := settled_step reached (Or.inr (.finish _ here)) trivial
      exact ⟨l.words, [], h.acts, _, by simpa [History.record] using ended⟩
  | load w next ih =>
      have read := settled_step reached (Or.inr (.load _ w next here)) trivial
      obtain ⟨words, reads, acts, finished, ended⟩ := ih _ _ _ read rfl
      exact ⟨words, (h.current, w, l.words w) :: reads, acts, finished,
        by simpa [History.record] using ended⟩
  | store w v next ih =>
      have stored := settled_step reached (Or.inr (.store _ w v next here)) trivial
      obtain ⟨words, reads, acts, finished, ended⟩ := ih _ _ stored rfl
      exact ⟨words, reads, acts, finished, ended⟩
  | act a next ih =>
      have acted := settled_step reached (Or.inr (.act _ a next here)) trivial
      obtain ⟨words, reads, acts, finished, ended⟩ := ih _ _ acted rfl
      exact ⟨words, reads, acts, finished, ended⟩

def plain : Cluster :=
  { heapStart := 0x10008000, heapEnd := 0x10020000, nbCompute := 8, requiresStaging := false }

/-- A MatMul job, only its first argument posted. -/
def oneArg (v : UInt32) : Job := { kernel := 2, args := fun _ => v, nargs := 1, flags := 0 }

def signedIn : Link :=
  { words := fun _ => 0, doorbell := false, nextSeq := 0, inFlight := false, busyCycles := 0,
    host := .idle, served := 0, control := .looking }

def firstWords : Word → UInt32 :=
  setWord (setWord (setWord (setWord signedIn.words (.args 0) 0x82000000) .kernelId 2) .nargs 1)
    .flags 0

def firstTaken (rest : Core Unit) : Link :=
  { signedIn with
    words := setWord firstWords .seq 1, doorbell := true, nextSeq := 1, inFlight := true,
    served := 1, control := .serving rest }

def firstHistory : History :=
  { jobs := [oneArg 0x82000000], descriptors := [firstWords], reads := [(0, .kernelId, 2)] }

theorem first_taken (permitted : ∀ (l : Link) (h : History) (e : Event),
    h.gaveUp = false → allowed l h e) :
    ∃ next, Reachable plain allowed (firstTaken (.load (.args 0) next)) firstHistory := by
  have started : Started signedIn := ⟨rfl, rfl, rfl, rfl, rfl, rfl, rfl, rfl⟩
  have start : Reachable plain allowed signedIn {} := .start _ started
  have accepted := start.step _ _ _ _ (permitted _ _ _ rfl)
    (Or.inl (.accept _ (oneArg 0x82000000) false rfl rfl))
  have stored := accepted.step _ _ _ _ (permitted _ _ _ rfl)
    (Or.inl (.store _ _ (.args 0) 0x82000000 _ _ rfl))
  have kernel := stored.step _ _ _ _ (permitted _ _ _ rfl)
    (Or.inl (.store _ _ .kernelId 2 _ _ rfl))
  have nargs := kernel.step _ _ _ _ (permitted _ _ _ rfl) (Or.inl (.store _ _ .nargs 1 _ _ rfl))
  have flags := nargs.step _ _ _ _ (permitted _ _ _ rfl) (Or.inl (.store _ _ .flags 0 _ _ rfl))
  have published := flags.step _ _ _ _ (permitted _ _ _ rfl) (Or.inl (.publish _ _ _ rfl))
  have rung := published.step _ _ _ _ (permitted _ _ _ rfl) (Or.inl (.ring _ _ rfl))
  have noticed := rung.step _ _ _ _ (permitted _ _ _ rfl) (Or.inr (.notice _ rfl (by decide)))
  have taken := noticed.step _ _ _ _ (permitted _ _ _ rfl)
    (Or.inr (.take _ (fun _ => 0) 0 rfl))
  have read := taken.step _ _ _ _ (permitted _ _ _ rfl) (Or.inr (.load _ .kernelId _ rfl))
  exact ⟨_, read⟩

end Runs

/-- A wait gives up, its job is published as done after all, and the next job is
posted and read. -/
theorem descriptor_integrity_first : ∃ l h, Reachable plain Settled l h ∧ h.gaveUp = true ∧
    h.jobs = [oneArg 0x82000000, oneArg 0x83000000] ∧
    (0, Word.args 0, 0x82000000) ∈ h.reads ∧ (1, Word.args 0, 0x83000000) ∈ h.reads ∧
    ∃ job, h.jobs[1]? = some job ∧
      ∀ value, job.posted (.args 0) = some value → 0x83000000 = value := by
  obtain ⟨next, taken⟩ := @first_taken Settled fun l h e came => by
    cases e <;> first | trivial | exact fun gave => by simp [came] at gave
  have waiting := settled_step taken (Or.inl (.wait _ rfl rfl)) trivial
  have polling := settled_step waiting (Or.inl (.begin _ rfl)) trivial
  have out := polls_out { firstTaken (.load (.args 0) next) with inFlight := false } _
    (fun _ => trivial) (show setWord firstWords .seq 1 .doneSeq ≠ 1 by decide)
    maxPolls polling
  have gave := settled_step out (Or.inl (.giveUp _ rfl)) trivial
  have read := settled_step gave (Or.inr (.load _ (.args 0) next rfl)) trivial
  obtain ⟨words, reads, acts, finished, ended⟩ := pass_over _ _ _ read rfl
  -- the wait gave up, but the job's number has been published since
  have again := settled_step ended (Or.inl (.accept _ (oneArg 0x83000000) false rfl rfl))
    fun _ => rfl
  have stored := settled_step again (Or.inl (.store _ _ (.args 0) 0x83000000 _ _ rfl)) trivial
  have kernel := settled_step stored (Or.inl (.store _ _ .kernelId 2 _ _ rfl)) trivial
  have nargs := settled_step kernel (Or.inl (.store _ _ .nargs 1 _ _ rfl)) trivial
  have flags := settled_step nargs (Or.inl (.store _ _ .flags 0 _ _ rfl)) trivial
  have published := settled_step flags (Or.inl (.publish _ _ _ rfl)) trivial
  have noticed := settled_step published
    (Or.inr (.notice _ rfl (show (2 : UInt32) ≠ 1 by decide))) trivial
  have second := settled_step noticed (Or.inr (.take _ (fun _ => 0) 0 rfl)) trivial
  have id := settled_step second (Or.inr (.load _ .kernelId _ rfl)) trivial
  have arg := settled_step id (Or.inr (.load _ (.args 0) _ rfl)) trivial
  have posted := (descriptor_integrity plain _ _ arg).1 1 (.args 0) 0x83000000
    (List.mem_append_right _ List.mem_cons_self)
  refine ⟨_, _, arg, rfl, rfl, ?_, List.mem_append_right _ List.mem_cons_self, posted⟩
  simp only [History.record, List.append_assoc]
  exact List.mem_append_right _ List.mem_cons_self

/-- A wait that gave up lets the next post overwrite the running job: the first
job is served with the second one's argument. -/
theorem second_post_overwrites : ∃ l h job, Reachable plain (fun _ _ _ => True) l h ∧
    h.jobs[0]? = some job ∧ job.posted (.args 0) = some 0x82000000 ∧
    (0, Word.args 0, 0x83000000) ∈ h.reads := by
  obtain ⟨next, taken⟩ := @first_taken (fun _ _ _ => True) fun _ _ _ _ => trivial
  have waiting := taken.step _ _ _ _ trivial (Or.inl (.wait _ rfl rfl))
  have polling := waiting.step _ _ _ _ trivial (Or.inl (.begin _ rfl))
  have out := polls_out { firstTaken (.load (.args 0) next) with inFlight := false } _
    (fun _ => trivial) (show setWord firstWords .seq 1 .doneSeq ≠ 1 by decide) maxPolls polling
  have gave := out.step _ _ _ _ trivial (Or.inl (.giveUp _ rfl))
  have again := gave.step _ _ _ _ trivial
    (Or.inl (.accept _ (oneArg 0x83000000) false rfl rfl))
  have stored := again.step _ _ _ _ trivial
    (Or.inl (.store _ _ (.args 0) 0x83000000 _ _ rfl))
  have read := stored.step _ _ _ _ trivial (Or.inr (.load _ (.args 0) next rfl))
  exact ⟨_, _, oneArg 0x82000000, read, rfl, rfl, List.mem_cons_of_mem _ List.mem_cons_self⟩

end HeteroSim.DescriptorIntegrity

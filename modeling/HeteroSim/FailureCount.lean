import HeteroSim.Mailbox
import Mathlib.Data.List.Induction
import Mathlib.Data.List.Perm.Basic
import Mathlib.Data.UInt
import Mathlib.Logic.Function.Basic

/-!
What the host counts as failures. Each call of `hes_post`, `hes_wait` and
`hes_offload` is one step here; what a wait sees of the mailbox while it polls is
given to it from outside, so a job may end well, with an error, with a trap, or
not in time. A refused post is not counted where it happens: the wait that
belongs to it is one that finds nothing in flight, though often a later one.
-/

namespace HeteroSim.FailureCount

open ClusterJob Mailbox

/-- The host's own words and the mailboxes as it wrote them, by engine number. -/
structure Host where
  words : UInt32 → Word → UInt32
  rung : UInt32 → Bool
  nextSeq : UInt32 → UInt32
  inFlight : UInt32 → Bool
  busyCycles : UInt32 → UInt32
  failureCount : UInt32

/-- What one wait reads: `done_seq` at each poll, then the answer's words, `error` twice. -/
structure Seen where
  doneSeq : Nat → UInt32
  cycles : UInt32
  nbCores : UInt32
  staged : UInt32
  error : UInt32
  trapCause : UInt32
  errorAgain : UInt32

/-- No mailbox: `HES_ENGINE_CVA6`, or past `HES_NB_ENGINES`. -/
def invalid (engine : UInt32) : Bool := decide (engine = 0) || decide (3 ≤ engine)

def hesPost (staging : UInt32 → Bool) (s : Host) (engine : UInt32) (job : Job) : Host × UInt32 :=
  if invalid engine then (s, 1)
  else if s.inFlight engine then (s, 1)
  else
    let words := (job.flagged (staging engine)).stores.foldl
      (fun words one => setWord words one.1 one.2) (s.words engine)
    let seq := s.nextSeq engine + 1
    ({ s with
       words := Function.update s.words engine (setWord words .seq seq)
       rung := Function.update s.rung engine true
       nextSeq := Function.update s.nextSeq engine seq
       inFlight := Function.update s.inFlight engine true }, 0)

/-- The two polling loops of `hes_wait` as one, its polls numbered from `i`. -/
def polled (seen : Seen) (seq : UInt32) : Nat → Nat → Bool
  | 0, _ => false
  | left + 1, i => if seen.doneSeq i = seq then true else polled seen seq left (i + 1)

def hesWait (s : Host) (engine : UInt32) (seen : Seen) : Host × Result :=
  if invalid engine || !s.inFlight engine then (s, {})
  else
    let s := { s with inFlight := Function.update s.inFlight engine false }
    if polled seen (s.nextSeq engine) maxPolls 0 then
      ({ s with
         busyCycles := Function.update s.busyCycles engine (s.busyCycles engine + seen.cycles) },
       { cycles := seen.cycles
         nbCores := seen.nbCores
         staged := seen.staged
         error := seen.error
         ok := decide (seen.trapCause = 0) && decide (seen.errorAgain = 0) })
    else (s, {})

def hesOffload (staging : UInt32 → Bool) (s : Host) (engine : UInt32) (job : Job) (seen : Seen) :
    Host × Result :=
  let (s, refused) := hesPost staging s engine job
  if refused ≠ 0 then (s, {}) else hesWait s engine seen

/-- `hes_check`, its message left out. -/
def hesCheck (s : Host) (r : Result) : Host × UInt32 :=
  if r.ok then (s, 0) else ({ s with failureCount := s.failureCount + 1 }, 1)

/-- The calls of a run: `hes_post_*`, `hes_check(hes_wait)` and `hes_offload_*`. -/
inductive Call where
  | post (engine : UInt32) (job : Job)
  | wait (engine : UInt32) (seen : Seen)
  | offload (engine : UInt32) (job : Job) (seen : Seen)

/-! ### Runs

The ledger keeps apart what the count lumps together: a post is refused or
accepted, and an accepted job has the result of the wait that found it in flight. -/

structure Ledger where
  refused : Nat := 0
  accepted : Nat := 0
  results : List Result := []

def Ledger.posted (g : Ledger) (refused : UInt32) : Ledger :=
  if refused ≠ 0 then { g with refused := g.refused + 1 } else { g with accepted := g.accepted + 1 }

def Ledger.failed (g : Ledger) : Nat := g.results.countP fun r => !r.ok

def perform (staging : UInt32 → Bool) : Host × Ledger → Call → Host × Ledger
  | (s, g), .post engine job =>
      let (s', refused) := hesPost staging s engine job
      (s', g.posted refused)
  | (s, g), .wait engine seen =>
      let (s', r) := hesWait s engine seen
      ((hesCheck s' r).1,
        if s.inFlight engine then { g with results := g.results ++ [r] } else g)
  | (s, g), .offload engine job seen =>
      let refused := (hesPost staging s engine job).2
      let (s', r) := hesOffload staging s engine job seen
      let g := g.posted refused
      ((hesCheck s' r).1, if refused ≠ 0 then g else { g with results := g.results ++ [r] })

def run (staging : UInt32 → Bool) (start : Host) (calls : List Call) : Host × Ledger :=
  calls.foldl (perform staging) (start, {})

/-- The host before its first call. -/
structure Fresh (s : Host) : Prop where
  idle : ∀ engine, s.inFlight engine = false
  unfailed : s.failureCount = 0

def Call.posts : Call → Option UInt32
  | .post engine _ => some engine
  | _ => none

def Call.waits : Call → Option UInt32
  | .wait engine _ => some engine
  | _ => none

def posts (calls : List Call) : List UInt32 := calls.filterMap Call.posts

def waits (calls : List Call) : List UInt32 := calls.filterMap Call.waits

/-- On each engine the `k`-th wait comes after the `k`-th post, and none is missing. -/
structure Matched (calls : List Call) : Prop where
  after : ∀ first, first <+: calls → ∀ engine,
    (waits first).count engine ≤ (posts first).count engine
  complete : ∀ engine, (waits calls).count engine = (posts calls).count engine

/-! ### One call -/

section Calls

variable {staging : UInt32 → Bool} {s : Host} {engine : UInt32} {job : Job} {seen : Seen}

theorem post_refused (busy : invalid engine = true ∨ s.inFlight engine = true) :
    hesPost staging s engine job = (s, 1) := by
  rw [hesPost]
  by_cases unknown : invalid engine = true
  · rw [if_pos unknown]
  · rw [if_neg unknown, if_pos (busy.resolve_left unknown)]

theorem post_accepted (staging : UInt32 → Bool) (job : Job) (known : invalid engine = false)
    (free : s.inFlight engine = false) :
    (hesPost staging s engine job).2 = 0 ∧
      (hesPost staging s engine job).1.inFlight = Function.update s.inFlight engine true ∧
      (hesPost staging s engine job).1.failureCount = s.failureCount := by
  simp [hesPost, known, free]

theorem wait_nothing (nothing : invalid engine = true ∨ s.inFlight engine = false) :
    hesWait s engine seen = (s, {}) := by
  rw [hesWait, if_pos]
  rcases nothing with unknown | free
  · rw [unknown, Bool.true_or]
  · rw [free, Bool.not_false, Bool.or_true]

theorem wait_found (seen : Seen) (known : invalid engine = false)
    (flying : s.inFlight engine = true) :
    (hesWait s engine seen).1.inFlight = Function.update s.inFlight engine false ∧
      (hesWait s engine seen).1.failureCount = s.failureCount := by
  have found : (invalid engine || !s.inFlight engine) = false := by rw [known, flying]; rfl
  rw [hesWait, found]
  simp only [Bool.false_eq_true, if_false]
  split <;> exact ⟨rfl, rfl⟩

theorem offload_refused (busy : invalid engine = true ∨ s.inFlight engine = true) :
    hesOffload staging s engine job seen = (s, {}) := by
  rw [hesOffload, post_refused busy]
  rfl

theorem offload_accepted (staging : UInt32 → Bool) (job : Job) (seen : Seen)
    (known : invalid engine = false) (free : s.inFlight engine = false) :
    (hesOffload staging s engine job seen).1.inFlight = s.inFlight ∧
      (hesOffload staging s engine job seen).1.failureCount = s.failureCount := by
  obtain ⟨taken, raised, same⟩ := post_accepted staging job known free
  have flying : (hesPost staging s engine job).1.inFlight engine = true := by
    rw [raised, Function.update_self]
  obtain ⟨lowered, kept⟩ := wait_found seen known flying
  have waits : hesOffload staging s engine job seen =
      hesWait (hesPost staging s engine job).1 engine seen := by
    simp [hesOffload, taken]
  rw [waits, lowered, raised, kept, same, Function.update_idem, ← free, Function.update_eq_self]
  exact ⟨rfl, rfl⟩

theorem check_inFlight (s : Host) (r : Result) : (hesCheck s r).1.inFlight = s.inFlight := by
  rw [hesCheck]
  split <;> rfl

theorem check_count (s : Host) (r : Result) (n : Nat) (counted : s.failureCount = UInt32.ofNat n) :
    (hesCheck s r).1.failureCount = UInt32.ofNat (n + if r.ok then 0 else 1) := by
  rw [hesCheck]
  split
  · exact counted
  · rw [UInt32.ofNat_add, ← counted]
    rfl

theorem failed_append (g : Ledger) (r : Result) :
    Ledger.failed { g with results := g.results ++ [r] } = g.failed + if r.ok then 0 else 1 := by
  rw [Ledger.failed, List.countP_append, List.countP_singleton, Ledger.failed]
  cases r.ok <;> rfl

end Calls

/-! ### The count along a run -/

def flights (inFlight : UInt32 → Bool) : Nat := (inFlight 1).toNat + (inFlight 2).toNat

theorem known_engine {engine : UInt32} (known : invalid engine = false) :
    engine = 1 ∨ engine = 2 := by
  simp only [invalid, Bool.or_eq_false_iff, decide_eq_false_iff_not, UInt32.le_iff_toNat_le,
    ← UInt32.toNat_inj] at known ⊢
  simp at known ⊢
  omega

theorem flights_raised (inFlight : UInt32 → Bool) {engine : UInt32} (known : invalid engine = false)
    (free : inFlight engine = false) :
    flights (Function.update inFlight engine true) = flights inFlight + 1 := by
  rcases known_engine known with rfl | rfl
  · simp [flights, free]
    omega
  · simp [flights, free]

theorem flights_lowered {inFlight : UInt32 → Bool} {engine : UInt32}
    (known : invalid engine = false) (flying : inFlight engine = true) :
    flights (Function.update inFlight engine false) + 1 = flights inFlight := by
  have back := flights_raised (Function.update inFlight engine false) known
    (Function.update_self ..)
  rwa [Function.update_idem, ← flying, Function.update_eq_self, eq_comm] at back

/-- What holds after every call: refused posts are counted up to those whose wait
is still to come. -/
structure Tallied (calls : List Call) (s : Host) (g : Ledger) : Prop where
  known : ∀ engine, s.inFlight engine = true → invalid engine = false
  due : ∀ engine, s.inFlight engine = true →
    (waits calls).count engine < (posts calls).count engine
  accepted : g.accepted = g.results.length + flights s.inFlight
  counted : ∃ n, s.failureCount = UInt32.ofNat n ∧
    n + (posts calls).length + g.results.length =
      g.refused + g.failed + (waits calls).length + g.accepted

theorem fresh_tallied {s : Host} (fresh : Fresh s) : Tallied [] s {} where
  known engine flying := by rw [fresh.idle engine] at flying; cases flying
  due engine flying := by rw [fresh.idle engine] at flying; cases flying
  accepted := by simp [flights, fresh.idle]
  counted := ⟨0, fresh.unfailed, rfl⟩

section Steps

variable {staging : UInt32 → Bool} {calls : List Call} {s : Host} {g : Ledger}

theorem post_tallied (tallied : Tallied calls s g) (engine : UInt32) (job : Job)
    (before : (waits calls).count engine ≤ (posts calls).count engine) :
    Tallied (calls ++ [.post engine job]) (perform staging (s, g) (.post engine job)).1
      (perform staging (s, g) (.post engine job)).2 := by
  have posted : posts (calls ++ [.post engine job]) = posts calls ++ [engine] := by
    simp [posts, Call.posts]
  have waited : waits (calls ++ [.post engine job]) = waits calls := by simp [waits, Call.waits]
  obtain ⟨n, count, balance⟩ := tallied.counted
  have later (other : UInt32) : (posts calls).count other ≤
    (posts calls ++ [engine]).count other := by
    rw [List.count_append]
    exact Nat.le_add_right _ _
  by_cases busy : invalid engine = true ∨ s.inFlight engine = true
  · simp only [perform, post_refused busy]
    refine ⟨tallied.known, fun other flying => ?_, tallied.accepted, n, count, ?_⟩
    · rw [posted, waited]
      exact Nat.lt_of_lt_of_le (tallied.due other flying) (later other)
    · rw [posted, waited, List.length_append]
      simp only [Ledger.posted, Ledger.failed, List.length_singleton] at balance ⊢
      simp
      omega
  · rw [not_or, Bool.not_eq_true, Bool.not_eq_true] at busy
    obtain ⟨valid, free⟩ := busy
    obtain ⟨taken, raised, same⟩ := post_accepted staging job valid free
    refine ⟨?_, ?_, ?_, n, same.trans count, ?_⟩
    · intro other flying
      simp only [perform, raised, Function.update_apply] at flying
      split at flying
      · next here => rwa [here]
      · exact tallied.known other flying
    · intro other flying
      rw [posted, waited]
      simp only [perform, raised, Function.update_apply] at flying
      split at flying
      · next here =>
          subst here
          rw [List.count_append, List.count_singleton_self]
          exact Nat.lt_succ_of_le before
      · exact Nat.lt_of_lt_of_le (tallied.due other flying) (later other)
    · simp only [perform, Ledger.posted, taken, raised, flights_raised _ valid free]
      simp [tallied.accepted]
      omega
    · rw [posted, waited, List.length_append]
      simp only [perform, Ledger.posted, taken, Ledger.failed, List.length_singleton] at balance ⊢
      simp
      omega

theorem wait_tallied (tallied : Tallied calls s g) (engine : UInt32) (seen : Seen) :
    Tallied (calls ++ [.wait engine seen]) (perform staging (s, g) (.wait engine seen)).1
      (perform staging (s, g) (.wait engine seen)).2 := by
  have posted : posts (calls ++ [.wait engine seen]) = posts calls := by simp [posts, Call.posts]
  have waited : waits (calls ++ [.wait engine seen]) = waits calls ++ [engine] := by
    simp [waits, Call.waits]
  obtain ⟨n, count, balance⟩ := tallied.counted
  -- only the engine waited for has one more wait, and nothing is in flight on it
  have due (other : UInt32) (flying : s.inFlight other = true) (apart : other ≠ engine) :
      (waits calls ++ [engine]).count other < (posts calls).count other := by
    have nothing : [engine].count other = 0 := List.count_eq_zero_of_not_mem (by simpa using apart)
    rw [List.count_append, nothing, Nat.add_zero]
    exact tallied.due other flying
  by_cases flying : s.inFlight engine = true
  · have valid := tallied.known engine flying
    obtain ⟨lowered, same⟩ := wait_found seen valid flying
    have fewer := flights_lowered valid flying
    refine ⟨?_, ?_, ?_, n + (if (hesWait s engine seen).2.ok then 0 else 1),
      check_count _ _ n (same.trans count), ?_⟩
    · intro other still
      simp only [perform, check_inFlight, lowered, Function.update_apply] at still
      split at still
      · cases still
      · exact tallied.known other still
    · intro other still
      rw [posted, waited]
      simp only [perform, check_inFlight, lowered, Function.update_apply] at still
      split at still
      · cases still
      · next apart => exact due other still apart
    · simp only [perform, check_inFlight, lowered, if_pos flying, List.length_append,
        List.length_singleton, tallied.accepted]
      omega
    · rw [posted, waited, List.length_append]
      simp only [perform, if_pos flying, failed_append, List.length_append, List.length_singleton]
      omega
  · rw [Bool.not_eq_true] at flying
    have free : ¬ s.inFlight engine = true := by rw [flying]; decide
    simp only [perform, wait_nothing (.inr flying), if_neg free]
    refine ⟨?_, ?_, ?_, _, check_count _ _ n count, ?_⟩
    · intro other still
      rw [check_inFlight] at still
      exact tallied.known other still
    · intro other still
      rw [check_inFlight] at still
      rw [posted, waited]
      exact due other still fun same => free (same ▸ still)
    · rw [check_inFlight]
      exact tallied.accepted
    · rw [posted, waited, List.length_append]
      simp only [List.length_singleton, Bool.false_eq_true, if_false]
      omega

theorem offload_tallied (tallied : Tallied calls s g) (engine : UInt32) (job : Job) (seen : Seen) :
    Tallied (calls ++ [.offload engine job seen])
      (perform staging (s, g) (.offload engine job seen)).1
      (perform staging (s, g) (.offload engine job seen)).2 := by
  have posted : posts (calls ++ [.offload engine job seen]) = posts calls := by
    simp [posts, Call.posts]
  have waited : waits (calls ++ [.offload engine job seen]) = waits calls := by
    simp [waits, Call.waits]
  obtain ⟨n, count, balance⟩ := tallied.counted
  by_cases busy : invalid engine = true ∨ s.inFlight engine = true
  · simp only [perform, post_refused busy, offload_refused busy]
    refine ⟨?_, ?_, ?_, _, check_count _ _ n count, ?_⟩
    · intro other flying
      rw [check_inFlight] at flying
      exact tallied.known other flying
    · intro other flying
      rw [check_inFlight] at flying
      rw [posted, waited]
      exact tallied.due other flying
    · rw [check_inFlight]
      exact tallied.accepted
    · rw [posted, waited]
      simp only [Ledger.posted, Ledger.failed] at balance ⊢
      simp
      omega
  · rw [not_or, Bool.not_eq_true, Bool.not_eq_true] at busy
    obtain ⟨valid, free⟩ := busy
    obtain ⟨same, kept⟩ := offload_accepted staging job seen valid free
    have taken := (post_accepted staging job valid free).1
    refine ⟨?_, ?_, ?_, n + (if (hesOffload staging s engine job seen).2.ok then 0 else 1),
      check_count _ _ n (kept.trans count), ?_⟩
    · intro other flying
      simp only [perform, check_inFlight, same] at flying
      exact tallied.known other flying
    · intro other flying
      simp only [perform, check_inFlight, same] at flying
      rw [posted, waited]
      exact tallied.due other flying
    · simp only [perform, check_inFlight, same, taken, Ledger.posted]
      simp [tallied.accepted]
      omega
    · rw [posted, waited]
      have answered := failed_append { g with accepted := g.accepted + 1 }
        (hesOffload staging s engine job seen).2
      have before : Ledger.failed { g with accepted := g.accepted + 1 } = g.failed := rfl
      simp only [perform, taken, Ledger.posted, ne_eq, not_true_eq_false, if_false] at answered ⊢
      rw [answered, before, List.length_append, List.length_singleton]
      omega

end Steps

theorem run_tallied (staging : UInt32 → Bool) (start : Host) (fresh : Fresh start)
    (calls : List Call) (after : ∀ first, first <+: calls → ∀ engine,
      (waits first).count engine ≤ (posts first).count engine) :
    Tallied calls (run staging start calls).1 (run staging start calls).2 := by
  induction calls using List.reverseRecOn with
  | nil => exact fresh_tallied fresh
  | append_singleton calls call ih =>
      have tallied := ih fun first part => after first (part.trans (List.prefix_append _ _))
      have step : run staging start (calls ++ [call]) =
          perform staging ((run staging start calls).1, (run staging start calls).2) call := by
        rw [run, List.foldl_append]
        rfl
      rw [step]
      cases call with
      | post engine job =>
          exact post_tallied tallied engine job (after calls (List.prefix_append _ _) engine)
      | wait engine seen => exact wait_tallied tallied engine seen
      | offload engine job seen => exact offload_tallied tallied engine job seen

theorem countP_zero (g : Ledger) : g.failed = 0 ↔ ∀ r ∈ g.results, r.ok = true := by
  simp [Ledger.failed, List.countP_eq_zero]

/-- A run whose waits match its posts counts every refused post and every
accepted job that did not end well, once. The counter has 32 bits. -/
theorem failures_counted (staging : UInt32 → Bool) (start : Host) (calls : List Call)
    (fresh : Fresh start) (matched : Matched calls) :
    (run staging start calls).2.accepted = (run staging start calls).2.results.length ∧
    (run staging start calls).1.failureCount =
      UInt32.ofNat ((run staging start calls).2.refused + (run staging start calls).2.failed) ∧
    ((run staging start calls).2.refused + (run staging start calls).2.failed < 2 ^ 32 →
      ((run staging start calls).1.failureCount = 0 ↔
        (run staging start calls).2.refused = 0 ∧
          ∀ r ∈ (run staging start calls).2.results, r.ok = true)) := by
  have tallied := run_tallied staging start fresh calls matched.after
  generalize run staging start calls = done at *
  have landed (engine : UInt32) : done.1.inFlight engine = false := by
    rw [← Bool.not_eq_true]
    intro flying
    exact absurd (matched.complete engine) (Nat.ne_of_lt (tallied.due engine flying))
  have whole : done.2.accepted = done.2.results.length := by
    simpa [flights, landed] using tallied.accepted
  have lengths : (waits calls).length = (posts calls).length :=
    (List.perm_iff_count.mpr matched.complete).length_eq
  obtain ⟨n, count, balance⟩ := tallied.counted
  have total : n = done.2.refused + done.2.failed := by omega
  subst total
  refine ⟨whole, count, fun few => ?_⟩
  rw [count, ← countP_zero, ← Nat.add_eq_zero_iff]
  constructor
  · intro zero
    have exact : (UInt32.ofNat (done.2.refused + done.2.failed)).toNat = 0 := by rw [zero]; rfl
    rwa [UInt32.toNat_ofNat', Nat.mod_eq_of_lt few] at exact
  · intro zero
    rw [zero]
    rfl

/-! ### Runs that match -/

theorem matched_nil : Matched [] where
  after first part engine := by rw [List.prefix_nil.mp part]; exact Nat.le_refl _
  complete _ := rfl

theorem matched_offload (engine : UInt32) (job : Job) (seen : Seen) :
    Matched [.offload engine job seen] where
  after first part other := by
    rcases List.prefix_cons_iff.mp part with none | ⟨rest, whole, tail⟩
    · rw [none]; exact Nat.le_refl _
    · rw [whole, List.prefix_nil.mp tail]; exact Nat.le_refl _
  complete _ := rfl

theorem matched_append {front back : List Call} (left : Matched front) (right : Matched back) :
    Matched (front ++ back) where
  after first part engine := by
    rcases List.prefix_or_prefix_of_prefix part (List.prefix_append front back) with
      inside | ⟨rest, whole⟩
    · exact left.after first inside engine
    · subst whole
      have tail : rest <+: back := (List.prefix_append_right_inj front).mp part
      have before := left.complete engine
      have later := right.after rest tail engine
      simp only [waits, posts, List.filterMap_append, List.count_append] at before later ⊢
      omega
  complete engine := by
    have before := left.complete engine
    have later := right.complete engine
    simp only [waits, posts, List.filterMap_append, List.count_append] at before later ⊢
    omega

theorem matched_around {middle : List Call} (within : Matched middle) (engine : UInt32) (job : Job)
    (seen : Seen) : Matched (.post engine job :: (middle ++ [.wait engine seen])) where
  after first part other := by
    rcases List.prefix_cons_iff.mp part with none | ⟨rest, whole, tail⟩
    · rw [none]; exact Nat.le_refl _
    · subst whole
      have later (calls : List Call) : waits (.post engine job :: calls) = waits calls ∧
          posts (.post engine job :: calls) = engine :: posts calls := ⟨rfl, rfl⟩
      rw [(later rest).1, (later rest).2, List.count_cons]
      rcases List.prefix_concat_iff.mp tail with all | part
      · have complete := within.complete other
        rw [all]
        simp only [waits, posts, List.filterMap_append, List.count_append] at complete ⊢
        simp [Call.waits, Call.posts, List.count_singleton]
        omega
      · exact Nat.le_trans (within.after rest part other) (Nat.le_add_right _ _)
  complete other := by
    have complete := within.complete other
    simp only [waits, posts, List.filterMap_append, List.filterMap_cons, List.count_append,
      Call.waits, Call.posts, List.count_cons, List.filterMap_nil, List.count_nil] at complete ⊢
    omega

/-- The calls of the keyword program: the first clip's front end, then for each
clip its network, beside it or after it the next clip's front end. -/
def keywordCalls (pipelined : Bool) (fe : UInt32) (job : Nat → Job) (seen : Nat → Seen)
    (network : Nat → List Call) (clips : Nat) : List Call :=
  .offload fe (job 0) (seen 0) :: (List.range clips).flatMap fun n =>
    if n + 1 < clips then
      if pipelined then .post fe (job (n + 1)) :: (network n ++ [.wait fe (seen (n + 1))])
      else network n ++ [.offload fe (job (n + 1)) (seen (n + 1))]
    else network n

theorem keyword_matched (pipelined : Bool) (fe : UInt32) (job : Nat → Job) (seen : Nat → Seen)
    (network : Nat → List Call) (matched : ∀ n, Matched (network n)) (clips : Nat) :
    Matched (keywordCalls pipelined fe job seen network clips) := by
  rw [keywordCalls, ← List.singleton_append]
  apply matched_append (matched_offload fe (job 0) (seen 0))
  generalize List.range clips = rounds
  induction rounds with
  | nil => exact matched_nil
  | cons n rounds ih =>
      rw [List.flatMap_cons]
      apply matched_append _ ih
      split
      · split
        · exact matched_around (matched n) fe _ _
        · exact matched_append (matched n) (matched_offload fe _ _)
      · exact matched n

theorem post_link {staging : UInt32 → Bool} {s : Host} {engine : UInt32} {job : Job} {l : Link}
    (known : invalid engine = false) (idle : l.host = .idle)
    (same : s.inFlight engine = l.inFlight) :
    ((∃ l', HostStep (staging engine) l .refuse l') ↔ (hesPost staging s engine job).2 = 1) ∧
      ((∃ taken l', HostStep (staging engine) l (.accept taken) l') ↔
        (hesPost staging s engine job).2 = 0) := by
  cases flying : l.inFlight with
  | true =>
      rw [post_refused (.inr (same.trans flying))]
      refine ⟨iff_of_true ⟨l, .refuse l idle flying⟩ rfl, iff_of_false ?_ (by simp)⟩
      rintro ⟨taken, l', step⟩
      cases step with
      | accept job waits idle free => rw [flying] at free; cases free
  | false =>
      rw [(post_accepted staging job known (same.trans flying)).1]
      refine ⟨iff_of_false ?_ (by simp), iff_of_true ⟨_, _, .accept l job false idle flying⟩ rfl⟩
      rintro ⟨l', taken⟩
      cases taken with
      | refuse idle busy => rw [flying] at busy; cases busy

/-! ### Two runs -/

def booted : Host where
  words _ _ := 0
  rung _ := false
  nextSeq _ := 0
  inFlight _ := false
  busyCycles _ := 0
  failureCount := 0

theorem booted_fresh : Fresh booted := ⟨fun _ => rfl, rfl⟩

/-- Two posts to one engine and the waits for them: the first job ends in a trap,
and the second was never posted. -/
def twice : List Call :=
  let job : Job := { kernel := 2, args := fun _ => 0, nargs := 0, flags := 0 }
  let trapped : Seen := { doneSeq := fun _ => 1, cycles := 5, nbCores := 8, staged := 0,
                          error := 0, trapCause := 7, errorAgain := 0 }
  .post 1 job :: ((.post 1 job :: ([] ++ [.wait 1 trapped])) ++ [.wait 1 trapped])

theorem failures_counted_twice : (run (fun _ => false) booted twice).1.failureCount = 2 :=
  (failures_counted (fun _ => false) booted twice booted_fresh
    (matched_around (matched_around matched_nil 1 _ _) 1 _ _)).2.1.trans (by decide +kernel)

theorem refused_offloads (staging : UInt32 → Bool) (start : Host) (job : Job) (seen : Seen)
    (n : Nat) : run staging start (List.replicate n (.offload 0 job seen)) =
      ({ start with failureCount := start.failureCount + UInt32.ofNat n }, { refused := n }) := by
  induction n with
  | zero => simp [run]
  | succ n ih =>
      have step (s : Host) (g : Ledger) : perform staging (s, g) (.offload 0 job seen) =
          ({ s with failureCount := s.failureCount + 1 }, { g with refused := g.refused + 1 }) := by
        have unknown : invalid 0 = true := by decide
        simp only [perform, post_refused (.inl unknown), offload_refused (.inl unknown)]
        rfl
      rw [run] at ih ⊢
      rw [List.replicate_succ', List.foldl_append, ih, List.foldl_cons, List.foldl_nil, step]
      rw [UInt32.ofNat_add, UInt32.add_assoc]
      rfl

/-- After 2^32 refused offloads the counter is back at zero. -/
theorem count_wraps : ∃ calls, Matched calls ∧
    (run (fun _ => false) booted calls).2.refused ≠ 0 ∧
    (run (fun _ => false) booted calls).1.failureCount = 0 := by
  let job : Job := { kernel := 2, args := fun _ => 0, nargs := 0, flags := 0 }
  let seen : Seen := { doneSeq := fun _ => 0, cycles := 0, nbCores := 0, staged := 0,
                       error := 0, trapCause := 0, errorAgain := 0 }
  refine ⟨List.replicate (2 ^ 32) (.offload 0 job seen), ?_, ?_, ?_⟩
  · generalize 2 ^ 32 = n
    induction n with
    | zero => exact matched_nil
    | succ n ih => exact matched_append (matched_offload 0 job seen) ih
  · rw [refused_offloads]
    decide
  · rw [refused_offloads]
    rfl

end HeteroSim.FailureCount

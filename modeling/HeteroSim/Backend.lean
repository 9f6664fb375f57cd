import Mathlib.Data.List.Basic

/-!
How the desktop program starts a pipeline script, natively or in the Docker image,
and how it prints the command for a shell. Texts are lists of characters; a path
is the text it prints as.
-/

namespace HeteroSim.Backend

abbrev Text := List Char

inductive BackendKind where
  | native
  | docker
  deriving DecidableEq

structure Settings where
  backend : BackendKind
  workspace : Text
  dockerImage : Text
  mountSources : Bool
  concurrency : Nat
  deriving DecidableEq

/-- A pipeline script and its arguments, whatever the backend. -/
structure Invocation where
  script : Text
  args : List Text
  deriving DecidableEq

/-- A process to start; `container` is what cancelling kills. -/
structure Launch where
  program : Text
  args : List Text
  cwd : Text
  container : Option Text
  deriving DecidableEq

/-- The process id, and who owns the workspace where that matters. -/
structure Host where
  pid : Text
  owner : Option Text

def dataDirs : List Text := ["ops".toList, "results".toList, "work".toList]

def sourceDirs : List Text := ["pipeline".toList, "runtime".toList, "targets".toList]

/-- `Path::join`, for a relative second part. -/
def join (base part : Text) : Text :=
  if base = [] then part
  else if base.getLast? = some '/' then base ++ part
  else base ++ '/' :: part

/-- The script `bash -c` runs a Docker job under. -/
def dockerWrapper : Text :=
  ("\n\"$@\" &\nchild=$!\ntrap 'kill -TERM \"$child\" 2>/dev/null' TERM INT\n" ++
   "wait \"$child\"; rc=$?\nwait \"$child\" 2>/dev/null\nif [ -n \"$HES_OWNER\" ]; then\n" ++
   "  find ops results work ! -user \"$\x7bHES_OWNER%%:*\x7d\" " ++
   "-exec chown -h \"$HES_OWNER\" \x7b\x7d + 2>/dev/null\n" ++
   "fi\nexit $rc\n").toList

def mounts (ws : Text) : List Text → List Text
  | [] => []
  | dir :: rest =>
      "--mount".toList ::
        ("type=bind,source=".toList ++ join ws dir ++ ",target=/workspace/".toList ++ dir) ::
          mounts ws rest

def launch (host : Host) (settings : Settings) (inv : Invocation) (jobId : Nat) : Launch :=
  let ws := settings.workspace
  match settings.backend with
  | .native =>
      { program := join (join (join ws ".venv".toList) "bin".toList) "python".toList
        args := inv.script :: inv.args
        cwd := ws
        container := none }
  | .docker =>
      let name := "hetero-gui-".toList ++ host.pid ++ '-' :: Nat.toDigits 10 jobId
      { program := "docker".toList
        args := ["run".toList, "--rm".toList, "--name".toList, name, "-w".toList,
            "/workspace".toList] ++
          mounts ws (dataDirs ++ if settings.mountSources then sourceDirs else []) ++
          (match host.owner with
            | some owner => ["-e".toList, "HES_OWNER=".toList ++ owner]
            | none => []) ++
          [settings.dockerImage, "bash".toList, "-c".toList, dockerWrapper, "hes-job".toList,
            "python".toList, inv.script] ++ inv.args
        cwd := ws
        container := some name }

/-! ### A command to paste -/

/-- Characters `quote` leaves bare. -/
def plain (c : Char) : Bool :=
  c.isAlphanum || "-_./=:,@+%".toList.contains c

/-- `s.replace('\'', r"'\''")`, the text between quotes. -/
def escaped (s : Text) : Text :=
  s.flatMap fun c => if c = '\'' then ['\'', '\\', '\'', '\''] else [c]

def quote (s : Text) : Text :=
  if !s.isEmpty && s.all plain then s else '\'' :: escaped s ++ ['\'']

def Launch.display (l : Launch) : Text :=
  [' '].intercalate ((l.program :: l.args).map quote)

/-- How a shell reads a line that is words only: blanks part words, a backslash
keeps one character, single quotes keep all up to the next one. `none` where the
shell would do more than that, or wants more of the line. -/
inductive Reading where
  | bare
  | quoted
  | escape

def special (c : Char) : Bool :=
  "|&;<>()$`\"*?[]#~!^\x7b\x7d\n\r".toList.contains c

def closed : Option Text → List Text
  | none => []
  | some word => [word]

def words : Reading → Option Text → Text → Option (List Text)
  | .bare, word, [] => some (closed word)
  | .quoted, _, [] => none
  | .escape, _, [] => none
  | .escape, word, c :: rest =>
      if c = '\n' then none else words .bare (some (word.getD [] ++ [c])) rest
  | .quoted, word, c :: rest =>
      if c = '\'' then words .bare word rest
      else words .quoted (some (word.getD [] ++ [c])) rest
  | .bare, word, c :: rest =>
      if c = ' ' ∨ c = '\t' then (words .bare none rest).map (closed word ++ ·)
      else if c = '\'' then words .quoted (some (word.getD [])) rest
      else if c = '\\' then words .escape word rest
      else if special c then none
      else words .bare (some (word.getD [] ++ [c])) rest

theorem plain_ordinary (c : Char) (bare : plain c = true) :
    c ≠ ' ' ∧ c ≠ '\t' ∧ c ≠ '\'' ∧ c ≠ '\\' ∧ special c = false := by
  have away : ∀ d, plain d = false → c ≠ d := by
    rintro d odd rfl
    rw [bare] at odd
    cases odd
  refine ⟨away _ (by decide), away _ (by decide), away _ (by decide), away _ (by decide), ?_⟩
  rw [special, List.contains_eq_mem, decide_eq_false_iff_not]
  intro member
  have nothing : ("|&;<>()$`\"*?[]#~!^\x7b\x7d\n\r".toList.all fun d => !plain d)
    = true := by decide
  exact away c (Bool.not_eq_true' _ ▸ List.all_eq_true.mp nothing c member) rfl

theorem words_char {c : Char} (bare : plain c = true) (word : Option Text) (rest : Text) :
    words .bare word (c :: rest) = words .bare (some (word.getD [] ++ [c])) rest := by
  obtain ⟨space, tab, tick, slash, ordinary⟩ := plain_ordinary c bare
  rw [words, if_neg (not_or.mpr ⟨space, tab⟩), if_neg tick, if_neg slash, ordinary]
  rfl

theorem words_plain (s : Text) (bare : s.all plain = true) (word rest : Text) :
    words .bare (some word) (s ++ rest) = words .bare (some (word ++ s)) rest := by
  induction s generalizing word with
  | nil => rw [List.nil_append, List.append_nil]
  | cons c s ih =>
      obtain ⟨first, others⟩ := Bool.and_eq_true_iff.mp bare
      rw [List.cons_append, words_char first, Option.getD_some, ih others, List.append_assoc,
        List.singleton_append]

theorem words_escaped (s word rest : Text) :
    words .quoted (some word) (escaped s ++ '\'' :: rest) =
      words .bare (some (word ++ s)) rest := by
  induction s generalizing word with
  | nil =>
      show words .quoted (some word) ('\'' :: rest) = _
      rw [words, if_pos rfl, List.append_nil]
  | cons c s ih =>
      by_cases tick : c = '\''
      · subst tick
        -- close, an escaped quote, open again
        have step : words .quoted (some word) (escaped ('\'' :: s) ++ '\'' :: rest) =
            words .quoted (some (word ++ ['\''])) (escaped s ++ '\'' :: rest) := by
          simp [escaped, words]
        rw [step, ih, List.append_assoc, List.singleton_append]
      · have step : words .quoted (some word) (escaped (c :: s) ++ '\'' :: rest) =
            words .quoted (some (word ++ [c])) (escaped s ++ '\'' :: rest) := by
          simp [escaped, words, tick]
        rw [step, ih, List.append_assoc, List.singleton_append]

theorem words_quote (s rest : Text) :
    words .bare none (quote s ++ rest) = words .bare (some s) rest := by
  unfold quote
  by_cases bare : (!s.isEmpty && s.all plain) = true
  · rw [if_pos bare]
    obtain ⟨filled, all⟩ := Bool.and_eq_true_iff.mp bare
    cases s with
    | nil => cases filled
    | cons c s =>
        obtain ⟨first, others⟩ := Bool.and_eq_true_iff.mp all
        rw [List.cons_append, words_char first, words_plain s others]
        rfl
  · rw [if_neg bare]
    have opened : words .bare none ('\'' :: escaped s ++ ['\''] ++ rest) =
        words .quoted (some []) (escaped s ++ '\'' :: rest) := by
      simp [words]
    rw [opened, words_escaped, List.nil_append]

theorem words_line (line : List Text) (first : Text) :
    words .bare none ([' '].intercalate ((first :: line).map quote)) = some (first :: line) := by
  induction line generalizing first with
  | nil =>
      have one := words_quote first []
      rw [List.append_nil] at one
      simpa [words, closed] using one
  | cons second line ih =>
      have split : [' '].intercalate ((first :: second :: line).map quote) =
          quote first ++ ' ' :: [' '].intercalate ((second :: line).map quote) := by
        simp [List.intercalate]
      rw [split, words_quote, words, if_pos (Or.inl rfl), ih second]
      rfl

theorem display_words (l : Launch) :
    words .bare none l.display = some (l.program :: l.args) :=
  words_line l.args l.program

theorem split_after (first last : Text) (start middle args : List Text) :
    first :: (start ++ (middle ++ [last]) ++ args) =
      (first :: (start ++ middle)) ++ last :: args := by
  simp

theorem launch_script (host : Host) (settings : Settings) (inv : Invocation) (jobId : Nat) :
    ∃ front, (launch host settings inv jobId).program :: (launch host settings inv jobId).args =
      front ++ inv.script :: inv.args := by
  unfold launch
  cases settings.backend with
  | native => exact ⟨[_], rfl⟩
  | docker =>
      exact ⟨_, split_after _ inv.script _ [settings.dockerImage, "bash".toList, "-c".toList,
        dockerWrapper, "hes-job".toList, "python".toList] inv.args⟩

/-- Whether a shell takes the first word of a line for an assignment. -/
def assigns (line : Text) : Bool :=
  let name := line.takeWhile fun c => c.isAlphanum || c = '_'
  !name.isEmpty && !name.head?.any Char.isDigit && (line.drop name.length).head? = some '='

theorem assigns_odd {c : Char} (odd : (c.isAlphanum || c = '_') = false) (rest : Text) :
    assigns (c :: rest) = false := by
  rw [assigns, List.takeWhile_cons_of_neg (by simp [odd])]
  rfl

theorem join_absolute {base : Text} (absolute : base.head? = some '/') (part : Text) :
    (join base part).head? = some '/' := by
  cases base with
  | nil => cases absolute
  | cons c rest =>
      rw [join, if_neg (List.cons_ne_nil c rest)]
      split <;> exact absolute

theorem display_head (l : Launch) : ∃ rest, l.display = quote l.program ++ rest := by
  rw [Launch.display, List.map_cons]
  cases l.args.map quote with
  | nil => exact ⟨[], by simp⟩
  | cons second others =>
      exact ⟨' ' :: [' '].intercalate (second :: others), by simp [List.intercalate]⟩

theorem assigns_absolute {l : Launch} (absolute : l.program.head? = some '/') :
    assigns l.display = false := by
  obtain ⟨rest, split⟩ := display_head l
  rw [split, quote]
  split
  · cases program : l.program with
    | nil =>
        rw [program] at absolute
        cases absolute
    | cons c others =>
        rw [program] at absolute
        cases absolute
        exact assigns_odd rfl _
  · exact assigns_odd rfl _

theorem command_first (host : Host) (settings : Settings) (inv : Invocation) (jobId : Nat)
    (assigned : assigns (launch host settings inv jobId).display = true) :
    settings.backend = .native ∧ settings.workspace.head? ≠ some '/' := by
  cases backend : settings.backend with
  | native =>
      refine ⟨rfl, fun absolute => ?_⟩
      have rooted : (launch host settings inv jobId).program.head? = some '/' := by
        rw [launch, backend]
        exact join_absolute (join_absolute (join_absolute absolute _) _) _
      rw [assigns_absolute rooted] at assigned
      cases assigned
  | docker =>
      rw [launch, backend] at assigned
      cases assigned

/-- A shell reads the displayed line as the words of the process that is started: its
program and its arguments, the last of them the script's own. Only the path of a
workspace that is not absolute can make the first of them an assignment. -/
theorem copied_command (host : Host) (settings : Settings) (inv : Invocation) (jobId : Nat) :
    (∃ front, words .bare none (launch host settings inv jobId).display =
        some (front ++ inv.script :: inv.args) ∧
      front ++ inv.script :: inv.args =
        (launch host settings inv jobId).program :: (launch host settings inv jobId).args) ∧
      (assigns (launch host settings inv jobId).display = true →
        settings.backend = .native ∧ settings.workspace.head? ≠ some '/') := by
  obtain ⟨front, same⟩ := launch_script host settings inv jobId
  exact ⟨⟨front, same ▸ display_words _, same.symm⟩, command_first host settings inv jobId⟩

def spaced : Settings := ⟨.docker, "/a b".toList, "it's".toList, false, 1⟩

/-- A blank in the workspace, a quote in the image's name, an empty argument; and a
relative workspace whose path a shell would take for an assignment. -/
theorem copied_command_spaced :
    words .bare none (launch ⟨"7".toList, none⟩ spaced
        ⟨"pipeline/run.py".toList, ["$x".toList, []]⟩ 3).display =
      some ("docker".toList :: (launch ⟨"7".toList, none⟩ spaced
        ⟨"pipeline/run.py".toList, ["$x".toList, []]⟩ 3).args) ∧
    "x=1".toList.head? ≠ some '/' := by
  obtain ⟨⟨front, read, same⟩, _⟩ := copied_command ⟨"7".toList, none⟩ spaced
    ⟨"pipeline/run.py".toList, ["$x".toList, []]⟩ 3
  obtain ⟨_, assigned⟩ := copied_command ⟨"7".toList, none⟩ ⟨.native, "x=1".toList, [], false, 1⟩
    ⟨"pipeline/run.py".toList, []⟩ 3
  exact ⟨read.trans (congrArg some same), (assigned (by decide)).2⟩

end HeteroSim.Backend

import BracketExpr.Command.Run
import BracketExpr.Proofs.RoundTrip

/-!
# Command lines that ask for a task

What the program does with the text of a statement is decided by three things that a command line
asks for: a task, a nesting limit, and the statement itself or the one on standard input. Options
may come in any order and more than one command line asks for the same, but the program ends in the
same way on all of them, whatever reads the command line. With `Line.read` there is such a command
line for every task, limit and statement; a double hyphen in front of the statement keeps it from
being read as an option.
-/

namespace BracketExpr

namespace Command

/-! ## Runs of a task -/

/-- As `read` reads the command line, it asks for `task` under `limit`: on the given statement or,
without one, on the statement on standard input. -/
def Requests (read : List String → Except UsageError Invocation) (arguments : List String)
    (task : Task) (limit : Nat) (given? : Option String) : Prop :=
  read arguments = .ok (.task task limit given?)

/-- How the program ends after a task on the text of a statement. -/
def Task.exit (task : Task) (limit : Nat) (statement : String) : Exit :=
  .ofExcept ((task.run limit statement).map Output.print)

/-- A command line runs its task on the statement that is given or piped in. -/
theorem runWith_of_requests {read : List String → Except UsageError Invocation}
    {arguments : List String} {task : Task} {limit : Nat} {given? : Option String} {input : Input}
    {s : String} (h : Requests read arguments task limit given?)
    (hs : statement? given? input = .ok (some s)) :
    runWith read arguments input = task.exit limit s := by
  rw [Requests] at h
  rw [runWith, h, Task.exit]
  dsimp only
  rw [Invocation.perform, hs]
  cases hrun : task.run limit s with
  | error f => simp only [bind, Except.bind, Task.run?, hrun, Except.map]
  | ok output => simp only [bind, Except.bind, Task.run?, hrun, Except.map, pure, Except.pure]

theorem fromUTF8?_toUTF8 (s : String) : String.fromUTF8? s.toUTF8 = some s :=
  dif_pos s.isValidUTF8

/-- A text that is piped in is a statement without the line break at its end. -/
theorem statement?_piped (s : String) :
    statement? none (.piped s.toUTF8) = .ok (some (String.ofList (withoutLineBreak s.toList))) := by
  rw [statement?, Input.statement?, fromUTF8?_toUTF8]

/-- A task succeeds on what can be classified. -/
theorem Task.exit_of_classify {limit : Nat} {s : String} {statement : Statement}
    (h : classify limit s = .ok statement) (task : Task) :
    task.exit limit s = .success (task.output statement).print := by
  rw [exit, run, h]
  rfl

theorem Output.print_formatted (text : String) : (formatted text).print = text ++ "\n" := by
  simp [print, lines, String.join]

/-- What `format` prints is the canonical text of the statement. -/
theorem Task.classify_of_exit_format {limit : Nat} {s t : String}
    (h : format.exit limit s = .success (t ++ "\n")) :
    ∃ statement, classify limit s = .ok statement ∧ statement.text = t := by
  cases hs : classify limit s with
  | error d =>
    rw [exit, run, hs] at h
    cases h
  | ok statement =>
    rw [exit_of_classify hs, output, Output.print_formatted] at h
    refine ⟨statement, rfl, ?_⟩
    exact (String.append_left_inj "\n").1 (congrArg Exit.stdout h)

/-! ## Command lines for a task -/

/-- A limit in decimal digits is read back as that limit. -/
theorem Line.limitOf?_naturalText {limit : Nat} (h : limit ≤ maxLimit) :
    limitOf? (String.ofList (Numeral.naturalText limit)) = some limit := by
  have hrun : Text.IsRun Char.isDigit (Numeral.naturalText limit) :=
    Numeral.isRun_naturalText limit
  have hvalue : Numeral.natural? (Numeral.naturalText limit) = some limit := by
    rw [Numeral.natural?_of_isRun hrun, Numeral.naturalText, Nat.ofDigitChars_ten_toDigits]
  rw [limitOf?, String.toList_ofList]
  split
  next digits heq =>
    rw [heq] at hrun
    exact absurd (hrun.2 '+' List.mem_cons_self) (by decide)
  next =>
    rw [if_pos (List.all_eq_true.2 hrun.2), hvalue]
    simp [h]

/-- The arguments of a subcommand that set the limit and the statement. -/
def Line.limitArguments (limit : Nat) (given? : Option String) : List String :=
  "--max-depth" :: String.ofList (Numeral.naturalText limit) :: "--" :: given?.toList

/-- The options that ask for a limit, and the text behind them, are read as given. -/
theorem Line.Subcommand.read_limitArguments {sub : Subcommand} (hsub : sub ≠ docs)
    (pretty : Bool) {limit : Nat} (h : limit ≤ maxLimit) (given? : Option String) :
    sub.read ⟨false, pretty, none, none⟩ (limitArguments limit given?) =
      .ok ⟨false, pretty, some limit, given?⟩ := by
  have hdepth : Word.ofArgument "--max-depth" = .long "max-depth" none := by decide
  have hseparator : Word.ofArgument "--" = .separator := by decide
  have hoption : sub.longOption? "max-depth" = some (.valued Settings.setLimit) := by
    cases sub <;> first | rfl | exact absurd rfl hsub
  have hset : Settings.setLimit ⟨false, pretty, none, none⟩
      (String.ofList (Numeral.naturalText limit)) = .ok ⟨false, pretty, some limit, none⟩ := by
    rw [Settings.setLimit, limitOf?_naturalText h]
  rw [limitArguments, read, hdepth]
  dsimp only
  rw [hoption]
  dsimp only
  rw [hset]
  show read sub _ _ = _
  rw [read, hseparator]
  cases given? <;> rfl

/-- A command line that starts with the name of a subcommand is read as one of the subcommand. -/
theorem Line.read_of_subcommand {name : String} {sub : Subcommand} {arguments : List String}
    {settings : Settings} (hword : Word.ofArgument name = .plain name)
    (hname : Subcommand.ofName? name = some sub) (hread : sub.read {} arguments = .ok settings) :
    Line.read (name :: arguments) = .ok (sub.invocation settings) := by
  simp only [Line.read, readProgram, hword, readSubcommand, hname, hread, Except.map]

/-- A command line that asks for a task under a limit, on the given statement or on standard
input. -/
def Task.arguments (limit : Nat) (given? : Option String) : Task → List String
  | parse .compact => "parse" :: Line.limitArguments limit given?
  | parse .indented => "parse" :: "--pretty" :: Line.limitArguments limit given?
  | check => "check" :: Line.limitArguments limit given?
  | format => "format" :: Line.limitArguments limit given?
  | functions => "functions" :: Line.limitArguments limit given?

/-- Every task can be asked for, under every limit and on every statement. -/
theorem Task.requests_arguments {limit : Nat} (h : limit ≤ Line.maxLimit) (task : Task)
    (given? : Option String) :
    Requests Line.read (task.arguments limit given?) task limit given? := by
  have hread (sub : Line.Subcommand) (hsub : sub ≠ .docs) (pretty : Bool) :
      sub.read ⟨false, pretty, none, none⟩ (Line.limitArguments limit given?) =
        .ok ⟨false, pretty, some limit, given?⟩ :=
    Line.Subcommand.read_limitArguments hsub pretty h given?
  cases task with
  | parse layout =>
    cases layout with
    | compact => exact Line.read_of_subcommand rfl rfl (hread .parse (by decide) false)
    | indented =>
      have hpretty :
          Line.Subcommand.read .parse {} ("--pretty" :: Line.limitArguments limit given?) =
            Line.Subcommand.read .parse ⟨false, true, none, none⟩
              (Line.limitArguments limit given?) := rfl
      exact Line.read_of_subcommand rfl rfl (hpretty.trans (hread .parse (by decide) true))
  | check => exact Line.read_of_subcommand rfl rfl (hread .check (by decide) false)
  | format => exact Line.read_of_subcommand rfl rfl (hread .format (by decide) false)
  | functions => exact Line.read_of_subcommand rfl rfl (hread .functions (by decide) false)

end Command

end BracketExpr

import Apue.CLib.Getopt
import Apue.Shell.Command

/-! The logger's way to a shell.

`main` puts the command and its arguments on one line, a blank after each, and gives that
to `system`. `launches_iff`: the shell runs what the logger was given exactly when the shell
takes every string as it is written. -/
namespace Apue.Logger
open CLib Shell

/-! ### `main` -/

def usage_massage : String :=
  "usage: ./logger [-o file] [-p sopath] [--] cmd [cmd args ...]" ++
    "\n\t-p: set the path to logger.so, default = ./logger.so" ++
    "\n\t-o: print output to file, print to \"stderr\" if no file specified" ++
    "\n\t--: separate the arguments for logger and for the command\n"

/-- The locals of `main`. -/
structure Locals where
  so_path : List Char
  output_file : List Char
  cmd : List (List Char)
  deriving DecidableEq, Repr

def Locals.initial : Locals := ⟨"./logger.so".toList, [], []⟩

/-- The `switch` on an option. -/
def Locals.option (l : Locals) : Opt → Except String Locals
  | .opt 'p' (some optarg) => .ok { l with so_path := optarg }
  | .opt 'o' (some optarg) => .ok { l with output_file := optarg }
  | _ => .error usage_massage

/-- `cmd_parser`. The error is for `stderr`, and ends the logger. -/
def cmdParser (argv : List (List Char)) (l : Locals) : Except String Locals :=
  let (opts, rest) := getopt "p:o:".toList none argv.tail
  match opts.foldlM Locals.option l with
  | .error e => .error e
  | .ok l => .ok { l with cmd := l.cmd ++ rest }

def concat_cmd (so_path : List Char) (cmd : List (List Char)) : List Char :=
  cmd.foldl (fun logger_cmd arg => logger_cmd ++ (arg ++ [' ']))
    ("LD_PRELOAD=".toList ++ so_path ++ [' '])

/-- What the shell that `system` starts makes of a string, up to its NUL. -/
def system (s : List Char) : Option Command := read (s.takeWhile (· != '\x00'))

/-- What the shell is told. -/
def main (argv : List CString) : Except String (Option Command) :=
  match cmdParser (argv.map CString.chars) .initial with
  | .error e => .error e
  | .ok l => .ok (system (concat_cmd l.so_path l.cmd))

/-! ### The command line -/

/-- An option before the `--`. -/
inductive Flag where
  | p (so_path : CString)
  | o (output_file : CString)

def Flag.argv : Flag → List CString
  | .p so_path => [⟨['-', 'p'], by decide⟩, so_path]
  | .o output_file => [⟨['-', 'o'], by decide⟩, output_file]

def Flag.set (l : Locals) : Flag → Locals
  | .p so_path => { l with so_path := so_path.chars }
  | .o output_file => { l with output_file := output_file.chars }

/-- `argv` with options, `--` and a command. -/
def commandLine (name : CString) (flags : List Flag) (args : List CString) : List CString :=
  name :: (flags.flatMap Flag.argv ++ ⟨['-', '-'], by decide⟩ :: args)

/-- The path that the options leave. -/
def soPath (flags : List Flag) : List Char := (flags.foldl Flag.set .initial).so_path

def preload : List Char := "LD_PRELOAD".toList

/-- The shell runs `args` with the library that the options give, and nothing else. -/
def Launches (name : CString) (flags : List Flag) (args : List CString) : Prop :=
  main (commandLine name flags args) =
    .ok (some ⟨[(preload, soPath flags)], args.map CString.chars⟩)

theorem getopt_flags (flags : List Flag) (args : List (List Char)) :
    ∃ opts, getopt "p:o:".toList none
        ((flags.flatMap Flag.argv).map CString.chars ++ ['-', '-'] :: args) = (opts, args) ∧
      ∀ l : Locals, opts.foldlM Locals.option l = .ok (flags.foldl Flag.set l) := by
  induction flags with
  | nil => exact ⟨[], rfl, fun l => rfl⟩
  | cons flag flags ih =>
    obtain ⟨opts, hopts, hset⟩ := ih
    cases flag with
    | p so_path =>
      refine ⟨.opt 'p' (some so_path.chars) :: opts, ?_, fun l => hset (Flag.set l (.p so_path))⟩
      have hget := getopt_argument "p:o:".toList (c := 'p') (by decide) (by decide)
        so_path.chars ((flags.flatMap Flag.argv).map CString.chars ++ ['-', '-'] :: args)
      rwa [hopts] at hget
    | o output_file =>
      refine ⟨.opt 'o' (some output_file.chars) :: opts, ?_,
        fun l => hset (Flag.set l (.o output_file))⟩
      have hget := getopt_argument "p:o:".toList (c := 'o') (by decide) (by decide)
        output_file.chars ((flags.flatMap Flag.argv).map CString.chars ++ ['-', '-'] :: args)
      rwa [hopts] at hget

theorem foldl_set_cmd (flags : List Flag) (l : Locals) : (flags.foldl Flag.set l).cmd = l.cmd := by
  induction flags generalizing l with
  | nil => rfl
  | cons flag flags ih => cases flag <;> exact ih _

theorem cmdParser_commandLine (name : CString) (flags : List Flag) (args : List CString) :
    cmdParser ((commandLine name flags args).map CString.chars) .initial =
      .ok { flags.foldl Flag.set .initial with cmd := args.map CString.chars } := by
  obtain ⟨opts, hopts, hset⟩ := getopt_flags flags (args.map CString.chars)
  have hargv : ((commandLine name flags args).map CString.chars).tail =
      (flags.flatMap Flag.argv).map CString.chars ++ ['-', '-'] :: args.map CString.chars := by
    simp [commandLine]
  have hcmd : (flags.foldl Flag.set .initial).cmd = [] := foldl_set_cmd flags .initial
  simp only [cmdParser, hargv, hopts, hset, hcmd, List.nil_append]

theorem concat_cmd_eq (so_path : List Char) (cmd : List (List Char)) :
    concat_cmd so_path cmd = join ((preload ++ '=' :: so_path) :: cmd) := by
  have hfold : ∀ (line : List Char) (cmd : List (List Char)),
      cmd.foldl (fun logger_cmd arg => logger_cmd ++ (arg ++ [' '])) line = line ++ join cmd := by
    intro line cmd
    induction cmd generalizing line with
    | nil => simp [join]
    | cons arg cmd ih => simp [ih, join]
  have hpreload : "LD_PRELOAD=".toList = preload ++ ['='] := by decide
  rw [concat_cmd, hfold, hpreload]
  simp [join]

theorem soPath_noNul (flags : List Flag) : '\x00' ∉ soPath flags := by
  have hset : ∀ l : Locals, '\x00' ∉ l.so_path → '\x00' ∉ (flags.foldl Flag.set l).so_path := by
    induction flags with
    | nil => exact fun _ h => h
    | cons flag flags ih =>
      intro l hl
      cases flag with
      | p so_path => exact ih _ so_path.noNul
      | o output_file => exact ih _ hl
  exact hset _ (by decide)

/-- No string of `argv` ends the line early. -/
theorem system_concat_cmd (flags : List Flag) (args : List CString) :
    system (concat_cmd (soPath flags) (args.map CString.chars)) =
      read (join ((preload ++ '=' :: soPath flags) :: args.map CString.chars)) := by
  have hnoNul : ∀ c ∈ join ((preload ++ '=' :: soPath flags) :: args.map CString.chars),
      c ≠ '\x00' := by
    rintro c hc rfl
    obtain ⟨w, hw, hc⟩ := List.mem_flatMap.mp hc
    have hc : '\x00' ∈ w := by simpa using hc
    rcases List.mem_cons.mp hw with rfl | hw
    · have hpreload : '\x00' ∉ preload := by decide
      simp [hpreload, soPath_noNul] at hc
    · obtain ⟨a, -, rfl⟩ := List.mem_map.mp hw
      exact a.noNul hc
  rw [system, concat_cmd_eq, List.takeWhile_eq_self_iff.mpr fun c hc => bne_iff_ne.mpr (hnoNul c hc)]

/-- **The logger launches exactly the command it was given** when, and only when, no string of
it means anything to a shell. -/
theorem launches_iff (name : CString) (flags : List Flag) (args : List CString) :
    Launches name flags args ↔ AsWritten (soPath flags) (args.map CString.chars) := by
  have hname : Shell.name (bare preload) = true := by decide
  rw [← read_assign hname, ← system_concat_cmd, Launches, main, cmdParser_commandLine]
  constructor
  · exact fun h => Except.ok.inj h
  · exact fun h => congrArg Except.ok h

def cstring (s : String) : CString := ⟨s.toList.filter (· != '\x00'), by simp⟩

/-- A blank in an argument makes it two. -/
theorem launches_split : ¬ Launches (cstring "./logger") [] [cstring "echo", cstring "a b"] ∧
    main (commandLine (cstring "./logger") [] [cstring "echo", cstring "a b"]) =
      .ok (some ⟨[(preload, "./logger.so".toList)],
        ["echo".toList, "a".toList, "b".toList]⟩) := by
  constructor
  · unfold Launches
    decide +kernel
  · decide +kernel

end Apue.Logger

import Apue.CLib.Arguments
import Apue.Sdb.Loop

/-! The debugger's command line.

`argParser` reads `-s`, which nothing uses, and loads the first operand. `main_typed`: a
program on the command line is the same as `load` typed at the first prompt, and a command
line that `-s` and operands do not spell ends the debugger before it has loaded or read
anything. -/
namespace Apue.Sdb
open Memory CLib Transition

variable {ρ : Type}

def optstring : List Char := "s:".toList

def usage : Halt := .errquit "usage: ./hw4 [-s script] [program]"

/-- The `switch` on an option; the string is `conf.script`. -/
def option (_script : List Char) : Opt → Except Halt (List Char)
  | .opt 's' (some optarg) => .ok optarg
  | _ => .error usage

def argParser (w : World ρ) (argv : List (List Char)) (s : State ρ) : Except Halt (State ρ) := do
  let (opts, rest) := getopt optstring none argv.tail
  let _script ← opts.foldlM option []
  match rest with
  | [] => .ok s
  | program :: _ => do
    let (_, s) ← load w (String.ofList program) s
    .ok s

/-- `main`, up to `n` turns of `core`. -/
def main (w : World ρ) (argv : List CString) (turns : Nat → Turn) (n : Nat) (input : List Char) :
    Reader (State ρ) × Option Halt :=
  match argParser w (argv.map CString.chars) {} with
  | .error h => (prompt input {}, some h)
  | .ok s => core w turns n (prompt input s)

theorem takesArgument_iff {c : Char} {b : Bool} :
    takesArgument optstring c = some b ↔ c = 's' ∧ b = true := by
  have hchars : optstring = ['s', ':'] := by decide
  by_cases hs : c = 's'
  · subst hs
    simp [hchars, takesArgument, eq_comm]
  have hcolon : ¬ (':' = c ∧ c ≠ ':') := fun h => h.2 h.1.symm
  simp [hchars, takesArgument, hs, Ne.symm hs, hcolon]

theorem foldlM_option (os : List (Char × List Char)) (hos : ∀ o ∈ os, o.1 = 's') (script : List Char) :
    ∃ script', (os.map fun o => Opt.opt o.1 (some o.2)).foldlM option script = .ok script' := by
  induction os generalizing script with
  | nil => exact ⟨script, rfl⟩
  | cons o os ih =>
    obtain ⟨ho, hos'⟩ := List.forall_mem_cons.mp hos
    obtain ⟨c, a⟩ := o
    obtain rfl : c = 's' := ho
    exact ih hos' a

/-- Anything but an option with its argument ends the debugger with its usage. -/
theorem foldlM_option_cases (opts : List Opt) (script : List Char) :
    (∀ o ∈ opts, ∃ c a, o = .opt c (some a)) ∨ opts.foldlM option script = .error usage := by
  induction opts generalizing script with
  | nil => exact .inl fun o ho => absurd ho List.not_mem_nil
  | cons o opts ih =>
    rw [List.foldlM_cons]
    cases ho : option script o with
    | error h =>
      refine .inr ?_
      unfold option at ho
      split at ho
      case h_1 => cases ho
      case h_2 => rw [← Except.error.inj ho]; rfl
    | ok script' =>
      have hopt : ∃ c a, o = .opt c (some a) := by
        unfold option at ho
        split at ho
        case h_1 optarg => exact ⟨'s', optarg, rfl⟩
        case h_2 => cases ho
      exact (ih script').imp_left fun hall => List.forall_mem_cons.mpr ⟨hopt, hall⟩

/-- A command line that is spelled loads its first operand. -/
theorem argParser_spelled (w : World ρ) {argv : List (List Char)} {sp : Spelling}
    (hsp : sp.Proper optstring) (h : sp.argv = argv.tail) (s : State ρ) :
    argParser w argv s = match sp.operands with
      | [] => .ok s
      | program :: _ => (load w (String.ofList program) s).map Prod.snd := by
  have hos : ∀ o ∈ sp.options, o.1 = 's' := by
    intro o ho
    obtain ⟨i, hi, hio⟩ := List.mem_filterMap.mp ho
    have hproper := hsp i hi
    cases i with
    | operand => cases hio
    | separate c a | attached c a =>
      obtain rfl := Option.some.inj hio
      exact (takesArgument_iff.mp hproper.1).1
  have hget := getopt_spell optstring hsp
  rw [h] at hget
  obtain ⟨script, hscript⟩ := foldlM_option sp.options hos []
  simp only [argParser, hget, hscript]
  cases sp.operands with
  | nil => rfl
  | cons program more =>
    show (do let (_, s) ← load w (String.ofList program) s; Except.ok s) =
      (load w (String.ofList program) s).map Prod.snd
    cases load w (String.ofList program) s <;> rfl

/-- Any other command line ends the debugger with its usage. -/
theorem argParser_usage (w : World ρ) {argv : List (List Char)} (s : State ρ)
    (h : ¬ ∃ sp : Spelling, sp.Proper optstring ∧ sp.argv = argv.tail) :
    argParser w argv s = .error usage := by
  have hnot : ¬ Accepted optstring argv.tail :=
    fun hacc => h ((accepted_iff fun c b hc => (takesArgument_iff.mp hc).2).mp hacc)
  rcases foldlM_option_cases (getopt optstring none argv.tail).1 [] with hall | herr
  · exact absurd hall hnot
  · simp only [argParser, herr]
    rfl

/-! ### A program on the command line -/

/-- The turns of the environment, from the second prompt on. -/
def later (turns : Nat → Turn) : Nat → Turn
  | 0 => {}
  | k + 1 => turns k

def loadLine (program : List Char) : List Char := "load ".toList ++ program

theorem dispatch_load (w : World ρ) (turns : Nat → Turn) {program : List Char} (h : IsWord program)
    (s : State ρ) :
    dispatch w (later turns) 0 (loadLine program) s = (load w (String.ofList program) s).map Prod.snd := by
  have hload : IsWord "load".toList := by decide
  have hwords : words (loadLine program) = ["load".toList, program] := by
    show words ("load".toList ++ ' ' :: program) = _
    rw [words_cons hload rfl, words_self h]
  have hcmd : Command.ofWords (sdbParser (loadLine program)) = .load (String.ofList program) := by
    rw [sdbParser, hwords]
    simp [Command.ofWords, withArg]
  show (do let (_, s) ← middleware w _ (sdbParser (loadLine program)) s; Except.ok s) = _
  rw [middleware, hcmd, handle]
  cases load w (String.ofList program) s <;> rfl

/-- The run in the second place is the one in the first, after `load program`. -/
structure Typed (program : List Char) (given typed : Reader (State ρ) × Option Halt) : Prop where
  halt : typed.2 = given.2
  state : typed.1.state = given.1.state
  rest : typed.1.stream.rest = given.1.stream.rest
  handled : typed.1.handled = loadLine program :: given.1.handled

theorem core_typed (w : World ρ) (turns : Nat → Turn) {program : List Char} (h : IsWord program)
    (n : Nat) (input : List Char) : Typed program
      (match (load w (String.ofList program) {}).map Prod.snd with
        | .error e => (prompt input {}, some e)
        | .ok s => core w turns n (prompt input s))
      (core w (later turns) (n + 1) (prompt (loadLine program ++ '\n' :: input) {})) := by
  have hnone : ∀ c ∈ loadLine program, c ≠ '\n' := by
    have hload : ∀ c ∈ "load ".toList, c ≠ '\n' := by simp
    intro c hc
    rcases List.mem_append.mp hc with hc | hc
    · exact hload c hc
    · rintro rfl
      cases h.solid '\n' hc
  have hread : getline { rest := loadLine program ++ '\n' :: input } [] =
      ({ rest := input }, loadLine program) := by
    have htake : ∀ c ∈ loadLine program, decide (c ≠ '\n') = true :=
      fun c hc => decide_eq_true (hnone c hc)
    have hgood : Istream.good { rest := loadLine program ++ '\n' :: input } = true := rfl
    rw [getline, if_pos hgood]
    simp only [List.takeWhile_append_of_pos htake, List.dropWhile_append_of_pos htake]
    simp
  let r : Reader (State ρ) := prompt (loadLine program ++ '\n' :: input) {}
  have hnext : r.next = loadLine program := congrArg Prod.snd hread
  have hstream : (getline r.stream r.line).1 = { rest := input } := congrArg Prod.fst hread
  have hdispatch := dispatch_load w turns h {}
  rw [← hnext] at hdispatch
  cases hl : (load w (String.ofList program) ({} : State ρ)).map Prod.snd with
  | error e =>
    rw [hl] at hdispatch
    have hrun : core w (later turns) (n + 1) r = (r.turn {}, some e) := readLoop_error hdispatch
    rw [hrun]
    exact ⟨rfl, rfl, congrArg Istream.rest hstream, congrArg ([] ++ [·]) hnext⟩
  | ok s =>
    rw [hl] at hdispatch
    have hturn : r.turn s = ⟨{ rest := input }, loadLine program, s, [loadLine program] ++ []⟩ := by
      rw [Reader.turn, hstream, hnext]
      rfl
    have hrun : core w (later turns) (n + 1) r = readLoop (dispatch w (later turns)) n (r.turn s) :=
      readLoop_ok hdispatch
    have hshift : ∀ k l s, dispatch w (later turns) ([loadLine program].length + k) l s =
        dispatch w turns k l s := by
      intro k l s
      rw [List.length_singleton, Nat.add_comm]
      rfl
    rw [hrun, hturn, readLoop_after hshift]
    cases n with
    | zero => exact ⟨rfl, rfl, rfl, rfl⟩
    | succ n =>
      have hgood := readLoop_good (f := dispatch w turns) (n := n) (r := prompt input s) rfl
        (loadLine program)
      show Typed program (readLoop (dispatch w turns) (n + 1) (prompt input s)) _
      rw [← hgood]
      exact ⟨rfl, rfl, rfl, rfl⟩

/-- **A program on the command line is `load` typed at the first prompt**, whatever else is
there; without one the debugger starts empty, and a command line that `-s` and operands do
not spell ends it at once. -/
theorem main_typed (w : World ρ) (argv : List CString) (turns : Nat → Turn) (n : Nat)
    (input : List Char) :
    ((¬ ∃ sp : Spelling, sp.Proper optstring ∧ sp.argv = (argv.map CString.chars).tail) →
      main w argv turns n input = (prompt input {}, some usage)) ∧
    ∀ sp : Spelling, sp.Proper optstring → sp.argv = (argv.map CString.chars).tail →
      (sp.operands = [] → main w argv turns n input = core w turns n (prompt input {})) ∧
      ∀ program more, sp.operands = program :: more → IsWord program →
        Typed program (main w argv turns n input)
          (core w (later turns) (n + 1) (prompt (loadLine program ++ '\n' :: input) {})) := by
  refine ⟨fun h => ?_, fun sp hsp hargv => ⟨fun hnil => ?_, fun program more hcons hword => ?_⟩⟩
  · rw [main, argParser_usage w {} h]
  · rw [main, argParser_spelled w hsp hargv, hnil]
  · rw [main, argParser_spelled w hsp hargv, hcons]
    exact core_typed w turns hword n input

end Apue.Sdb

import Apue.CLib.Istream
import Apue.Sdb.Fragment

/-! The command loop and its input.

`core` reads with `getline` into one string, never asks the stream how that went, and hands
the words of the string to `middleware`. `core_iff`: it dispatches the lines of its input,
once and in order, up to the first exit, and ends, exactly when the last of these lines is
the first command that does not come back to the prompt, and ends the debugger. -/
namespace Apue.Sdb
open Memory CLib Transition

variable {ρ : Type}

/-- One turn of the environment: whether the child is killed at the prompt, and what the
command finds. -/
structure Turn where
  env : Env := {}
  killed : Bool := false

def sdbParser (command : List Char) : List String := (words command).map String.ofList

/-- What `core` does with a line. -/
def dispatch (w : World ρ) (turns : Nat → Turn) (k : Nat) (command : List Char) (s : State ρ) :
    Except Halt (State ρ) := do
  let s := if (turns k).killed then s.kill else s
  let (_, s) ← middleware w (turns k).env (sdbParser command) s
  .ok s

/-- `n` turns of the loop. -/
def core (w : World ρ) (turns : Nat → Turn) (n : Nat) (r : Reader (State ρ)) :
    Reader (State ρ) × Option Halt :=
  readLoop (dispatch w turns) n r

/-- The loop at its first prompt. -/
def prompt (input : List Char) (s : State ρ) : Reader (State ρ) := { stream := { rest := input }, state := s }

/-- The debugger is gone, by `exit` or by `abort`. -/
def Halt.ends : Halt → Bool
  | .quit | .errquit _ | .abort => true
  | .undefined | .waiting => false

def isExit (command : List Char) : Bool := Command.ofWords (sdbParser command) = .exit

/-- The lines of the input up to the first `exit` or `q`. -/
def script (input : List Char) : List (List Char) := upTo isExit (lines input)

/-- `core` dispatches exactly the script, and ends. -/
def ConsumesOnce (w : World ρ) (turns : Nat → Turn) (input : List Char) (s : State ρ) : Prop :=
  ∃ n r h, core w turns n (prompt input s) = (r, some h) ∧ h.ends = true ∧ r.handled = script input

theorem dispatch_exit (w : World ρ) (turns : Nat → Turn) (k : Nat) {command : List Char} (s : State ρ)
    (h : isExit command = true) : dispatch w turns k command s = .error .quit := by
  have hexit : Command.ofWords (sdbParser command) = .exit := of_decide_eq_true h
  simp only [dispatch, middleware, hexit, handle]
  rfl

/-- **`core` dispatches exactly the script and ends exactly when its last line is the first
command that does not come back to the prompt, and ends the debugger.** -/
theorem core_iff (w : World ρ) (turns : Nat → Turn) (input : List Char) (s : State ρ) :
    ConsumesOnce w turns input s ↔
      endsAtLast (dispatch w turns) Halt.ends 0 (script input) s = true :=
  consumes_iff (r := prompt input s)
    (fun k _ s hexit => ⟨.quit, dispatch_exit w turns k s hexit⟩) (left_init input)

example : endsAtLast (dispatch walk fun _ => {}) Halt.ends 0 (script "list\nexit\nhelp".toList)
    walkTarget.loaded = true := by decide +kernel

theorem dispatch_list (w : World ρ) (turns : Nat → Turn) (k : Nat) (s : State ρ) :
    ∃ t, dispatch w turns k "list".toList s = .ok t := by
  have hlist : Command.ofWords (sdbParser "list".toList) = .list := by decide +kernel
  simp only [dispatch, middleware, hlist, handle]
  exact ⟨_, rfl⟩

/-- A `list` without a newline is dispatched at every turn. -/
theorem core_unterminated (w : World ρ) (turns : Nat → Turn) (s : State ρ) (n : Nat) :
    ∃ r, core w turns (n + 1) (prompt "list".toList s) = (r, none) ∧
      r.handled = List.replicate (n + 1) "list".toList := by
  obtain ⟨t, ht⟩ := dispatch_list w turns 0 s
  have hread : getline { rest := "list".toList } [] = ({ rest := [], eof := true }, "list".toList) := by
    decide +kernel
  have hnext : (prompt "list".toList s).next = "list".toList := congrArg Prod.snd hread
  have hline : ((prompt "list".toList s).turn t).line = "list".toList := hnext
  have hend : ((prompt "list".toList s).turn t).stream.good = false := by
    show (getline { rest := "list".toList } []).1.good = false
    rw [hread]
    rfl
  obtain ⟨r, hrun, hhandled⟩ := readLoop_ended (f := dispatch w turns) (n := n) hend (by
    rw [hline]
    exact dispatch_list w turns)
  refine ⟨r, ?_, ?_⟩
  · rw [core, readLoop_ok (by rw [hnext]; exact ht), hrun]
  · rw [hhandled, hline, Reader.turn, hnext]
    rfl

/-- So the loop never ends. -/
theorem core_unending : ¬ ConsumesOnce walk (fun _ => {}) "list".toList walkTarget.loaded := by
  rintro ⟨n, r, h, hrun, -⟩
  cases n with
  | zero => cases hrun
  | succ n =>
    obtain ⟨r', hnone, -⟩ := core_unterminated walk (fun _ => {}) walkTarget.loaded n
    rw [hnone] at hrun
    cases hrun

end Apue.Sdb

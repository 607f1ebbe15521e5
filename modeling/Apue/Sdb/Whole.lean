import Apue.Sdb.Main
import Apue.Sdb.Screen

/-! Whole runs of the debugger.

The turns of `core` are the actions of a session (`core_path`), and it quits at the first
`exit` of its input and nowhere else (`core_quit`). So what a run of `main` shows, from its
command line to its exit, is what the ideal debugger answers to the lines typed
(`main_screen`). -/
namespace Apue.Sdb
open Memory CLib Transition

variable {ρ : Type} {w : World ρ} {p : Target} {starts : Set Addr}
  {jumps : Child ρ → Addr → Prop} {s t : State ρ} {e : Env}
  {turns : Nat → Turn} {n : Nat} {input : List Char}

/-- The actions of a turn. -/
def Turn.actions (turn : Turn) (command : List Char) : List Action :=
  (if turn.killed then [.killed] else []) ++ [.command (Command.ofWords (sdbParser command)) turn.env]

/-- The computation does not quit. -/
def Stays {α : Type} (x : Except Halt α) : Prop := x ≠ .error .quit

theorem Stays.ok {α : Type} (a : α) : Stays (.ok a) := by
  intro h
  cases h

theorem Stays.bind {α β : Type} {x : Except Halt α} {f : α → Except Halt β} (hx : Stays x)
    (hf : ∀ a, Stays (f a)) : Stays (x >>= f) := by
  cases x with
  | error h => exact fun heq => hx (congrArg Except.error (Except.error.inj heq))
  | ok a => exact hf a

end Apue.Sdb

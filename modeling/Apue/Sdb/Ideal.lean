import Apue.Sdb.Armed
import Apue.Sdb.Continue
import Apue.Transition.Simulation

/-! What the debugger is for.

The ideal debugger has the program, run by itself, and a list of addresses to stop at. It
writes nothing into the program: `si` is one instruction, `cont` is as many as it takes to
come to one of the addresses. -/
namespace Apue.Sdb
open Memory CLib Transition

variable {ρ : Type}

/-- The program, if it runs, and the addresses to stop at, in the order of their numbers. -/
structure Ideal (ρ : Type) where
  child : Option (Child ρ) := none
  marks : List Addr := []

def Target.InRange (p : Target) (a : Addr) : Prop :=
  ({ entrypoint := p.entrypoint, textsize := p.textsize } : Config).InRange a

instance (p : Target) (a : Addr) : Decidable (p.InRange a) := inferInstanceAs (Decidable (Config.InRange _ a))

/-- The program comes to one of the addresses, after an instruction or more and for the
first time, at `d`. -/
structure Comes (w : World ρ) (M : List Addr) (c : Child ρ) (k : Nat) (d : Child ρ) : Prop where
  pos : 1 ≤ k
  comes : ahead w k c = some d
  on : d.rip ∈ M
  first : ∀ j d', 1 ≤ j → j < k → ahead w j c = some d' → d'.rip ∉ M

/-- The program exits before it comes to one of the addresses. -/
structure Leaves (w : World ρ) (M : List Addr) (c : Child ρ) (k : Nat) : Prop where
  exits : ∃ d code, ahead w k c = some d ∧ stepChild w d = .exited code
  first : ∀ j d', 1 ≤ j → j ≤ k → ahead w j c = some d' → d'.rip ∉ M

/-- The command has nothing to do. -/
def Ideal.Idles (p : Target) (d : Ideal ρ) : Command → Prop
  | .break_ addr => d.child = none ∨ ¬ p.InRange (strtoull addr) ∨ strtoull addr ∈ d.marks
  | .delete id => d.child = none ∨ ∀ did : Nat, stoi id = .ok did → d.marks.length ≤ did
  | .start => d.child ≠ none
  | .si | .cont | .set _ _ => d.child = none
  | .run | .exit => False
  | _ => True

inductive Ideal.Step (w : World ρ) (p : Target) : Ideal ρ → Command → Ideal ρ → Prop where
  | idles {d : Ideal ρ} {cmd : Command} : d.Idles p cmd → Step w p d cmd d
  | breaks {c : Child ρ} {M : List Addr} {addr : String} :
      p.InRange (strtoull addr) → strtoull addr ∉ M →
      Step w p ⟨some c, M⟩ (.break_ addr) ⟨some c, M ++ [strtoull addr]⟩
  | deletes {c : Child ρ} {M : List Addr} {id : String} {did : Nat} :
      stoi id = .ok did → did < M.length →
      Step w p ⟨some c, M⟩ (.delete id) ⟨some c, M.eraseIdx did⟩
  | starts {M : List Addr} : Step w p ⟨none, M⟩ .start ⟨some (w.spawned p.program), M⟩
  | steps {c c' : Child ρ} {M : List Addr} :
      stepChild w c = .ran c' → Step w p ⟨some c, M⟩ .si ⟨some c', M⟩
  | stepsOut {c : Child ρ} {M : List Addr} {code : Byte} :
      stepChild w c = .exited code → Step w p ⟨some c, M⟩ .si ⟨none, M⟩
  | conts {c d : Child ρ} {M : List Addr} {k : Nat} :
      Comes w M c k d → Step w p ⟨some c, M⟩ .cont ⟨some d, M⟩
  | contsOut {c : Child ρ} {M : List Addr} {k : Nat} :
      Leaves w M c k → Step w p ⟨some c, M⟩ .cont ⟨none, M⟩
  | sets {c : Child ρ} {M : List Addr} {val : String} :
      Step w p ⟨some c, M⟩ (.set "rip" val) ⟨some (c.at (strtoull val)), M⟩
  | runs {M : List Addr} {d : Ideal ρ} :
      Step w p ⟨some (w.spawned p.program), M⟩ .cont d → Step w p ⟨none, M⟩ .run d
  | reruns {c : Child ρ} {M : List Addr} {d : Ideal ρ} :
      Step w p ⟨some c, M⟩ .cont d → Step w p ⟨some c, M⟩ .run d

/-- The ideal debugger at a prompt; nobody kills its program there. -/
def Ideal.Act (w : World ρ) (p : Target) (d : Ideal ρ) : Action → Ideal ρ → Prop
  | .command cmd _, d' => Step w p d cmd d'
  | .killed, _ => False

/-- What can be seen of the ideal debugger: the numbered addresses, the registers, and
the memory of the program off the breakpoints. -/
structure Agrees (s : State ρ) (d : Ideal ρ) : Prop where
  marks : s.conf.bps.map Breakpoint.addr = d.marks
  child : match d.child with
    | none => s.conf.status = .loaded ∧ s.proc = .gone
    | some c => s.conf.status = .running ∧ ∃ c', s.proc = .stopped c' ∧ c'.regs = c.regs ∧
        c'.rest = c.rest ∧ ∀ x, x ∉ d.marks → c'.mem x = c.mem x

end Apue.Sdb

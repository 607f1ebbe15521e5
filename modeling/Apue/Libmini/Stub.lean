import Apue.X86.Machine
import Mathlib.Data.BitVec

/-! The stubs of the system calls. -/
namespace Apue.Libmini
open Memory X86

def gensysBody (number : Word) : List Instr :=
  [.push .r10, .mov .r10 .rcx, .movImm .rax number, .syscall, .pop .r10]

/-- `gensys`: a system call takes its fourth argument in `r10`. -/
def gensys (number : Word) : List Instr := gensysBody number ++ [.ret]

variable {κ : Type} {code : Code} {sys : Kernel κ} {s : State κ}

/-- What the kernel answers to a stub. -/
def stubReply (sys : Kernel κ) (number : Word) (s : State κ) : Reply κ :=
  sys { s.request with number, r10 := s.regs .rcx }
    (poke s.mem (s.regs .rsp - 8) (s.regs .r10)) s.kernel

/-- The machine where a stub entered in `s` has returned: it loses `rax`, `rcx` and `r11`
only. -/
structure StubReturns (sys : Kernel κ) (number : Word) (s t : State κ) : Prop where
  rip : t.rip = peek (stubReply sys number s).mem (s.regs .rsp)
  mem : t.mem = (stubReply sys number s).mem
  kernel : t.kernel = (stubReply sys number s).kernel
  rax : t.regs .rax = (stubReply sys number s).rax
  rsp : t.regs .rsp = s.regs .rsp + 8
  regs : ∀ r, r ≠ .rax → r ≠ .rcx → r ≠ .r11 → r ≠ .rsp → t.regs r = s.regs r

/-- **A stub** makes its system call and returns, as long as the kernel leaves the saved `r10`
on the stack alone. -/
theorem run_gensys {number : Word} (h : Placed code s.rip (gensys number))
    (hr10 : peek (stubReply sys number s).mem (s.regs .rsp - 8) = s.regs .r10) :
    ∃ t : State κ, (∀ n, run code sys (6 + n) s = run code sys n t) ∧ StubReturns sys number s t := by
  have hrun : ∀ n, run code sys (6 + n) s = run code sys n (block sys (gensysBody number) s).ret := by
    intro n
    have hlen : 6 + n = (gensysBody number).length + (n + 1) := by
      simp [gensysBody]
      omega
    rw [hlen]
    exact run_ret sys (gensysBody number) rfl h n
  refine ⟨_, hrun, ?_, ?_, ?_, ?_, ?_, fun r hrax hrcx hr11 hrsp => ?_⟩
  · simp [gensysBody, effect, stubReply, State.request]
  · simp [gensysBody, effect, stubReply, State.request]
  · simp [gensysBody, effect, stubReply, State.request]
  · simp [gensysBody, effect, stubReply, State.request]
  · simp [gensysBody, effect]
  · by_cases h10 : r = .r10
    · subst h10
      simpa [gensysBody, effect, stubReply, State.request] using hr10
    · simp [gensysBody, effect, hrax, hrcx, hr11, hrsp, h10]

end Apue.Libmini

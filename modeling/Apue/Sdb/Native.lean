import Apue.Sdb.Intact

/-! The program by itself.

`Native` are the states a program gets into when nobody writes into it: those of its own
run, and of the runs from where it is sent. A `Program` of the results about stepping and
continuing stores nothing into its text, has no trap byte where it executes one, and of
the places for breakpoints reads only the one it is at. A child that is intact and not at
a trap then takes exactly the step it would take by itself. -/
namespace Apue.Sdb
open Memory CLib Transition

variable {ρ : Type}

/-- The child with the memory it would have if nobody wrote into it. -/
def Child.bare (c : Child ρ) : Child ρ := { c with mem := c.own }

/-- The child at another address. -/
def Child.at (c : Child ρ) (rip : Addr) : Child ρ := { c with regs := c.regs.set ripIndex rip }

/-- The states of a program that runs from its entry, and that `jumps` sends from a state to
an address, as a `set rip` of the session does. -/
inductive Native (w : World ρ) (program : String) (jumps : Child ρ → Addr → Prop) : Child ρ → Prop where
  | entry : Native w program jumps (w.spawned program)
  | step {c c' : Child ρ} :
      Native w program jumps c → stepChild w c = .ran c' → Native w program jumps c'
  | jump {c : Child ρ} {rip : Addr} :
      Native w program jumps c → jumps c rip → Native w program jumps (c.at rip)

/-- A program that does not look at `starts`, the instruction starts where breakpoints may
be: its instructions read no byte there but their own first. -/
structure Program (w : World ρ) (p : Target) (starts : Set Addr)
    (jumps : Child ρ → Addr → Prop) : Prop where
  trapfree : ∀ c, Native w p.program jumps c → c.mem c.rip ≠ 0xcc
  keeps : ∀ c regs st rest, Native w p.program jumps c →
    w.exec c.mem c.regs c.rest = .next regs st rest → ∀ x ∈ p.text, st x = none
  reads : ∀ c m, Native w p.program jumps c →
    (∀ x, m x ≠ c.mem x → x ∈ starts ∧ x ≠ c.rip) →
    w.exec m c.regs c.rest = w.exec c.mem c.regs c.rest

@[simp] theorem Child.at_rip (c : Child ρ) (rip : Addr) : (c.at rip).rip = rip := by
  simp [Child.at, Child.rip]

/-- Moving the child where it is changes nothing. -/
theorem Child.at_self (c : Child ρ) : c.at c.rip = c := by
  have hregs : c.regs.set ripIndex c.rip = c.regs := by
    funext i
    by_cases hi : i = ripIndex
    · simp [Regs.set, hi, Child.rip, Regs.rip]
    · simp [Regs.set, hi]
  rw [Child.at, hregs]

theorem Child.at_at (c : Child ρ) (x y : Addr) : (c.at x).at y = c.at y := by
  have hregs : (c.regs.set ripIndex x).set ripIndex y = c.regs.set ripIndex y := by
    funext i
    by_cases hi : i = ripIndex <;> simp [Regs.set, hi]
  simp only [Child.at, hregs]

section Simulation
variable {w : World ρ} {p : Target} {starts A : Set Addr}
  {jumps : Child ρ → Addr → Prop} {bps : List Breakpoint}
  {c c' : Child ρ}

/-- A trap under the program counter is a breakpoint's. -/
theorem rip_mem_of_trapped (hp : Program w p starts jumps) (hn : Native w p.program jumps c.bare)
    (hi : Intact w p bps A c) (h : c.mem c.rip = 0xcc) : c.rip ∈ A := by
  by_contra hA
  exact hp.trapfree c.bare hn ((hi.traps.clear c.rip hA).symm.trans h)

theorem mem_rip_of_notMem (hp : Program w p starts jumps) (hn : Native w p.program jumps c.bare)
    (hi : Intact w p bps A c) (hA : c.rip ∉ A) : c.mem c.rip ≠ 0xcc :=
  fun h => hA (rip_mem_of_trapped hp hn hi h)

/-- The child's instruction is the program's. -/
theorem exec_native (hp : Program w p starts jumps) (hsub : addrs bps ⊆ starts)
    (hn : Native w p.program jumps c.bare) (hi : Intact w p bps A c) (hA : c.rip ∉ A) :
    w.exec c.mem c.regs c.rest = w.exec c.own c.regs c.rest := by
  refine hp.reads c.bare c.mem hn fun x hx => ?_
  have hxA : x ∈ A := by
    by_contra hxA
    exact hx (hi.traps.clear x hxA)
  exact ⟨hsub (hi.sub hxA), fun he => hA (he ▸ hxA)⟩

/-- **An intact child that is not at a trap takes the step it would take by itself.** -/
theorem stepChild_native (hp : Program w p starts jumps) (hsub : addrs bps ⊆ starts)
    (hbps : addrs bps ⊆ p.text) (hn : Native w p.program jumps c.bare) (hi : Intact w p bps A c) (hA : c.rip ∉ A) :
    match w.exec c.own c.regs c.rest with
    | .next regs st rest =>
      let c' : Child ρ := ⟨regs, store c.mem st, rest, store c.own st⟩
      stepChild w c = .ran c' ∧ stepChild w c.bare = .ran c'.bare ∧ Intact w p bps A c'
    | .exit code => stepChild w c = .exited code ∧ stepChild w c.bare = .exited code
    | .fault => stepChild w c = .faulted ∧ stepChild w c.bare = .faulted := by
  have hcc := mem_rip_of_notMem hp hn hi hA
  have hbare : c.bare.mem c.bare.rip ≠ 0xcc := hp.trapfree c.bare hn
  have hexec := exec_native hp hsub hn hi hA
  have hchild : stepChild w c = match w.exec c.own c.regs c.rest with
      | .next regs st rest => .ran ⟨regs, store c.mem st, rest, store c.own st⟩
      | .exit code => .exited code
      | .fault => .faulted := by
    rw [← hexec]
    exact if_neg hcc
  have hnative : stepChild w c.bare = match w.exec c.own c.regs c.rest with
      | .next regs st rest => .ran ⟨regs, store c.own st, rest, store c.own st⟩
      | .exit code => .exited code
      | .fault => .faulted := by
    rw [stepChild, if_neg hbare]
    rfl
  cases he : w.exec c.own c.regs c.rest with
  | next regs st rest =>
    have hst := hp.keeps c.bare regs st rest hn he
    rw [he] at hchild hnative
    refine ⟨hchild, hnative, fun x hx => ?_, hi.traps.store fun x hx => ?_, hi.sub⟩
    · show store c.own st x = p.image w x
      rw [store_none c.own (hst x hx)]
      exact hi.text x hx
    · exact hst x (hbps (hi.sub hx))
  | exit code =>
    rw [he] at hchild hnative
    exact ⟨hchild, hnative⟩
  | fault =>
    rw [he] at hchild hnative
    exact ⟨hchild, hnative⟩

/-- What an intact native child is after an instruction of its own. -/
theorem ran_native (hp : Program w p starts jumps) (hsub : addrs bps ⊆ starts)
    (hbps : addrs bps ⊆ p.text) (hn : Native w p.program jumps c.bare) (hi : Intact w p bps A c)
    (h : stepChild w c = .ran c') :
    stepChild w c.bare = .ran c'.bare ∧ Native w p.program jumps c'.bare ∧ Intact w p bps A c' := by
  have hA : c.rip ∉ A := fun hA => (stepChild_ran h).1 (hi.traps.mark c.rip hA)
  have hstep := stepChild_native hp hsub hbps hn hi hA
  split at hstep
  case h_1 regs st rest _ =>
    obtain ⟨hran, hbare, hi'⟩ := hstep
    rw [hran] at h
    cases h
    exact ⟨hbare, hn.step hbare, hi'⟩
  case h_2 =>
    rw [hstep.1] at h
    cases h
  case h_3 =>
    rw [hstep.1] at h
    cases h

/-- A child stopped by a trap: one past a breakpoint it would execute by itself. -/
structure TrapStop (w : World ρ) (p : Target) (jumps : Child ρ → Addr → Prop) (bps : List Breakpoint)
    (A : Set Addr) (c₁ c : Child ρ) : Prop where
  native : Native w p.program jumps c₁.bare
  intact : Intact w p bps A c₁
  armed : c₁.rip ∈ A
  stop : c = c₁.at (c₁.rip + 1)

/-- `cont` ends at a trap, or where a signal stops the child. -/
theorem resume_cont_native (hp : Program w p starts jumps) (hsub : addrs bps ⊆ starts)
    (hbps : addrs bps ⊆ p.text) {r : Resume} {s : State ρ} {c₀ : Child ρ}
    (hc₀ : s.proc = .stopped c₀) (h : resume w false r s = .ok (.stopped c))
    (hn : Native w p.program jumps c₀.bare) (hi : Intact w p bps A c₀) :
    (∃ c₁, TrapStop w p jumps bps A c₁ c) ∨
    Native w p.program jumps c.bare ∧ Intact w p bps A c ∧
      (r.after = .signalled ∨ stepChild w c = .faulted) := by
  let I := fun c => Native w p.program jumps c.bare ∧ Intact w p bps A c
  let Q := fun c => (∃ c₁, TrapStop w p jumps bps A c₁ c) ∨
    I c ∧ (r.after = .signalled ∨ stepChild w c = .faulted)
  have hran : ∀ c c', I c → stepChild w c = .ran c' → I c' :=
    fun c c' hI hs => (ran_native hp hsub hbps hI.1 hI.2 hs).2
  have htrap : ∀ c c', I c → stepChild w c = .trapped c' → Q c' := by
    intro c c' hI hs
    obtain ⟨hcc, rfl⟩ := stepChild_trapped hs
    exact .inl ⟨c, hI.1, hI.2, rip_mem_of_trapped hp hI.1 hI.2 hcc, rfl⟩
  have hdone : ∀ c, I c → false = true ∨ r.after = .signalled ∨ stepChild w c = .faulted → Q c :=
    fun c hI hwhy => .inr ⟨hI, hwhy.resolve_left nofun⟩
  have hQ : Q c := resume_rule hran htrap hdone hc₀ h ⟨hn, hi⟩
  exact hQ.imp_right fun hI => ⟨hI.1.1, hI.1.2, hI.2⟩

/-- A single step of a child that is not at a trap ends at the next instruction, or where
it was. -/
theorem resume_si_native (hp : Program w p starts jumps) (hsub : addrs bps ⊆ starts)
    (hbps : addrs bps ⊆ p.text) {r : Resume} {s : State ρ} {c₀ : Child ρ}
    (hc₀ : s.proc = .stopped c₀) (h : resume w true r s = .ok (.stopped c))
    (hn : Native w p.program jumps c₀.bare) (hi : Intact w p bps A c₀) (hA : c₀.rip ∉ A) :
    Native w p.program jumps c.bare ∧ Intact w p bps A c := by
  rcases single_cases hc₀ h with hran | htrap | rfl
  · exact (ran_native hp hsub hbps hn hi hran).2
  · exact absurd (stepChild_trapped htrap).1 (mem_rip_of_notMem hp hn hi hA)
  · exact ⟨hn, hi⟩

end Simulation

end Apue.Sdb

import Apue.Sdb.Config

/-! The traced child and the debugger's view of it.

The processor, the program images and the mapped addresses are given (`World`).
A child runs one instruction at a time (`stepChild`): a trap byte under the program
counter stops it one past the byte, anything else is the processor's. How a wait
ends is the environment's choice (`Resume`): how many instructions the child gets,
and what happens to it then if it has not stopped by itself.

`Child.own` and `State.taken` are ghosts: the first is the memory the child would
have if nobody wrote into it but itself, the second the breakpoint the last
`restoreifbreak` took out. No code reads them. -/
namespace Apue.Sdb
open Memory

/-- The words of the user area, by index. -/
abbrev Regs := Nat → Word

/-- `reg_offset["rip"]`: a key of the initial map, and no command removes keys. -/
def ripIndex : Nat := 16

def Regs.rip (r : Regs) : Addr := r ripIndex

def Regs.set (r : Regs) (i : Nat) (v : Word) : Regs := fun j => if j = i then v else r j

@[simp] theorem Regs.rip_set (r : Regs) (v : Word) : (r.set ripIndex v).rip = v := by
  simp [Regs.rip, Regs.set]

/-- What one instruction does. -/
inductive Event (ρ : Type) where
  /-- It completes, storing the bytes `stores` names. -/
  | next (regs : Regs) (stores : Addr → Option Byte) (rest : ρ)
  /-- The process exits. -/
  | exit (code : Byte)
  /-- It raises a signal and is not executed. -/
  | fault

/-- A decoded instruction of the disassembler. -/
structure Insn where
  address : Addr
  bytes : List Byte
  mnemonic : String
  opStr : String

/-- A program image as `execvp` leaves it. -/
structure Image (ρ : Type) where
  regs : Regs
  mem : Mem
  rest : ρ

/-- What the debugger runs in: the processor, the files, the addresses `ptrace` can
reach (the lower half of the address space is the user's), the values it lets into the
user area (any program counter, but not any selector), the kernel's map listing and the
disassembler library. -/
structure World (ρ : Type) where
  exec : Mem → Regs → ρ → Event ρ
  load : String → Image ρ
  file : String → Option (List Byte)
  file_empty : file "" = none
  mapped : Addr → Bool
  mapped_user : ∀ a, mapped a = true → a.toNat < 2 ^ 63
  takes : Nat → Word → Bool
  takes_rip : ∀ v, takes ripIndex v = true
  maps : ρ → List String
  csDisasm : List Byte → Addr → List Insn
  csBytesSize : Nat

structure Child (ρ : Type) where
  regs : Regs
  mem : Mem
  rest : ρ
  own : Mem

variable {ρ : Type}

def Child.rip (c : Child ρ) : Addr := c.regs.rip

/-- The child right after a successful `execvp`. -/
def World.spawned (w : World ρ) (program : String) : Child ρ :=
  let i := w.load program
  ⟨i.regs, i.mem, i.rest, i.mem⟩

/-- The processor stores nothing into `T`: the pages are read-only. -/
def World.Protects (w : World ρ) (T : Set Addr) : Prop :=
  ∀ m r x regs st rest, w.exec m r x = .next regs st rest → ∀ a ∈ T, st a = none

/-! ### Running the child -/

inductive Step (ρ : Type) where
  | ran (c : Child ρ)
  | trapped (c : Child ρ)
  | exited (code : Byte)
  | faulted

/-- One instruction. -/
def stepChild (w : World ρ) (c : Child ρ) : Step ρ :=
  if c.mem c.rip = 0xcc then .trapped { c with regs := c.regs.set ripIndex (c.rip + 1) }
  else
    match w.exec c.mem c.regs c.rest with
    | .next regs st rest => .ran ⟨regs, store c.mem st, rest, store c.own st⟩
    | .exit code => .exited code
    | .fault => .faulted

/-- What `waitpid` reports. -/
inductive Wait (ρ : Type) where
  | stopped (c : Child ρ)
  | exited (code : Byte)
  | signaled

/-- What becomes of a child that has run its instructions without stopping: it goes
on (the wait does not return), another signal stops it, or it is killed. -/
inductive After where
  | running
  | signalled
  | killed
  deriving DecidableEq, Repr

structure Resume where
  steps : Nat
  after : After := .running
  deriving DecidableEq, Repr

def After.wait (after : After) (c : Child ρ) : Option (Wait ρ) :=
  match after with
  | .running => none
  | .signalled => some (.stopped c)
  | .killed => some .signaled

/-- `PTRACE_CONT`, up to the next report; `none` while there is none. -/
def runChild (w : World ρ) (after : After) : Nat → Child ρ → Option (Wait ρ)
  | 0, c => after.wait c
  | n + 1, c =>
    match stepChild w c with
    | .ran c' => runChild w after n c'
    | .trapped c' => some (.stopped c')
    | .exited code => some (.exited code)
    | .faulted => some (.stopped c)

/-- `PTRACE_SINGLESTEP`, up to the next report. -/
def singleStep (w : World ρ) (after : After) : Nat → Child ρ → Option (Wait ρ)
  | 0, c => after.wait c
  | _ + 1, c =>
    match stepChild w c with
    | .ran c' => some (.stopped c')
    | .trapped c' => some (.stopped c')
    | .exited code => some (.exited code)
    | .faulted => some (.stopped c)

/-! ### The debugger's state -/

/-- The process `conf.child`: not there, stopped under trace, or killed and not yet
waited for. -/
inductive Proc (ρ : Type) where
  | gone
  | stopped (c : Child ρ)
  | zombie

structure State (ρ : Type) where
  conf : Config := {}
  regOffset : List (String × Nat) := regOffset
  proc : Proc ρ := .gone
  out : List String := []
  taken : Option Breakpoint := none

/-- Why the debugger does not come back to its prompt. -/
inductive Halt where
  /-- `exit(0)`. -/
  | quit
  /-- `perror` and `exit(-1)`. -/
  | errquit (msg : String)
  /-- An exception nothing catches. -/
  | abort
  /-- The C++ program reads outside a vector or writes outside a buffer. -/
  | undefined
  /-- `waitpid` has not returned. -/
  | waiting
  deriving DecidableEq, Repr

/-- `writemsg`. -/
def State.say (s : State ρ) (msg : String) : State ρ := { s with out := s.out ++ [msg] }

def State.debug (s : State ρ) (msg : String) : State ρ := s.say ("** " ++ msg)

/-! ### `ptrace` -/

/-- `ptrace` moves whole words: all eight bytes have to be mapped. -/
def World.reaches (w : World ρ) (a : Addr) : Bool :=
  (List.range 8).all fun k => w.mapped (a + BitVec.ofNat 64 k)

/-- A failed read gives -1, as the debugger never looks at `errno`. -/
def peektext (w : World ρ) (s : State ρ) (a : Addr) : Word :=
  match s.proc with
  | .stopped c => if w.reaches a then peek c.mem a else -1
  | _ => -1

def poketext (w : World ρ) (s : State ρ) (a : Addr) (v : Word) : Except Halt (State ρ) :=
  match s.proc with
  | .stopped c =>
    if w.reaches a then .ok { s with proc := .stopped { c with mem := poke c.mem a v } }
    else .error (.errquit "ptrace poketext")
  | _ => .error (.errquit "ptrace poketext")

def peekuser (s : State ρ) (i : Nat) : Word :=
  match s.proc with
  | .stopped c => c.regs i
  | _ => -1

def pokeuser (w : World ρ) (s : State ρ) (i : Nat) (v : Word) (msg : String) :
    Except Halt (State ρ) :=
  match s.proc with
  | .stopped c =>
    if w.takes i v then .ok { s with proc := .stopped { c with regs := c.regs.set i v } }
    else .error (.errquit msg)
  | _ => .error (.errquit msg)

/-- Resuming the child and waiting for it. -/
def resume (w : World ρ) (single : Bool) (r : Resume) (s : State ρ) : Except Halt (Wait ρ) :=
  match s.proc with
  | .stopped c =>
    match (if single then singleStep w r.after r.steps c else runChild w r.after r.steps c) with
    | some wt => .ok wt
    | none => .error .waiting
  | .zombie => .ok .signaled
  | .gone => .error (.errquit "waitpid")

/-! ### What the primitives do -/

theorem poketext_ok {w : World ρ} {s s' : State ρ} {a : Addr} {v : Word}
    (h : poketext w s a v = .ok s') :
    ∃ c, s.proc = .stopped c ∧ w.reaches a = true ∧
      s' = { s with proc := .stopped { c with mem := poke c.mem a v } } := by
  unfold poketext at h
  split at h
  case h_1 c hc =>
    split at h
    case isTrue hr => exact ⟨c, hc, hr, (Except.ok.inj h).symm⟩
    case isFalse => cases h
  case h_2 => cases h

theorem poketext_stopped {w : World ρ} {s : State ρ} {c : Child ρ} {a : Addr} (v : Word)
    (hc : s.proc = .stopped c) (hr : w.reaches a = true) :
    poketext w s a v = .ok { s with proc := .stopped { c with mem := poke c.mem a v } } := by
  simp only [poketext, hc, hr, if_true]

theorem peektext_stopped {w : World ρ} {s : State ρ} {c : Child ρ} {a : Addr}
    (hc : s.proc = .stopped c) (hr : w.reaches a = true) : peektext w s a = peek c.mem a := by
  simp only [peektext, hc, hr, if_true]

theorem pokeuser_ok {w : World ρ} {s s' : State ρ} {i : Nat} {v : Word} {msg : String}
    (h : pokeuser w s i v msg = .ok s') :
    ∃ c, s.proc = .stopped c ∧
      s' = { s with proc := .stopped { c with regs := c.regs.set i v } } := by
  unfold pokeuser at h
  split at h
  case h_1 c hc =>
    split at h
    case isTrue => exact ⟨c, hc, (Except.ok.inj h).symm⟩
    case isFalse => cases h
  case h_2 => cases h

theorem pokeuser_stopped {w : World ρ} {s : State ρ} {c : Child ρ} {i : Nat} {v : Word} (msg : String)
    (hc : s.proc = .stopped c) (ht : w.takes i v = true) :
    pokeuser w s i v msg = .ok { s with proc := .stopped { c with regs := c.regs.set i v } } := by
  simp only [pokeuser, hc, ht, if_true]

/-- Only a child that is there stops. -/
theorem resume_stopped {w : World ρ} {single : Bool} {r : Resume} {s : State ρ} {c : Child ρ}
    (h : resume w single r s = .ok (.stopped c)) :
    ∃ c₀, s.proc = .stopped c₀ ∧
      (if single then singleStep w r.after r.steps c₀ else runChild w r.after r.steps c₀) =
        some (.stopped c) := by
  unfold resume at h
  split at h
  case h_1 c₀ hc₀ =>
    split at h
    case h_1 wt hwt =>
      cases h
      exact ⟨c₀, hc₀, hwt⟩
    case h_2 => cases h
  case h_2 => cases h
  case h_3 => cases h

/-- The child's own stores reach its memory and its ghost alike. -/
theorem stepChild_ran {w : World ρ} {c c' : Child ρ} (h : stepChild w c = .ran c') :
    c.mem c.rip ≠ 0xcc ∧ ∃ regs st rest, w.exec c.mem c.regs c.rest = .next regs st rest ∧
      c' = ⟨regs, store c.mem st, rest, store c.own st⟩ := by
  unfold stepChild at h
  split at h
  case isTrue => cases h
  case isFalse hcc =>
    refine ⟨hcc, ?_⟩
    split at h
    case h_1 regs st rest he => exact ⟨regs, st, rest, he, by cases h; rfl⟩
    case h_2 => cases h
    case h_3 => cases h

theorem stepChild_trapped {w : World ρ} {c c' : Child ρ} (h : stepChild w c = .trapped c') :
    c.mem c.rip = 0xcc ∧ c' = { c with regs := c.regs.set ripIndex (c.rip + 1) } := by
  unfold stepChild at h
  split at h
  case isTrue hcc => exact ⟨hcc, by cases h; rfl⟩
  case isFalse => split at h <;> cases h

/-- **The rule for a resumed child**: what one instruction keeps holds while the child
runs, and where it stops it stops for one of three reasons: a trap, the end of a single
step, or a signal. -/
theorem resume_rule {w : World ρ} {I Q : Child ρ → Prop} {single : Bool} {r : Resume}
    (hran : ∀ c c', I c → stepChild w c = .ran c' → I c')
    (htrap : ∀ c c', I c → stepChild w c = .trapped c' → Q c')
    (hdone : ∀ c, I c → single = true ∨ r.after = .signalled ∨ stepChild w c = .faulted → Q c)
    {s : State ρ} {c₀ c : Child ρ} (hc₀ : s.proc = .stopped c₀)
    (h : resume w single r s = .ok (.stopped c)) (h0 : I c₀) : Q c := by
  obtain ⟨c₁, hc₁, h⟩ := resume_stopped h
  obtain rfl : c₀ = c₁ := by
    rw [hc₀] at hc₁
    exact Proc.stopped.inj hc₁
  have hwait : ∀ c₁, I c₁ → r.after.wait c₁ = some (.stopped c) → Q c := by
    intro c₁ hI hw
    cases hafter : r.after with
    | running | killed => simp [After.wait, hafter] at hw
    | signalled =>
      simp only [After.wait, hafter, Option.some.injEq, Wait.stopped.injEq] at hw
      exact hw ▸ hdone c₁ hI (.inr (.inl hafter))
  have hrun : ∀ n c₁, I c₁ → runChild w r.after n c₁ = some (.stopped c) → Q c := by
    intro n
    induction n with
    | zero => exact hwait
    | succ n ih =>
      intro c₁ hI hw
      unfold runChild at hw
      split at hw
      case h_1 c₂ hs => exact ih c₂ (hran c₁ c₂ hI hs) hw
      case h_2 c₂ hs => exact Wait.stopped.inj (Option.some.inj hw) ▸ htrap c₁ c₂ hI hs
      case h_3 => cases hw
      case h_4 hs =>
        exact Wait.stopped.inj (Option.some.inj hw) ▸ hdone c₁ hI (.inr (.inr hs))
  cases single with
  | false => exact hrun _ _ h0 h
  | true =>
    simp only [if_true] at h
    cases hsteps : r.steps with
    | zero =>
      rw [hsteps] at h
      exact hwait c₀ h0 h
    | succ n =>
      rw [hsteps] at h
      simp only [singleStep] at h
      split at h
      case h_1 c₂ hs =>
        exact Wait.stopped.inj (Option.some.inj h) ▸ hdone c₂ (hran c₀ c₂ h0 hs) (.inl rfl)
      case h_2 c₂ hs => exact Wait.stopped.inj (Option.some.inj h) ▸ htrap c₀ c₂ h0 hs
      case h_3 => cases h
      case h_4 => exact Wait.stopped.inj (Option.some.inj h) ▸ hdone c₀ h0 (.inl rfl)

/-- A single step with time to be taken. -/
theorem resume_single {w : World ρ} {r : Resume} {s : State ρ} {c : Child ρ}
    (hc : s.proc = .stopped c) (hr : 0 < r.steps) :
    resume w true r s = match stepChild w c with
      | .ran c' => .ok (.stopped c')
      | .trapped c' => .ok (.stopped c')
      | .exited code => .ok (.exited code)
      | .faulted => .ok (.stopped c) := by
  obtain ⟨n, hn⟩ : ∃ n, r.steps = n + 1 := ⟨r.steps - 1, by omega⟩
  simp only [resume, hc, if_true, hn, singleStep]
  cases stepChild w c <;> rfl

/-- Where a single step stops. -/
theorem single_cases {w : World ρ} {r : Resume} {s : State ρ} {c₀ c : Child ρ}
    (hc₀ : s.proc = .stopped c₀) (h : resume w true r s = .ok (.stopped c)) :
    stepChild w c₀ = .ran c ∨ stepChild w c₀ = .trapped c ∨ c = c₀ := by
  obtain ⟨c₁, hc₁, h⟩ := resume_stopped h
  obtain rfl : c₀ = c₁ := by
    rw [hc₀] at hc₁
    exact Proc.stopped.inj hc₁
  simp only [if_true] at h
  cases hsteps : r.steps with
  | zero =>
    rw [hsteps] at h
    cases hafter : r.after with
    | running | killed => simp [singleStep, After.wait, hafter] at h
    | signalled =>
      simp only [singleStep, After.wait, hafter, Option.some.injEq, Wait.stopped.injEq] at h
      exact .inr (.inr h.symm)
  | succ n =>
    rw [hsteps] at h
    simp only [singleStep] at h
    split at h
    case h_1 c' hs => exact .inl (Wait.stopped.inj (Option.some.inj h) ▸ hs)
    case h_2 c' hs => exact .inr (.inl (Wait.stopped.inj (Option.some.inj h) ▸ hs))
    case h_3 => cases h
    case h_4 => exact .inr (.inr (Wait.stopped.inj (Option.some.inj h)).symm)

/-- What instructions and traps keep holds wherever the child stops. -/
theorem resume_invariant {w : World ρ} {I : Child ρ → Prop} {single : Bool} {r : Resume}
    (hran : ∀ c c', I c → stepChild w c = .ran c' → I c')
    (htrap : ∀ c c', I c → stepChild w c = .trapped c' → I c')
    {s : State ρ} {c₀ c : Child ρ} (hc₀ : s.proc = .stopped c₀)
    (h : resume w single r s = .ok (.stopped c)) (h0 : I c₀) : I c :=
  resume_rule hran htrap (fun _ hI _ => hI) hc₀ h h0

end Apue.Sdb

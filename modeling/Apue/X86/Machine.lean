import Apue.Memory.Bytes
import Mathlib.Logic.Function.Basic

/-! A fragment of x86-64.

Registers, byte memory and a kernel behind `syscall`. Code is not in memory: `Code`
gives the instruction at an address and the address after it, so nothing depends on how
long instructions are. Arithmetic sets the three flags that signed comparison reads. -/
namespace Apue.X86
open Memory

inductive Reg where
  | rax | rbx | rcx | rdx | rsi | rdi | rbp | rsp
  | r8 | r9 | r10 | r11 | r12 | r13 | r14 | r15
  deriving DecidableEq, Repr

/-- `[base + disp]`. -/
structure Operand where
  base : Reg
  disp : Word
  deriving DecidableEq, Repr

inductive Instr where
  | mov (dst src : Reg)
  | movImm (dst : Reg) (v : Word)
  | load (dst : Reg) (src : Operand)
  | loadAbs (dst : Reg) (src : Addr)
  | store (dst : Operand) (src : Reg)
  | storeImm (dst : Operand) (v : Word)
  | lea (dst : Reg) (src : Operand)
  | push (src : Reg)
  | pop (dst : Reg)
  | add (dst : Reg) (v : Word)
  | sub (dst : Reg) (v : Word)
  | neg (dst : Reg)
  | cmp (r : Reg) (v : Word)
  | syscall
  | jmp (target : Addr)
  | jge (target : Addr)
  | jne (target : Addr)
  | call (target : Addr)
  | ret
  deriving DecidableEq, Repr

structure Flags where
  zero : Bool := false
  sign : Bool := false
  overflow : Bool := false
  deriving DecidableEq, Repr

def subFlags (v w : Word) : Flags where
  zero := v - w == 0
  sign := (v - w).msb
  overflow := v.ssubOverflow w

def addFlags (v w : Word) : Flags where
  zero := v + w == 0
  sign := (v + w).msb
  overflow := v.saddOverflow w

/-- The machine, with the state `κ` of the kernel. -/
structure State (κ : Type) where
  regs : Reg → Word
  rip : Addr
  mem : Mem
  kernel : κ
  flags : Flags := {}

/-- The registers a system call reads. -/
structure Request where
  number : Word
  rdi : Word
  rsi : Word
  rdx : Word
  r10 : Word
  r8 : Word
  r9 : Word

/-- What a system call leaves: `rcx` and `r11` are not kept. -/
structure Reply (κ : Type) where
  rax : Word
  rcx : Word
  r11 : Word
  mem : Mem
  kernel : κ

abbrev Kernel (κ : Type) := Request → Mem → κ → Reply κ

abbrev Code := Addr → Option (Instr × Addr)

variable {κ : Type}

def State.set (s : State κ) (r : Reg) (v : Word) : State κ :=
  { s with regs := Function.update s.regs r v }

def State.address (s : State κ) (o : Operand) : Addr := s.regs o.base + o.disp

def State.request (s : State κ) : Request :=
  ⟨s.regs .rax, s.regs .rdi, s.regs .rsi, s.regs .rdx, s.regs .r10, s.regs .r8, s.regs .r9⟩

def State.push (s : State κ) (v : Word) : State κ :=
  { s.set .rsp (s.regs .rsp - 8) with mem := poke s.mem (s.regs .rsp - 8) v }

def State.ret (s : State κ) : State κ :=
  { s.set .rsp (s.regs .rsp + 8) with rip := peek s.mem (s.regs .rsp) }

section Simp
variable (s : State κ) (r : Reg) (v : Word)

@[simp] theorem State.set_regs (r' : Reg) :
    (s.set r v).regs r' = if r' = r then v else s.regs r' :=
  Function.update_apply s.regs r v r'

@[simp] theorem State.set_mem : (s.set r v).mem = s.mem := rfl
@[simp] theorem State.set_kernel : (s.set r v).kernel = s.kernel := rfl

@[simp] theorem State.push_regs (r' : Reg) :
    (s.push v).regs r' = if r' = .rsp then s.regs .rsp - 8 else s.regs r' :=
  s.set_regs .rsp _ r'

@[simp] theorem State.push_mem : (s.push v).mem = poke s.mem (s.regs .rsp - 8) v := rfl
@[simp] theorem State.push_kernel : (s.push v).kernel = s.kernel := rfl

@[simp] theorem State.ret_regs (r' : Reg) :
    s.ret.regs r' = if r' = .rsp then s.regs .rsp + 8 else s.regs r' :=
  s.set_regs .rsp _ r'

@[simp] theorem State.ret_rip : s.ret.rip = peek s.mem (s.regs .rsp) := rfl
@[simp] theorem State.ret_mem : s.ret.mem = s.mem := rfl
@[simp] theorem State.ret_kernel : s.ret.kernel = s.kernel := rfl

end Simp

/-- What an instruction that does not branch does besides moving on. -/
def effect (sys : Kernel κ) (s : State κ) : Instr → State κ
  | .mov dst src => s.set dst (s.regs src)
  | .movImm dst v => s.set dst v
  | .load dst src => s.set dst (peek s.mem (s.address src))
  | .loadAbs dst src => s.set dst (peek s.mem src)
  | .store dst src => { s with mem := poke s.mem (s.address dst) (s.regs src) }
  | .storeImm dst v => { s with mem := poke s.mem (s.address dst) v }
  | .lea dst src => s.set dst (s.address src)
  | .push src => s.push (s.regs src)
  | .pop dst => (s.set .rsp (s.regs .rsp + 8)).set dst (peek s.mem (s.regs .rsp))
  | .add dst v => { s.set dst (s.regs dst + v) with flags := addFlags (s.regs dst) v }
  | .sub dst v => { s.set dst (s.regs dst - v) with flags := subFlags (s.regs dst) v }
  | .neg dst => { s.set dst (-s.regs dst) with flags := subFlags 0 (s.regs dst) }
  | .cmp r v => { s with flags := subFlags (s.regs r) v }
  | .syscall =>
    let reply := sys s.request s.mem s.kernel
    { ((s.set .rax reply.rax).set .rcx reply.rcx).set .r11 reply.r11 with
      mem := reply.mem
      kernel := reply.kernel }
  | .jmp _ => s
  | .jge _ => s
  | .jne _ => s
  | .call _ => s
  | .ret => s

def exec (sys : Kernel κ) (next : Addr) (s : State κ) : Instr → State κ
  | .jmp target => { s with rip := target }
  | .jge target => { s with rip := if s.flags.sign = s.flags.overflow then target else next }
  | .jne target => { s with rip := if s.flags.zero then next else target }
  | .call target => { s.push next with rip := target }
  | .ret => s.ret
  | i => { effect sys s i with rip := next }

def run (code : Code) (sys : Kernel κ) : Nat → State κ → Option (State κ)
  | 0, s => some s
  | n + 1, s =>
    match code s.rip with
    | some (i, next) => run code sys n (exec sys next s i)
    | none => none

/-- The machine runs until it is where there is no code. -/
def halt (code : Code) (sys : Kernel κ) : Nat → State κ → Option (State κ)
  | 0, _ => none
  | n + 1, s =>
    match code s.rip with
    | some (i, next) => halt code sys n (exec sys next s i)
    | none => some s

/-- The address `n` instructions after `a`. -/
def skip (code : Code) : Nat → Addr → Option Addr
  | 0, a => some a
  | n + 1, a => (code a).bind fun p => skip code n p.2

/-- The instructions are in the code, one after the other, from `a`. -/
def Placed (code : Code) : Addr → List Instr → Prop
  | _, [] => True
  | a, i :: rest => ∃ next, code a = some (i, next) ∧ Placed code next rest

def Instr.plain : Instr → Bool
  | .jmp _ => false
  | .jge _ => false
  | .jne _ => false
  | .call _ => false
  | .ret => false
  | _ => true

/-- A block of instructions that do not branch. -/
def block (sys : Kernel κ) (is : List Instr) (s : State κ) : State κ := is.foldl (effect sys) s

@[simp] theorem block_nil (sys : Kernel κ) (s : State κ) : block sys [] s = s := rfl

-- not by `rfl`: unfolding a whole block at once makes terms exponential in its length
@[simp] theorem block_cons (sys : Kernel κ) (i : Instr) (is : List Instr) (s : State κ) :
    block sys (i :: is) s = block sys is (effect sys s i) := by
  rw [block, List.foldl_cons, ← block]

theorem block_append (sys : Kernel κ) (is js : List Instr) (s : State κ) :
    block sys (is ++ js) s = block sys js (block sys is s) :=
  List.foldl_append

variable {code : Code} {sys : Kernel κ} {s : State κ} {is rest : List Instr}

/-- Where the machine is matters to no plain instruction. -/
theorem block_rip (a : Addr) : block sys is { s with rip := a } = { block sys is s with rip := a } := by
  induction is generalizing s with
  | nil => rfl
  | cons i rest ih =>
    have hi : effect sys { s with rip := a } i = { effect sys s i with rip := a } := by
      cases i <;> rfl
    simp only [block, List.foldl_cons, hi]
    exact ih

/-- **The block rule**: a placed block has the effects of its instructions and leaves the
machine at what is placed after it. -/
theorem run_block (sys : Kernel κ) (is : List Instr) (hplain : is.all Instr.plain = true)
    (h : Placed code s.rip (is ++ rest)) :
    ∃ a, Placed code a rest ∧
      ∀ n, run code sys (is.length + n) s = run code sys n { block sys is s with rip := a } := by
  induction is generalizing s with
  | nil => exact ⟨s.rip, h, fun n => by rw [List.length_nil, Nat.zero_add]; rfl⟩
  | cons i is ih =>
    obtain ⟨hi, his⟩ := Bool.and_eq_true_iff.mp hplain
    obtain ⟨next, hcode, hrest⟩ := h
    have hexec : exec sys next s i = { effect sys s i with rip := next } := by
      cases i <;> first | rfl | cases hi
    have hrest' : Placed code (exec sys next s i).rip (is ++ rest) := by
      rw [hexec]
      exact hrest
    obtain ⟨a, ha, hrun⟩ := ih his hrest'
    refine ⟨a, ha, fun n => ?_⟩
    have hlen : (i :: is).length + n = is.length + n + 1 := by
      rw [List.length_cons]
      omega
    rw [hlen, run, hcode]
    show run code sys (is.length + n) (exec sys next s i) = _
    rw [hrun, hexec, block_rip]
    rfl

/-- Where the machine was matters to no instruction. -/
theorem exec_rip (sys : Kernel κ) (next a : Addr) (s : State κ) (i : Instr) :
    exec sys next { s with rip := a } i = exec sys next s i := by
  cases i <;> rfl

/-- A block and an instruction, which may branch. -/
theorem run_branch {i : Instr} (sys : Kernel κ) (is : List Instr)
    (hplain : is.all Instr.plain = true) (h : Placed code s.rip (is ++ i :: rest)) :
    ∃ next, Placed code next rest ∧ ∀ n, run code sys (is.length + (n + 1)) s =
      run code sys n (exec sys next (block sys is s) i) := by
  obtain ⟨a, ⟨next, hcode, hrest⟩, hrun⟩ := run_block sys is hplain h
  refine ⟨next, hrest, fun n => ?_⟩
  rw [hrun, run, hcode, ← exec_rip sys next a]

/-- A block and a call. -/
theorem run_call {target : Addr} (sys : Kernel κ) (is : List Instr)
    (hplain : is.all Instr.plain = true)
    (h : Placed code s.rip (is ++ .call target :: rest)) :
    ∃ next, Placed code next rest ∧ ∀ n, run code sys (is.length + (n + 1)) s =
      run code sys n { (block sys is s).push next with rip := target } :=
  run_branch sys is hplain h

/-- A block and a return. -/
theorem run_ret (sys : Kernel κ) (is : List Instr) (hplain : is.all Instr.plain = true)
    (h : Placed code s.rip (is ++ [.ret])) (n : Nat) :
    run code sys (is.length + (n + 1)) s = run code sys n (block sys is s).ret := by
  obtain ⟨next, -, hrun⟩ := run_branch sys is hplain h
  exact hrun n

/-- After a comparison `jge` jumps on the signed order. -/
theorem subFlags_sign (v w : Word) :
    ((subFlags v w).sign = (subFlags v w).overflow) ↔ w.toInt ≤ v.toInt := by
  have hv := BitVec.toInt_lt (x := v)
  have hv' := BitVec.le_toInt (x := v)
  have hw := BitVec.toInt_lt (x := w)
  have hw' := BitVec.le_toInt (x := w)
  rw [subFlags, BitVec.msb_eq_toInt, BitVec.toInt_sub, BitVec.ssubOverflow, Bool.eq_iff_iff,
    Int.bmod_def]
  simp only [Bool.or_eq_true, decide_eq_true_eq]
  omega

/-- A machine that has left the code has halted. -/
theorem halt_of_run {t : State κ} {n m : Nat} (h : run code sys n s = some t)
    (hout : code t.rip = none) (hm : n < m) : halt code sys m s = some t := by
  induction n generalizing s m with
  | zero =>
    obtain ⟨m, rfl⟩ := Nat.exists_eq_succ_of_ne_zero (Nat.ne_of_gt hm)
    rw [run, Option.some.injEq] at h
    rw [h, halt, hout]
  | succ n ih =>
    obtain ⟨m, rfl⟩ := Nat.exists_eq_succ_of_ne_zero (Nat.ne_of_gt (Nat.zero_lt_of_lt hm))
    rw [run] at h
    rw [halt]
    cases hcode : code s.rip with
    | none => simp [hcode] at h
    | some p =>
      rw [hcode] at h
      exact ih h (Nat.lt_of_succ_lt_succ hm)

theorem placed_skip {a b : Addr} (is : List Instr) (h : Placed code a (is ++ rest))
    (hb : skip code is.length a = some b) : Placed code b rest := by
  induction is generalizing a with
  | nil => exact Option.some.inj hb ▸ h
  | cons i is ih =>
    obtain ⟨next, hcode, hrest⟩ := h
    refine ih hrest ?_
    rw [List.length_cons, skip, hcode] at hb
    exact hb

/-- The instructions from `base` on, one address each. -/
def layout (base : Addr) (is : List Instr) : Code :=
  fun a => is[(a - base).toNat]?.map fun i => (i, a + 1)

theorem placed_of_lookup {base : Addr} {is : List Instr}
    (h : ∀ k : Fin is.length, code (base + BitVec.ofNat 64 k) = some (is[k], base + BitVec.ofNat 64 (k + 1))) :
    Placed code base is := by
  induction is generalizing base with
  | nil => trivial
  | cons i is ih =>
    have h0 := h ⟨0, Nat.succ_pos _⟩
    have hbase : base + BitVec.ofNat 64 0 = base := BitVec.add_zero base
    rw [hbase] at h0
    refine ⟨_, h0, ih fun k => ?_⟩
    have hk := h ⟨k + 1, Nat.succ_lt_succ k.isLt⟩
    have hadd : ∀ n : Nat, base + BitVec.ofNat 64 (0 + 1) + BitVec.ofNat 64 n =
        base + BitVec.ofNat 64 (n + 1) := by
      intro n
      rw [BitVec.add_assoc, ← BitVec.ofNat_add, Nat.add_comm]
    rw [hadd, hadd]
    exact hk

end Apue.X86

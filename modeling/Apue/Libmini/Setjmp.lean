import Apue.Libmini.Stub

/-! `setjmp` and `longjmp`.

A `jmp_buf` is seven registers, the return address and a signal mask. `longjmp` loads
the registers first, so everything after its second instruction happens on the stack of the
`setjmp`, above the word that holds the return address. -/
namespace Apue.Libmini
open Memory X86

/-! ### The routines -/

def setjmpSave : List Instr :=
  [.store ⟨.rdi, 0⟩ .rbx, .store ⟨.rdi, 8⟩ .rsp, .store ⟨.rdi, 16⟩ .rbp, .store ⟨.rdi, 24⟩ .r12,
   .store ⟨.rdi, 32⟩ .r13, .store ⟨.rdi, 40⟩ .r14, .store ⟨.rdi, 48⟩ .r15,
   -- return address
   .load .rax ⟨.rsp, 0⟩, .store ⟨.rdi, 56⟩ .rax,
   .push .rdi,
   .movImm .rdi 2, -- SIG_SETMASK
   .movImm .rsi 0,
   .sub .rsp 8, -- sigset_t old
   .lea .rdx ⟨.rsp, 0⟩, .movImm .rcx 8]

def setjmpMask : List Instr :=
  [.load .rax ⟨.rsp, 0⟩, .add .rsp 8, .pop .rdi, .store ⟨.rdi, 64⟩ .rax, .movImm .rax 0]

def setjmp (sysRtSigprocmask : Addr) : List Instr :=
  setjmpSave ++ .call sysRtSigprocmask :: (setjmpMask ++ [.ret])

def longjmpLoad : List Instr :=
  [.load .rbx ⟨.rdi, 0⟩, .load .rsp ⟨.rdi, 8⟩, .load .rbp ⟨.rdi, 16⟩, .load .r12 ⟨.rdi, 24⟩,
   .load .r13 ⟨.rdi, 32⟩, .load .r14 ⟨.rdi, 40⟩, .load .r15 ⟨.rdi, 48⟩]

def longjmpPush : List Instr :=
  [ -- return address
   .pop .rax, .load .rax ⟨.rdi, 56⟩, .push .rax,
   .push .rsi, .lea .rsi ⟨.rdi, 64⟩,
   .movImm .rdi 2, -- SIG_SETMASK
   .movImm .rdx 0, .movImm .rcx 8]

def longjmpReturn : List Instr := [.pop .rsi, .mov .rax .rsi]

def longjmp (sysRtSigprocmask : Addr) : List Instr :=
  (longjmpLoad ++ longjmpPush) ++ .call sysRtSigprocmask :: (longjmpReturn ++ [.ret])

variable {κ : Type} {code : Code} {sys : Kernel κ} {s : State κ}

/-! ### The kernel -/

/-- `SIGKILL` and `SIGSTOP`. -/
def unblockable : Word := 1 <<< 8 ||| 1 <<< 18

/-- What `rt_sigprocmask` does with the `mask` of the kernel's state, as far as it is asked
to: `SIG_SETMASK` with one of the two pointers. -/
structure Sigprocmask (sys : Kernel κ) (mask : κ → Word) : Prop where
  unblocked : ∀ k, mask k &&& unblockable = 0
  reports : ∀ (r : Request) m k, r.number = 14 → r.rdi = 2 → r.rsi = 0 → r.rdx ≠ 0 → r.r10 = 8 →
    (sys r m k).mem = poke m r.rdx (mask k) ∧ mask (sys r m k).kernel = mask k
  sets : ∀ (r : Request) m k, r.number = 14 → r.rdi = 2 → r.rsi ≠ 0 → r.rdx = 0 → r.r10 = 8 →
    (sys r m k).mem = m ∧ mask (sys r m k).kernel = peek m r.rsi &&& ~~~unblockable

/-- A kernel whose state is a signal mask and whose one call is `rt_sigprocmask`. The calling
convention lets it do what it likes to `rcx` and `r11`. -/
def maskKernel : Kernel { w : Word // w &&& unblockable = 0 } := fun r m k =>
  let old := if r.rdx = 0 then m else poke m r.rdx k.1
  let blocked (w : Word) : { w : Word // w &&& unblockable = 0 } :=
    ⟨w &&& ~~~unblockable, by rw [BitVec.and_assoc, BitVec.not_and_self]; exact BitVec.and_zero⟩
  if r.number ≠ 14 then ⟨-38, 0, 0, m, k⟩ -- ENOSYS
  else if r.r10 ≠ 8 then ⟨-22, 0, 0, m, k⟩ -- EINVAL
  else if r.rsi = 0 then ⟨0, 0, 0, old, k⟩
  else
    let set := peek m r.rsi
    if r.rdi = 0 then ⟨0, 0, 0, old, blocked (k.1 ||| set)⟩
    else if r.rdi = 1 then ⟨0, 0, 0, old, blocked (k.1 &&& ~~~set)⟩
    else if r.rdi = 2 then ⟨0, 0, 0, old, blocked set⟩
    else ⟨-22, 0, 0, m, k⟩

theorem maskKernel_sigprocmask : Sigprocmask maskKernel Subtype.val where
  unblocked k := k.2
  reports r m k hnumber _ hrsi hrdx hr10 := by
    have hrdx' : ¬ r.rdx = 0#64 := hrdx
    simp [maskKernel, hnumber, hrsi, hrdx', hr10]
  sets r m k hnumber hrdi hrsi hrdx hr10 := by
    have hrsi' : ¬ r.rsi = 0#64 := hrsi
    simp [maskKernel, hnumber, hrdi, hrsi', hrdx, hr10]

/-- The 72 bytes at `env` and the 40 bytes from `sp - 32` have no byte in common. -/
def Disjoint (env sp : Addr) : Prop :=
  ∀ x : Addr, (x - env).toNat < 72 → ¬ (x - (sp - 32)).toNat < 40

theorem Disjoint.apart {env sp a b : Addr} (h : Disjoint env sp) (ha : (a - env).toNat ≤ 64)
    (hb : (b - (sp - 32)).toNat ≤ 32) : Apart a b := by
  intro x hx hx'
  exact h x (by bv_omega) (by bv_omega)

theorem Disjoint.slot {env sp : Addr} (h : Disjoint env sp) {d e : Word} (hd : d.toNat ≤ 64)
    (he : e.toNat ≤ 32) : Apart (env + d) (sp - e) :=
  h.apart (by bv_omega) (by bv_omega)

theorem Disjoint.slot_top {env sp : Addr} (h : Disjoint env sp) {d : Word} (hd : d.toNat ≤ 64) :
    Apart (env + d) sp :=
  h.apart (by bv_omega) (by bv_omega)

theorem apart_top (a : Addr) {e : Word} (h : 8 ≤ e.toNat) (h' : e.toNat ≤ 32) : Apart a (a - e) := by
  apply apart_of_offset <;> bv_omega

theorem outside_word {x sp : Addr} (h : ¬ (x - (sp - 24)).toNat < 32) {e : Word}
    (he : e.toNat ≤ 24) : ¬ (x - (sp - e)).toNat < 8 := by
  bv_omega

theorem outside_top {x sp : Addr} (h : ¬ (x - (sp - 24)).toNat < 32) : ¬ (x - sp).toNat < 8 := by
  bv_omega

theorem apart_mask (env : Addr) {d : Word} (hd : d.toNat ≤ 56) : Apart (env + d) (env + 64) :=
  apart_add env (by bv_omega) (by bv_omega)

/-- The slots of a `jmp_buf` that hold registers. -/
def slots : List (Word × Reg) :=
  [(0, .rbx), (8, .rsp), (16, .rbp), (24, .r12), (32, .r13), (40, .r14), (48, .r15)]

/-- The registers and the return address of a call in `s`, in the `jmp_buf` at `env`. -/
structure Saves (env : Addr) (s : State κ) (m : Mem) : Prop where
  regs : ∀ p ∈ slots, peek m (env + p.1) = s.regs p.2
  rip : peek m (env + 56) = peek s.mem (s.regs .rsp)

theorem Saves.poke {env a : Addr} {m : Mem} (h : Saves env s m) (v : Word)
    (ha : ∀ d : Word, d.toNat ≤ 56 → Apart (env + d) a) : Saves env s (poke m a v) := by
  have hslot : ∀ p ∈ slots, p.1.toNat ≤ 56 := by decide
  refine ⟨fun p hp => ?_, ?_⟩
  · rw [peek_poke_apart m v (ha p.1 (hslot p hp))]
    exact h.regs p hp
  · rw [peek_poke_apart m v (ha 56 (by decide))]
    exact h.rip

/-! ### `setjmp` -/

section Setjmp
variable {stub next env sp : Addr} {mask : κ → Word} (hsp : s.regs .rsp = sp)
  (henv : s.regs .rdi = env)
include hsp henv

/-- What the stores of the first block leave. -/
theorem setjmp_saves (sys : Kernel κ) (hdisj : Disjoint env sp) :
    Saves env s (block sys setjmpSave s).mem ∧ peek (block sys setjmpSave s).mem (sp - 8) = env ∧
      peek (block sys setjmpSave s).mem sp = peek s.mem sp := by
  have hslots : ∀ {m : Mem}, (∀ p ∈ slots, peek m (env + p.1) = s.regs p.2) ↔
      peek m env = s.regs .rbx ∧ peek m (env + 8) = s.regs .rsp ∧ peek m (env + 16) = s.regs .rbp ∧
      peek m (env + 24) = s.regs .r12 ∧ peek m (env + 32) = s.regs .r13 ∧
      peek m (env + 40) = s.regs .r14 ∧ peek m (env + 48) = s.regs .r15 := by
    simp [slots]
  refine ⟨⟨hslots.mpr ?_, ?_⟩, ?_, ?_⟩
  all_goals simp (disch := first
    | (apply apart_of_offset <;> bv_omega)
    | (apply hdisj.apart <;> bv_omega)
    | (apply Apart.symm; apply hdisj.apart <;> bv_omega)
    | fail)
    [setjmpSave, effect, State.address, hsp, henv, peek_poke, peek_poke_apart]

/-- The machine where `setjmp` has called the stub. -/
structure MaskRead (stub next env sp : Addr) (s u : State κ) (m : Mem) : Prop where
  rip : u.rip = stub
  rdi : u.regs .rdi = 2
  rsi : u.regs .rsi = 0
  rdx : u.regs .rdx = sp - 16
  rcx : u.regs .rcx = 8
  rsp : u.regs .rsp = sp - 24
  kernel : u.kernel = s.kernel
  mem : u.mem = poke m (sp - 24) next
  saves : Saves env s m
  env : peek m (sp - 8) = env
  ret : peek m sp = peek s.mem sp

theorem setjmp_calls (sys : Kernel κ) (hset : Placed code s.rip (setjmp stub)) (hdisj : Disjoint env sp) :
    ∃ next u m, Placed code next (setjmpMask ++ [.ret]) ∧
      (∀ n, run code sys (16 + n) s = run code sys n u) ∧ MaskRead stub next env sp s u m := by
  obtain ⟨next, hnext, hcall⟩ := run_call sys setjmpSave rfl hset
  obtain ⟨hsaves, henv', hret⟩ := setjmp_saves hsp henv sys hdisj
  have h16 : sp - 8#64 - 8#64 = sp - 16#64 := by bv_omega
  have h24 : sp - 16#64 - 8#64 = sp - 24#64 := by bv_omega
  have hlen : ∀ n, 16 + n = setjmpSave.length + (n + 1) := by
    simp [setjmpSave]
    omega
  refine ⟨next, { (block sys setjmpSave s).push next with rip := stub }, (block sys setjmpSave s).mem,
    hnext, fun n => ?_, rfl, ?_, ?_, ?_, ?_, ?_, ?_, ?_, hsaves, henv', hret⟩
  · rw [hlen]
    exact hcall n
  all_goals simp [setjmpSave, effect, State.address, hsp, h16, h24]

/-- The machine where the stub has returned to `setjmp`. -/
structure MaskKept (next env sp : Addr) (old : Word) (s t : State κ) : Prop where
  rip : t.rip = next
  rsp : t.regs .rsp = sp - 16
  saves : Saves env s t.mem
  old : peek t.mem (sp - 16) = old
  env : peek t.mem (sp - 8) = env
  ret : peek t.mem sp = peek s.mem sp

omit hsp henv in
theorem setjmp_masked {u : State κ} {m : Mem} (hu : MaskRead stub next env sp s u m)
    (hstub : Placed code stub (gensys 14)) (hmask : Sigprocmask sys mask) (hdisj : Disjoint env sp)
    (hnull : sp - 16 ≠ 0) :
    ∃ t, (∀ n, run code sys (6 + n) u = run code sys n t) ∧ MaskKept next env sp (mask s.kernel) s t := by
  have hrdx : u.regs .rdx ≠ 0 := by
    rw [hu.rdx]
    exact hnull
  have h32 : sp - 24 - 8 = sp - 32 := by bv_omega
  have h16 : sp - 24 + 8 = sp - 16 := by bv_omega
  have hreply : (stubReply sys 14 u).mem =
      poke (poke (poke m (sp - 24) next) (sp - 32) (u.regs .r10)) (sp - 16) (mask s.kernel) := by
    obtain ⟨hmem, -⟩ := hmask.reports { u.request with number := 14, r10 := u.regs .rcx }
      (poke u.mem (u.regs .rsp - 8) (u.regs .r10)) u.kernel rfl hu.rdi hu.rsi hrdx hu.rcx
    refine hmem.trans ?_
    show poke _ (u.regs .rdx) _ = _
    rw [hu.rdx, hu.rsp, hu.mem, hu.kernel, h32]
  have hr10 : peek (stubReply sys 14 u).mem (u.regs .rsp - 8) = u.regs .r10 := by
    rw [hreply, hu.rsp, h32, peek_poke_apart _ _ (apart_sub sp (by decide) (by decide)), peek_poke]
  obtain ⟨t, hrun, ht⟩ := run_gensys (hu.rip ▸ hstub) hr10
  have htrip := ht.rip
  have htmem := ht.mem
  rw [hreply] at htrip htmem
  refine ⟨t, hrun, ?_, ?_, ?_, ?_, ?_, ?_⟩
  · rw [htrip, hu.rsp, peek_poke_apart _ _ (apart_sub sp (by decide) (by decide)),
      peek_poke_apart _ _ (apart_sub sp (by decide) (by decide)), peek_poke]
  · rw [ht.rsp, hu.rsp, h16]
  · rw [htmem]
    refine ((hu.saves.poke _ ?_).poke _ ?_).poke _ ?_
    all_goals exact fun d hd => hdisj.slot (by omega) (by decide)
  · rw [htmem, peek_poke]
  · rw [htmem, peek_poke_apart _ _ (apart_sub sp (by decide) (by decide)),
      peek_poke_apart _ _ (apart_sub sp (by decide) (by decide)),
      peek_poke_apart _ _ (apart_sub sp (by decide) (by decide)), hu.env]
  · rw [htmem, peek_poke_apart _ _ (apart_top sp (by decide) (by decide)),
      peek_poke_apart _ _ (apart_top sp (by decide) (by decide)),
      peek_poke_apart _ _ (apart_top sp (by decide) (by decide)), hu.ret]

/-- **`setjmp`** returns 0 with the registers, the return address and the mask of its call in its
`jmp_buf`. -/
theorem run_setjmp (hset : Placed code s.rip (setjmp stub)) (hstub : Placed code stub (gensys 14))
    (hmask : Sigprocmask sys mask) (hdisj : Disjoint env sp) (hnull : sp - 16 ≠ 0) :
    ∃ t : State κ, run code sys 28 s = some t ∧ t.rip = peek s.mem sp ∧ t.regs .rax = 0 ∧
      Saves env s t.mem ∧ peek t.mem (env + 64) = mask s.kernel := by
  obtain ⟨next, u, m, hnext, hrun, hu⟩ := setjmp_calls hsp henv sys hset hdisj
  obtain ⟨t, hstubrun, ht⟩ := setjmp_masked hu hstub hmask hdisj hnull
  have hplaced : Placed code t.rip (setjmpMask ++ [.ret]) := ht.rip ▸ hnext
  have hend : (block sys setjmpMask t).ret.regs .rax = 0 ∧ (block sys setjmpMask t).regs .rsp = sp := by
    have htop : sp - 16#64 + 8#64 + 8#64 = sp := by bv_omega
    simp [setjmpMask, effect, ht.rsp, htop]
  have hfinal : (block sys setjmpMask t).mem = poke t.mem (env + 64) (mask s.kernel) := by
    have h8 : sp - 16 + 8 = sp - 8 := by bv_omega
    have hpoke : (block sys setjmpMask t).mem =
        poke t.mem (peek t.mem (t.regs .rsp + 8) + 64) (peek t.mem (t.regs .rsp)) := by
      simp [setjmpMask, effect, State.address]
    rw [hpoke, ht.rsp, h8, ht.env, ht.old]
  have hlast := run_ret sys setjmpMask rfl hplaced 0
  refine ⟨(block sys setjmpMask t).ret, ?_, ?_, hend.1, ?_, ?_⟩
  · rw [hrun 12, hstubrun 6]
    exact hlast
  · rw [State.ret_rip, hend.2, hfinal, peek_poke_apart _ _ (hdisj.slot_top (by decide)).symm, ht.ret]
  · rw [State.ret_mem, hfinal]
    exact ht.saves.poke _ fun d hd => apart_mask env hd
  · rw [State.ret_mem, hfinal, peek_poke]

end Setjmp

/-! ### `longjmp` -/

section Longjmp
variable {stub env sp : Addr} {mask : κ → Word} (henv : s.regs .rdi = env)
  (hsp : peek s.mem (env + 8) = sp)
include henv hsp

/-- The machine where `longjmp` has called the stub. -/
structure MaskWritten (stub next env sp : Addr) (s u : State κ) : Prop where
  rip : u.rip = stub
  rdi : u.regs .rdi = 2
  rsi : u.regs .rsi = env + 64
  rdx : u.regs .rdx = 0
  rcx : u.regs .rcx = 8
  rsp : u.regs .rsp = sp - 16
  kernel : u.kernel = s.kernel
  mem : u.mem = poke (poke (poke s.mem sp (peek s.mem (env + 56))) (sp - 8) (s.regs .rsi)) (sp - 16) next
  regs : ∀ p ∈ slots, p.2 ≠ .rsp → u.regs p.2 = peek s.mem (env + p.1)

omit hsp in
/-- The loads come before any write. -/
theorem longjmp_loads (sys : Kernel κ) : (block sys longjmpLoad s).regs .rdi = env ∧
    (block sys longjmpLoad s).regs .rsi = s.regs .rsi ∧ (block sys longjmpLoad s).mem = s.mem ∧
    (block sys longjmpLoad s).kernel = s.kernel ∧
    ∀ p ∈ slots, (block sys longjmpLoad s).regs p.2 = peek s.mem (env + p.1) := by
  simp [longjmpLoad, effect, State.address, slots, henv]

theorem longjmp_calls (sys : Kernel κ) (hlong : Placed code s.rip (longjmp stub)) :
    ∃ next u, Placed code next (longjmpReturn ++ [.ret]) ∧
      (∀ n, run code sys (16 + n) s = run code sys n u) ∧ MaskWritten stub next env sp s u := by
  obtain ⟨next, hnext, hcall⟩ := run_call sys (longjmpLoad ++ longjmpPush) rfl hlong
  obtain ⟨hrdi, hrsi, hmem, hkernel, hregs⟩ := longjmp_loads henv sys
  have h0 : sp + 8#64 - 8#64 = sp := by bv_omega
  have h16 : sp - 8#64 - 8#64 = sp - 16#64 := by bv_omega
  have hlen : ∀ n, 16 + n = (longjmpLoad ++ longjmpPush).length + (n + 1) := by
    simp [longjmpLoad, longjmpPush]
    omega
  have hrsp : (block sys longjmpLoad s).regs .rsp = sp := (hregs (8, .rsp) (by decide)).trans hsp
  rw [block_append] at hcall
  generalize block sys longjmpLoad s = s' at *
  have hkeep : ∀ p ∈ slots, p.2 ≠ .rsp →
      ((block sys longjmpPush s').push next).regs p.2 = s'.regs p.2 := by
    simp [longjmpPush, effect, slots]
  refine ⟨next, { (block sys longjmpPush s').push next with rip := stub }, hnext, fun n => ?_, rfl,
    ?_, ?_, ?_, ?_, ?_, ?_, ?_, fun p hp hne => (hkeep p hp hne).trans (hregs p hp)⟩
  · rw [hlen]
    exact hcall n
  all_goals simp [longjmpPush, effect, State.address, hrdi, hrsi, hmem, hkernel, hrsp, h0, h16]

/-- The machine where the stub has returned to `longjmp`. -/
structure MaskSet (next env sp : Addr) (mask : κ → Word) (s t : State κ) : Prop where
  rip : t.rip = next
  rsp : t.regs .rsp = sp - 8
  val : peek t.mem (sp - 8) = s.regs .rsi
  ret : peek t.mem sp = peek s.mem (env + 56)
  regs : ∀ p ∈ slots, p.2 ≠ .rsp → t.regs p.2 = peek s.mem (env + p.1)
  mask : mask t.kernel = peek s.mem (env + 64) &&& ~~~unblockable
  mem : ∀ x : Addr, ¬ (x - (sp - 24)).toNat < 32 → t.mem x = s.mem x

omit henv hsp in
theorem longjmp_masked {next : Addr} {u : State κ} (hu : MaskWritten stub next env sp s u)
    (hstub : Placed code stub (gensys 14)) (hmask : Sigprocmask sys mask) (hdisj : Disjoint env sp)
    (hnull : env + 64 ≠ 0) :
    ∃ t, (∀ n, run code sys (6 + n) u = run code sys n t) ∧ MaskSet next env sp mask s t := by
  have hrsi : u.regs .rsi ≠ 0 := by
    rw [hu.rsi]
    exact hnull
  have h24 : sp - 16 - 8 = sp - 24 := by bv_omega
  have h8 : sp - 16 + 8 = sp - 8 := by bv_omega
  have hreply : (stubReply sys 14 u).mem = poke (poke (poke (poke s.mem sp (peek s.mem (env + 56)))
      (sp - 8) (s.regs .rsi)) (sp - 16) next) (sp - 24) (u.regs .r10) ∧
      mask (stubReply sys 14 u).kernel = peek s.mem (env + 64) &&& ~~~unblockable := by
    obtain ⟨hmem, hset⟩ := hmask.sets { u.request with number := 14, r10 := u.regs .rcx }
      (poke u.mem (u.regs .rsp - 8) (u.regs .r10)) u.kernel rfl hu.rdi hrsi hu.rdx hu.rcx
    refine ⟨hmem.trans ?_, hset.trans ?_⟩
    · rw [hu.rsp, hu.mem, h24]
    · show peek _ (u.regs .rsi) &&& _ = _
      rw [hu.rsi, hu.rsp, hu.mem, h24, peek_poke_apart _ _ (hdisj.slot (by decide) (by decide)),
        peek_poke_apart _ _ (hdisj.slot (by decide) (by decide)),
        peek_poke_apart _ _ (hdisj.slot (by decide) (by decide)),
        peek_poke_apart _ _ (hdisj.slot_top (by decide))]
  have hr10 : peek (stubReply sys 14 u).mem (u.regs .rsp - 8) = u.regs .r10 := by
    rw [hreply.1, hu.rsp, h24, peek_poke]
  obtain ⟨t, hrun, ht⟩ := run_gensys (hu.rip ▸ hstub) hr10
  have htrip := ht.rip
  have htmem := ht.mem
  rw [hreply.1] at htrip htmem
  refine ⟨t, hrun, ?_, ?_, ?_, ?_, fun p hp hne => ?_, ?_, fun x hx => ?_⟩
  · rw [htrip, hu.rsp, peek_poke_apart _ _ (apart_sub sp (by decide) (by decide)), peek_poke]
  · rw [ht.rsp, hu.rsp, h8]
  · rw [htmem, peek_poke_apart _ _ (apart_sub sp (by decide) (by decide)),
      peek_poke_apart _ _ (apart_sub sp (by decide) (by decide)), peek_poke]
  · rw [htmem, peek_poke_apart _ _ (apart_top sp (by decide) (by decide)),
      peek_poke_apart _ _ (apart_top sp (by decide) (by decide)),
      peek_poke_apart _ _ (apart_top sp (by decide) (by decide)), peek_poke]
  · have hslot : ∀ p ∈ slots, p.2 ≠ .rax ∧ p.2 ≠ .rcx ∧ p.2 ≠ .r11 := by decide
    obtain ⟨hrax, hrcx, hr11⟩ := hslot p hp
    exact (ht.regs p.2 hrax hrcx hr11 hne).trans (hu.regs p hp hne)
  · rw [ht.kernel]
    exact hreply.2
  · rw [htmem, poke_outside _ _ _ (outside_word hx (by decide)),
      poke_outside _ _ _ (outside_word hx (by decide)), poke_outside _ _ _ (outside_word hx (by decide)),
      poke_outside _ _ _ (outside_top hx)]

/-- **`longjmp`** returns its value with the registers, the return address and the mask of the
`jmp_buf`, and writes four words of the stack there. -/
theorem run_longjmp (hlong : Placed code s.rip (longjmp stub)) (hstub : Placed code stub (gensys 14))
    (hmask : Sigprocmask sys mask) (hdisj : Disjoint env sp) (hnull : env + 64 ≠ 0) :
    ∃ t : State κ, run code sys 25 s = some t ∧ t.rip = peek s.mem (env + 56) ∧
      t.regs .rax = s.regs .rsi ∧ t.regs .rsp = sp + 8 ∧ (∀ p ∈ slots, p.2 ≠ .rsp → t.regs p.2 = peek s.mem (env + p.1)) ∧
      mask t.kernel = peek s.mem (env + 64) &&& ~~~unblockable ∧
      ∀ x : Addr, ¬ (x - (sp - 24)).toNat < 32 → t.mem x = s.mem x := by
  obtain ⟨next, u, hnext, hrun, hu⟩ := longjmp_calls henv hsp sys hlong
  obtain ⟨t, hstubrun, ht⟩ := longjmp_masked hu hstub hmask hdisj hnull
  have hplaced : Placed code t.rip (longjmpReturn ++ [.ret]) := ht.rip ▸ hnext
  have hlast := run_ret sys longjmpReturn rfl hplaced 0
  have hret : (block sys longjmpReturn t).ret.rip = peek t.mem sp ∧
      (block sys longjmpReturn t).ret.regs .rax = peek t.mem (sp - 8) ∧
      (block sys longjmpReturn t).ret.regs .rsp = sp + 8 ∧
      (block sys longjmpReturn t).ret.mem = t.mem ∧
      (block sys longjmpReturn t).ret.kernel = t.kernel := by
    have h0 : sp - 8#64 + 8#64 = sp := by bv_omega
    simp [longjmpReturn, effect, ht.rsp, h0]
  obtain ⟨hrip, hrax, hrsp, hmem, hkernel⟩ := hret
  have hkeep : ∀ p ∈ slots, p.2 ≠ .rsp → (block sys longjmpReturn t).ret.regs p.2 = t.regs p.2 := by
    intro p hp hne
    have hslot : ∀ p ∈ slots, p.2 ≠ .rax ∧ p.2 ≠ .rsi := by decide
    obtain ⟨hrax, hrsi⟩ := hslot p hp
    simp [longjmpReturn, effect, hrax, hrsi, hne]
  refine ⟨(block sys longjmpReturn t).ret, ?_, hrip.trans ht.ret, hrax.trans ht.val, hrsp,
    fun p hp hne => (hkeep p hp hne).trans (ht.regs p hp hne), ?_, fun x hx => ?_⟩
  · rw [hrun 9, hstubrun 3]
    exact hlast
  · rw [hkernel]
    exact ht.mask
  · rw [hmem]
    exact ht.mem x hx

end Longjmp

/-! ### The context -/

/-- After a `longjmp` entered in `s₂` the machine is in the context `setjmp` was called in,
`s`, and only the stack there is written. -/
structure Restored (mask : κ → Word) (s s₂ t : State κ) : Prop where
  rip : t.rip = peek s.mem (s.regs .rsp)
  rsp : t.regs .rsp = s.regs .rsp + 8
  regs : ∀ r ∈ [Reg.rbx, .rbp, .r12, .r13, .r14, .r15], t.regs r = s.regs r
  mask : mask t.kernel = mask s.kernel
  mem : ∀ x : Addr, ¬ (x - (s.regs .rsp - 24)).toNat < 32 → t.mem x = s₂.mem x

theorem and_not_unblockable {v : Word} (h : v &&& unblockable = 0) : v &&& ~~~unblockable = v := by
  apply BitVec.eq_of_getLsbD_eq
  intro i hi
  have hbit := congrArg (fun w => w.getLsbD i) h
  simp only [BitVec.getLsbD_and] at hbit
  simp only [BitVec.getLsbD_and, BitVec.getLsbD_not, hi, decide_true, Bool.true_and]
  cases hv : v.getLsbD i with
  | false => rfl
  | true => simpa [hv] using hbit

/-- The words of an unchanged `jmp_buf` are unchanged. -/
theorem peek_env {env : Addr} {m m' : Mem} (h : ∀ x : Addr, (x - env).toNat < 72 → m x = m' x)
    {d : Word} (hd : d.toNat ≤ 64) : peek m (env + d) = peek m' (env + d) := by
  refine peek_congr fun k hk => h _ ?_
  have hoff : (BitVec.ofNat 64 k).toNat = k := Nat.mod_eq_of_lt (by omega)
  have hsub : env + d + BitVec.ofNat 64 k - env = d + BitVec.ofNat 64 k := by
    rw [BitVec.add_assoc, BitVec.add_comm env, BitVec.add_sub_cancel]
  rw [hsub, BitVec.toNat_add, hoff]
  omega

/-- **`longjmp` restores the context `setjmp` saved**, for a `jmp_buf` that is unchanged and
apart from the stack. Neither the `jmp_buf`'s mask nor the one on the stack is at the null
address, which stands for no mask. -/
theorem longjmp_restores {setjmpAt longjmpAt stub : Addr} {mask : κ → Word}
    (hset : Placed code setjmpAt (setjmp stub)) (hlong : Placed code longjmpAt (longjmp stub))
    (hstub : Placed code stub (gensys 14)) (hmask : Sigprocmask sys mask) (hs : s.rip = setjmpAt)
    (hdisj : Disjoint (s.regs .rdi) (s.regs .rsp)) (hstack : s.regs .rsp - 16 ≠ 0)
    (henv : s.regs .rdi + 64 ≠ 0) :
    ∃ s₁, run code sys 28 s = some s₁ ∧ ∀ s₂ : State κ, s₂.rip = longjmpAt →
      s₂.regs .rdi = s.regs .rdi → (∀ x : Addr, (x - s.regs .rdi).toNat < 72 → s₂.mem x = s₁.mem x) →
      ∃ t, run code sys 25 s₂ = some t ∧ Restored mask s s₂ t := by
  obtain ⟨s₁, hrun, -, -, hsaves, hsavedmask⟩ := run_setjmp rfl rfl (hs ▸ hset) hstub hmask hdisj hstack
  refine ⟨s₁, hrun, fun s₂ hs₂ hrdi hsame => ?_⟩
  have hslot : ∀ p ∈ slots, p.1.toNat ≤ 64 := by decide
  have hregs : ∀ p ∈ slots, peek s₂.mem (s.regs .rdi + p.1) = s.regs p.2 := fun p hp =>
    (peek_env hsame (hslot p hp)).trans (hsaves.regs p hp)
  have hsp : peek s₂.mem (s.regs .rdi + 8) = s.regs .rsp := hregs (8, .rsp) (by decide)
  obtain ⟨t, hrun', hrip, -, hrsp, hkept, hmask', hmem⟩ :=
    run_longjmp hrdi hsp (hs₂ ▸ hlong) hstub hmask hdisj henv
  have hcallee : ∀ r ∈ [Reg.rbx, .rbp, .r12, .r13, .r14, .r15], ∃ p ∈ slots, p.2 = r ∧ p.2 ≠ .rsp := by
    decide
  refine ⟨t, hrun', ?_, hrsp, fun r hr => ?_, ?_, hmem⟩
  · rw [hrip, peek_env hsame (by decide)]
    exact hsaves.rip
  · obtain ⟨p, hp, rfl, hne⟩ := hcallee r hr
    exact (hkept p hp hne).trans (hregs p hp)
  · rw [hmask', peek_env hsame (by decide), hsavedmask]
    exact and_not_unblockable (hmask.unblocked s.kernel)

/-- The two routines and their stub. -/
def loaded : Code := fun a =>
  (layout 0x1000 (setjmp 0x3000) a).or
    ((layout 0x2000 (longjmp 0x3000) a).or (layout 0x3000 (gensys 14) a))

def entry : State { w : Word // w &&& unblockable = 0 } where
  regs r := match r with
    | .rdi => 0x5000
    | .rsp => 0x7000
    | .rbx => 1
    | .rbp => 2
    | .r12 => 3
    | .r13 => 4
    | .r14 => 5
    | .r15 => 6
    | _ => 0
  rip := 0x1000
  mem _ := 0
  kernel := ⟨1, by decide⟩

/-- The state that jumps back: all registers and the mask have changed. -/
def later (s : State { w : Word // w &&& unblockable = 0 }) :
    State { w : Word // w &&& unblockable = 0 } :=
  { s with
    regs := fun r => if r = .rdi then 0x5000 else 7
    rip := 0x2000
    kernel := ⟨2, by decide⟩ }

theorem longjmp_restores_once : ∃ s₁, run loaded maskKernel 28 entry = some s₁ ∧
    ∃ t, run loaded maskKernel 25 (later s₁) = some t ∧ Restored Subtype.val entry (later s₁) t := by
  have hset : Placed loaded 0x1000 (setjmp 0x3000) := placed_of_lookup (by decide +kernel)
  have hlong : Placed loaded 0x2000 (longjmp 0x3000) := placed_of_lookup (by decide +kernel)
  have hstub : Placed loaded 0x3000 (gensys 14) := placed_of_lookup (by decide +kernel)
  have hdisj : Disjoint (entry.regs .rdi) (entry.regs .rsp) := by
    intro x hx
    simp only [entry] at hx ⊢
    bv_omega
  obtain ⟨s₁, hrun, hjump⟩ := longjmp_restores hset hlong hstub maskKernel_sigprocmask
    (s := entry) rfl hdisj (by decide) (by decide)
  exact ⟨s₁, hrun, hjump _ rfl rfl fun x _ => rfl⟩

end Apue.Libmini

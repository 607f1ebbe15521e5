import Apue.Libmini.Stub

/-! `sleep` in assembly.

It replaces a function in C, which the source keeps disabled. The C function has a 32-bit
argument; the assembly stores the whole register, so that `sleep_iff`: the two are the same
exactly when the upper half of the register is zero. -/
namespace Apue.Libmini
open Memory X86

/-! ### The routine -/

def sleepAsk : List Instr :=
  [.sub .rsp 32, -- allocate timespec * 2
   .store ⟨.rsp, 0⟩ .rdi, -- req.tv_sec
   .storeImm ⟨.rsp, 8⟩ 0, -- req.tv_nsec
   .mov .rdi .rsp, .lea .rsi ⟨.rsp, 16⟩]

def sleepInterrupted : List Instr :=
  [.lea .rsi ⟨.rsp, 16⟩, .load .rax ⟨.rsi, 0⟩] -- return rem.tv_sec

def sleepQuit : List Instr := [.add .rsp 32, .ret]

def sleepText (sysNanosleep failed quit : Addr) : List Instr :=
  sleepAsk ++ .call sysNanosleep :: .cmp .rax 0 :: .jge quit ::
    .neg .rax :: .cmp .rax 4 :: .jne failed :: -- rax == EINTR?
    (sleepInterrupted ++ .jmp quit :: .movImm .rax 0 :: sleepQuit)

/-- What is before the last two labels. -/
def sleepFront (sysNanosleep failed quit : Addr) : List Instr :=
  sleepAsk ++ .call sysNanosleep :: .cmp .rax 0 :: .jge quit ::
    .neg .rax :: .cmp .rax 4 :: .jne failed :: (sleepInterrupted ++ [.jmp quit])

/-- Where the routine is. -/
structure Sleeper where
  code : Code
  sleepAt : Addr
  sleepFailed : Addr
  sleepQuit : Addr
  sysNanosleep : Addr
  sleep_placed : Placed code sleepAt (sleepText sysNanosleep sleepFailed sleepQuit)
  sleepFailed_at : skip code 14 sleepAt = some sleepFailed
  sleepQuit_at : skip code 15 sleepAt = some sleepQuit
  sysNanosleep_placed : Placed code sysNanosleep (gensys 35)

/-! ### The system call -/

structure Timespec where
  sec : Word
  nsec : Word
  deriving DecidableEq, Repr

def timespecAt (m : Mem) (a : Addr) : Timespec := ⟨peek m a, peek m (a + 8)⟩

/-- The kernel's answer to a request, with the time that remains. -/
structure Slept (κ : Type) where
  ret : Word
  rem : Timespec
  kernel : κ

variable {κ : Type}

def eintr : Word := 4

/-- A reply with the answer `a`: the remaining time is written where the sleep was interrupted. -/
structure Sleeps (a : Slept κ) (rem : Addr) (m : Mem) (reply : Reply κ) : Prop where
  rax : reply.rax = a.ret
  kernel : reply.kernel = a.kernel
  mem : reply.mem = if a.ret = -eintr then poke (poke m rem a.rem.sec) (rem + 8) a.rem.nsec else m

/-- What `nanosleep` does, as long as it gets two pointers. -/
def Nanosleep (sys : Kernel κ) (nanosleep : Timespec → κ → Slept κ) : Prop :=
  ∀ (r : Request) m k, r.number = 35 → r.rdi ≠ 0 → r.rsi ≠ 0 →
    Sleeps (nanosleep (timespecAt m r.rdi) k) r.rsi m (sys r m k)

/-! ### The function in C -/

/-- `req`. -/
def sleepReq (seconds : BitVec 32) : Timespec := ⟨seconds.setWidth 64, 0⟩

def sleepValue (slept : Slept κ) : BitVec 32 :=
  if 0 ≤ slept.ret.toInt then slept.ret.setWidth 32
  else if slept.ret = -eintr then slept.rem.sec.setWidth 32
  else 0

def sleep (nanosleep : Timespec → κ → Slept κ) (seconds : BitVec 32) (k : κ) : BitVec 32 × κ :=
  let slept := nanosleep (sleepReq seconds) k
  (sleepValue slept, slept.kernel)

/-- The routine entered in `s` asks what the function asks for `seconds`, returns what it returns
and leaves the stack balanced. -/
structure SleepsAs (z : Sleeper) (sys : Kernel κ) (nanosleep : Timespec → κ → Slept κ) (seconds : BitVec 32)
    (s : State κ) : Prop where
  asks : ∃ u, run z.code sys 6 s = some u ∧ u.rip = z.sysNanosleep ∧
    timespecAt u.mem (u.regs .rdi) = sleepReq seconds
  returns : ∃ n t, run z.code sys n s = some t ∧ t.rip = peek s.mem (s.regs .rsp) ∧
    t.regs .rsp = s.regs .rsp + 8 ∧ (t.regs .rax).setWidth 32 = (sleep nanosleep seconds s.kernel).1 ∧
    t.kernel = (sleep nanosleep seconds s.kernel).2

variable {z : Sleeper} {sys : Kernel κ} {nanosleep : Timespec → κ → Slept κ} {s : State κ} {sp : Addr}

/-! ### Up to the system call -/

/-- The machine where `sleep`, entered in `s`, has called the stub. -/
structure Asked (z : Sleeper) (next sp : Addr) (s u : State κ) : Prop where
  rip : u.rip = z.sysNanosleep
  rdi : u.regs .rdi = sp - 32
  rsi : u.regs .rsi = sp - 16
  rsp : u.regs .rsp = sp - 40
  kernel : u.kernel = s.kernel
  mem : u.mem = poke (poke (poke s.mem (sp - 32) (s.regs .rdi)) (sp - 24) 0) (sp - 40) next

theorem sleep_calls (sys : Kernel κ) (hs : s.rip = z.sleepAt) (hsp : s.regs .rsp = sp) :
    ∃ next u, Placed z.code next (.cmp .rax 0 :: .jge z.sleepQuit :: .neg .rax :: .cmp .rax 4 ::
        .jne z.sleepFailed :: (sleepInterrupted ++ .jmp z.sleepQuit :: .movImm .rax 0 :: sleepQuit)) ∧
      (∀ n, run z.code sys (6 + n) s = run z.code sys n u) ∧ Asked z next sp s u := by
  obtain ⟨next, hnext, hcall⟩ := run_call sys sleepAsk rfl (hs ▸ z.sleep_placed)
  have h16 : sp - 32#64 + 16#64 = sp - 16#64 := by bv_omega
  have h24 : sp - 32#64 + 8#64 = sp - 24#64 := by bv_omega
  have h40 : sp - 32#64 - 8#64 = sp - 40#64 := by bv_omega
  refine ⟨next, { (block sys sleepAsk s).push next with rip := z.sysNanosleep }, hnext, fun n => ?_,
    rfl, ?_, ?_, ?_, ?_, ?_⟩
  · have hlen : 6 + n = sleepAsk.length + (n + 1) := by
      simp [sleepAsk]
      omega
    rw [hlen]
    exact hcall n
  all_goals simp [sleepAsk, effect, State.address, hsp, h16, h24, h40]

theorem Asked.timespec {next : Addr} {u : State κ} (h : Asked z next sp s u) {m : Mem}
    (hm : ∀ e : Word, e = 32 ∨ e = 24 → peek m (sp - e) = peek u.mem (sp - e)) :
    timespecAt m (u.regs .rdi) = ⟨s.regs .rdi, 0⟩ := by
  have h24 : sp - 32 + 8 = sp - 24 := by bv_omega
  rw [timespecAt, h.rdi, h24, hm 32 (.inl rfl), hm 24 (.inr rfl), h.mem,
    peek_poke_apart _ _ (apart_sub sp (by decide) (by decide)),
    peek_poke_apart _ _ (apart_sub sp (by decide) (by decide)), peek_poke,
    peek_poke_apart _ _ (apart_sub sp (by decide) (by decide)), peek_poke]

/-- The machine where the stub has returned. -/
structure Answered (next sp : Addr) (a : Slept κ) (s v : State κ) : Prop where
  rip : v.rip = next
  rax : v.regs .rax = a.ret
  rsp : v.regs .rsp = sp - 32
  kernel : v.kernel = a.kernel
  ret : peek v.mem sp = peek s.mem sp
  rem : a.ret = -eintr → peek v.mem (sp - 16) = a.rem.sec

/-- What the kernel answers to the stub. -/
theorem Asked.replied (hsys : Nanosleep sys nanosleep) {next : Addr} {u : State κ}
    (h : Asked z next sp s u) (hreq : sp - 32 ≠ 0) (hrem : sp - 16 ≠ 0) :
    Sleeps (nanosleep ⟨s.regs .rdi, 0⟩ s.kernel) (sp - 16) (poke u.mem (sp - 48) (u.regs .r10))
      (stubReply sys 35 u) := by
  have h48 : sp - 40 - 8 = sp - 48 := by bv_omega
  have hrdi : u.regs .rdi ≠ 0 := by
    rw [h.rdi]
    exact hreq
  have hrsi : u.regs .rsi ≠ 0 := by
    rw [h.rsi]
    exact hrem
  -- the stub saves `r10` below the return address, where the request is not
  have hasked : timespecAt (poke u.mem (sp - 48) (u.regs .r10)) (u.regs .rdi) = ⟨s.regs .rdi, 0⟩ := by
    refine h.timespec fun e he => peek_poke_apart _ _ ?_
    rcases he with rfl | rfl <;> exact apart_sub sp (by decide) (by decide)
  have hsleeps := hsys { u.request with number := 35, r10 := u.regs .rcx }
    (poke u.mem (sp - 48) (u.regs .r10)) u.kernel rfl hrdi hrsi
  rw [← hasked, ← h.kernel, ← h.rsi, stubReply, h.rsp, h48]
  exact hsleeps

theorem sleep_answered (hsys : Nanosleep sys nanosleep) {next : Addr} {u : State κ}
    (h : Asked z next sp s u) (hreq : sp - 32 ≠ 0) (hrem : sp - 16 ≠ 0) :
    ∃ v, (∀ n, run z.code sys (6 + n) u = run z.code sys n v) ∧
      Answered next sp (nanosleep ⟨s.regs .rdi, 0⟩ s.kernel) s v := by
  have h48 : sp - 40 - 8 = sp - 48 := by bv_omega
  have h8 : sp - 16 + 8 = sp - 8 := by bv_omega
  have hreply := h.replied hsys hreq hrem
  have hmem := hreply.mem
  rw [h8] at hmem
  -- what it writes is above what it reads and below the return address of `sleep`
  have hkeep : ∀ x : Addr, Apart x (sp - 16) → Apart x (sp - 8) → Apart x (sp - 48) →
      peek (stubReply sys 35 u).mem x = peek u.mem x := by
    intro x h16 h8 h48
    rw [hmem]
    split
    · rw [peek_poke_apart _ _ h8, peek_poke_apart _ _ h16, peek_poke_apart _ _ h48]
    · rw [peek_poke_apart _ _ h48]
  have hr10 : peek (stubReply sys 35 u).mem (u.regs .rsp - 8) = u.regs .r10 := by
    rw [h.rsp, h48, hmem]
    split
    · rw [peek_poke_apart _ _ (apart_sub sp (by decide) (by decide)),
        peek_poke_apart _ _ (apart_sub sp (by decide) (by decide)), peek_poke]
    · rw [peek_poke]
  obtain ⟨v, hrun, hv⟩ := run_gensys (h.rip ▸ z.sysNanosleep_placed) hr10
  have htop : ∀ e : Word, 8 ≤ e.toNat → e.toNat ≤ 48 → Apart sp (sp - e) := by
    intro e he he'
    apply apart_of_offset <;> bv_omega
  refine ⟨v, hrun, ?_, hv.rax.trans hreply.rax, ?_, hv.kernel.trans hreply.kernel, ?_, fun hintr => ?_⟩
  · rw [hv.rip, h.rsp, hkeep _ (apart_sub sp (by decide) (by decide)) (apart_sub sp (by decide) (by decide))
      (apart_sub sp (by decide) (by decide)), h.mem, peek_poke]
  · rw [hv.rsp, h.rsp]
    bv_omega
  · rw [hv.mem, hkeep _ (htop 16 (by decide) (by decide)) (htop 8 (by decide) (by decide))
      (htop 48 (by decide) (by decide)), h.mem, peek_poke_apart _ _ (htop 40 (by decide) (by decide)),
      peek_poke_apart _ _ (htop 24 (by decide) (by decide)),
      peek_poke_apart _ _ (htop 32 (by decide) (by decide))]
  · rw [hv.mem, hmem, if_pos hintr, peek_poke_apart _ _ (apart_sub sp (by decide) (by decide)), peek_poke]

/-! ### After it -/

/-- The machine where `sleep` has returned. -/
structure Slumbered (sp : Addr) (value : Word) (v t : State κ) : Prop where
  rip : t.rip = peek v.mem sp
  rsp : t.regs .rsp = sp + 8
  rax : t.regs .rax = value
  kernel : t.kernel = v.kernel

theorem sleep_quit (sys : Kernel κ) {v : State κ} (hrip : v.rip = z.sleepQuit)
    (hrsp : v.regs .rsp = sp - 32) : ∃ t, run z.code sys 2 v = some t ∧ Slumbered sp (v.regs .rax) v t := by
  have hplaced : Placed z.code v.rip ([.add .rsp 32] ++ [.ret]) := by
    rw [hrip]
    exact placed_skip (sleepFront z.sysNanosleep z.sleepFailed z.sleepQuit ++ [Instr.movImm .rax 0])
      z.sleep_placed z.sleepQuit_at
  have hsp : sp - 32#64 + 32#64 = sp := by bv_omega
  refine ⟨_, run_ret sys [.add .rsp 32] rfl hplaced 0, ?_, ?_, ?_, ?_⟩
  all_goals simp [effect, hrsp, hsp]

theorem sleep_failed (sys : Kernel κ) {v : State κ} (hrip : v.rip = z.sleepFailed)
    (hrsp : v.regs .rsp = sp - 32) : ∃ t, run z.code sys 3 v = some t ∧ Slumbered sp 0 v t := by
  have hplaced : Placed z.code v.rip ([.movImm .rax 0, .add .rsp 32] ++ [.ret]) := by
    rw [hrip]
    exact placed_skip (sleepFront z.sysNanosleep z.sleepFailed z.sleepQuit) z.sleep_placed
      z.sleepFailed_at
  have hsp : sp - 32#64 + 32#64 = sp := by bv_omega
  refine ⟨_, run_ret sys [.movImm .rax 0, .add .rsp 32] rfl hplaced 0, ?_, ?_, ?_, ?_⟩
  all_goals simp [effect, hrsp, hsp]

theorem sleep_interrupted (sys : Kernel κ) {v : State κ} {rest : List Instr}
    (hplaced : Placed z.code v.rip (sleepInterrupted ++ .jmp z.sleepQuit :: rest))
    (hrsp : v.regs .rsp = sp - 32) :
    ∃ t, run z.code sys 5 v = some t ∧ Slumbered sp (peek v.mem (sp - 16)) v t := by
  obtain ⟨next, -, hrun⟩ := run_branch sys sleepInterrupted rfl hplaced
  have h16 : sp - 32#64 + 16#64 = sp - 16#64 := by bv_omega
  let u : State κ := { block sys sleepInterrupted v with rip := z.sleepQuit }
  have hu : u.regs .rsp = sp - 32 ∧ u.regs .rax = peek v.mem (sp - 16) ∧ u.mem = v.mem ∧ u.kernel = v.kernel := by
    simp [u, sleepInterrupted, effect, State.address, hrsp, h16]
  obtain ⟨t, ht, hslumbered⟩ := sleep_quit sys (v := u) rfl hu.1
  refine ⟨t, (hrun 2).trans ht, ?_, hslumbered.rsp, hslumbered.rax.trans hu.2.1,
    hslumbered.kernel.trans hu.2.2.2⟩
  rw [hslumbered.rip, hu.2.2.1]

/-- The two comparisons are those of the function. -/
theorem sleep_returns (sys : Kernel κ) {next : Addr} {a : Slept κ} {v : State κ}
    (hplaced : Placed z.code next (.cmp .rax 0 :: .jge z.sleepQuit :: .neg .rax :: .cmp .rax 4 ::
      .jne z.sleepFailed :: (sleepInterrupted ++ .jmp z.sleepQuit :: .movImm .rax 0 :: sleepQuit)))
    (h : Answered next sp a s v) :
    ∃ n t value, run z.code sys n v = some t ∧ Slumbered sp value v t ∧
      value.setWidth 32 = sleepValue a := by
  obtain ⟨error, herror, hjge⟩ := run_branch sys [.cmp .rax 0] rfl (h.rip ▸ hplaced)
  let u : State κ := exec sys error (block sys [.cmp .rax 0] v) (.jge z.sleepQuit)
  have hsign : ((subFlags (v.regs .rax) 0).sign = (subFlags (v.regs .rax) 0).overflow) ↔ 0 ≤ a.ret.toInt := by
    rw [h.rax]
    exact subFlags_sign a.ret 0
  by_cases hret : 0 ≤ a.ret.toInt
  case pos =>
    have hu : u.rip = z.sleepQuit := if_pos (hsign.mpr hret)
    obtain ⟨t, ht, hslumbered⟩ := sleep_quit sys hu (show u.regs .rsp = sp - 32 from h.rsp)
    refine ⟨4, t, a.ret, (hjge 2).trans ht, ⟨hslumbered.rip, hslumbered.rsp, ?_, hslumbered.kernel⟩, ?_⟩
    · exact hslumbered.rax.trans h.rax
    · rw [sleepValue, if_pos hret]
  case neg =>
    have hu : u.rip = error := if_neg (mt hsign.mp hret)
    obtain ⟨intr, hintr, hjne⟩ := run_branch sys [.neg .rax, .cmp .rax 4] rfl (hu ▸ herror)
    let w : State κ := exec sys intr (block sys [.neg .rax, .cmp .rax 4] u) (.jne z.sleepFailed)
    have hneg : (block sys [.neg .rax, .cmp .rax 4] u).flags = subFlags (-a.ret) 4 := by
      have hrax : u.regs .rax = a.ret := h.rax
      simp [effect, hrax]
    have hrsp : w.regs .rsp = sp - 32 := h.rsp
    have hzero : (subFlags (-a.ret) 4).zero = true ↔ a.ret = -eintr := by
      simp only [subFlags, eintr, beq_iff_eq]
      bv_omega
    have hw : w.rip = if (subFlags (-a.ret) 4).zero then intr else z.sleepFailed := by
      rw [← hneg]
      rfl
    by_cases heintr : a.ret = -eintr
    case pos =>
      rw [if_pos (hzero.mpr heintr)] at hw
      obtain ⟨t, ht, hslumbered⟩ := sleep_interrupted sys (hw ▸ hintr) hrsp
      refine ⟨10, t, a.rem.sec, ((hjge 8).trans (hjne 5)).trans ht,
        ⟨hslumbered.rip, hslumbered.rsp, ?_, hslumbered.kernel⟩, ?_⟩
      · exact hslumbered.rax.trans (h.rem heintr)
      · rw [sleepValue, if_neg hret, if_pos heintr]
    case neg =>
      rw [if_neg (mt hzero.mp heintr)] at hw
      obtain ⟨t, ht, hslumbered⟩ := sleep_failed sys hw hrsp
      refine ⟨8, t, 0, ((hjge 6).trans (hjne 3)).trans ht,
        ⟨hslumbered.rip, hslumbered.rsp, hslumbered.rax, hslumbered.kernel⟩, ?_⟩
      rw [sleepValue, if_neg hret, if_neg heintr]
      rfl

/-- What it asks for is the whole register. -/
theorem SleepsAs.register {seconds : BitVec 32} (h : SleepsAs z sys nanosleep seconds s)
    (hs : s.rip = z.sleepAt) : s.regs .rdi = seconds.setWidth 64 := by
  obtain ⟨next, u, -, hrun, hasked⟩ := sleep_calls sys hs rfl
  obtain ⟨u', hu', -, hreq⟩ := h.asks
  have hu : run z.code sys 6 s = some u := hrun 0
  obtain rfl := Option.some.inj (hu.symm.trans hu')
  have hrequest : timespecAt u.mem (u.regs .rdi) = ⟨s.regs .rdi, 0⟩ := hasked.timespec fun _ _ => rfl
  exact congrArg Timespec.sec (hrequest.symm.trans hreq)

/-- **`sleep` in assembly is `sleep` in C exactly when the upper half of its argument's register is
zero.** -/
theorem sleep_iff (hsys : Nanosleep sys nanosleep) (hs : s.rip = z.sleepAt)
    (hreq : s.regs .rsp - 32 ≠ 0) (hrem : s.regs .rsp - 16 ≠ 0) :
    SleepsAs z sys nanosleep ((s.regs .rdi).setWidth 32) s ↔ (s.regs .rdi).toNat < 2 ^ 32 := by
  constructor
  · intro h
    have hregister := h.register hs
    bv_omega
  · intro hlow
    have heq : (⟨s.regs .rdi, 0⟩ : Timespec) = sleepReq ((s.regs .rdi).setWidth 32) := by
      rw [sleepReq, Timespec.mk.injEq, and_iff_left rfl]
      bv_omega
    obtain ⟨next, u, hnext, hrun, hasked⟩ := sleep_calls sys hs rfl
    have hrequest : timespecAt u.mem (u.regs .rdi) = ⟨s.regs .rdi, 0⟩ := hasked.timespec fun _ _ => rfl
    obtain ⟨v, hanswer, hv⟩ := sleep_answered hsys hasked hreq hrem
    obtain ⟨n, t, value, ht, hslumbered, hvalue⟩ := sleep_returns sys hnext hv
    refine ⟨⟨u, hrun 0, hasked.rip, hrequest.trans heq⟩, 6 + (6 + n), t, ?_, ?_, hslumbered.rsp, ?_, ?_⟩
    · rw [hrun, hanswer]
      exact ht
    · rw [hslumbered.rip, hv.ret]
    · rw [hslumbered.rax, hvalue, heq]
      rfl
    · rw [hslumbered.kernel, hv.kernel, heq]
      rfl

/-! ### Five seconds -/

/-- A kernel with no other system call. -/
def sleepKernel (nanosleep : Timespec → κ → Slept κ) : Kernel κ := fun r m k =>
  if r.number = 35 then
    let a := nanosleep (timespecAt m r.rdi) k
    ⟨a.ret, 0, 0, if a.ret = -eintr then poke (poke m r.rsi a.rem.sec) (r.rsi + 8) a.rem.nsec else m, a.kernel⟩
  else ⟨-38, 0, 0, m, k⟩ -- ENOSYS

theorem sleepKernel_nanosleep (nanosleep : Timespec → κ → Slept κ) :
    Nanosleep (sleepKernel nanosleep) nanosleep := by
  intro r m k hnumber _ _
  rw [sleepKernel, if_pos hnumber]
  exact ⟨rfl, rfl, rfl⟩

/-- A sleep that is interrupted at once. -/
def awakened : Timespec → Unit → Slept Unit := fun req _ => ⟨-eintr, req, ()⟩

def sleepCode : Code := fun a =>
  (layout 0x1000 (sleepText 0x2000 0x100e 0x100f) a).or (layout 0x2000 (gensys 35) a)

def sleeper : Sleeper where
  code := sleepCode
  sleepAt := 0x1000
  sleepFailed := 0x100e
  sleepQuit := 0x100f
  sysNanosleep := 0x2000
  sleep_placed := placed_of_lookup (by decide +kernel)
  sleepFailed_at := by decide +kernel
  sleepQuit_at := by decide +kernel
  sysNanosleep_placed := placed_of_lookup (by decide +kernel)

/-- The argument's register has `rdi`. -/
def tired (rdi : Word) : State Unit where
  regs r := match r with
    | .rdi => rdi
    | .rsp => 0x7000
    | _ => 0
  rip := 0x1000
  mem _ := 0
  kernel := ()

theorem sleep_five : SleepsAs sleeper (sleepKernel awakened) awakened 5 (tired 5) :=
  (sleep_iff (z := sleeper) (s := tired 5) (sleepKernel_nanosleep awakened) rfl (by decide) (by decide)).mpr
    (by decide)

/-- Something is in the upper half. -/
theorem sleep_longer : (tired 0x100000005).rip = sleeper.sleepAt ∧ Nanosleep (sleepKernel awakened) awakened ∧
    ((tired 0x100000005).regs .rdi).setWidth 32 = 5#32 ∧
    ¬ SleepsAs sleeper (sleepKernel awakened) awakened 5 (tired 0x100000005) := by
  refine ⟨rfl, sleepKernel_nanosleep awakened, by decide, fun h => ?_⟩
  exact absurd (h.register rfl) (by decide)

end Apue.Libmini

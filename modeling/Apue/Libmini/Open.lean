import Apue.Libmini.Stub

/-! `open` in assembly.

It finds `errno` through the slot of the global offset table that the linker fills, so it is
right only as long as its system call leaves that slot and the stack alone. -/
namespace Apue.Libmini
open Memory X86

def openError (got : Addr) : List Instr :=
  [.neg .rax, .loadAbs .rdi got, .store ⟨.rdi, 0⟩ .rax, -- errno = -rax
   .movImm .rax (-1)]

def openSuccess (got : Addr) : List Instr :=
  [.loadAbs .rdi got, .storeImm ⟨.rdi, 0⟩ 0] -- errno = 0

def openText (sysOpen success quit got : Addr) : List Instr :=
  .call sysOpen :: .cmp .rax 0 :: .jge success ::
    (openError got ++ .jmp quit :: (openSuccess got ++ [.ret]))

/-- Where the linker has put what the wrappers use. -/
structure Library where
  code : Code
  errno : Addr
  /-- The slot of `errno` in the global offset table. -/
  got : Addr
  myrt : Addr
  openAt : Addr
  /-- Where `open` goes on after its call. -/
  openCmp : Addr
  openSuccess : Addr
  openQuit : Addr
  sysOpen : Addr
  open_placed : Placed code openAt (openText sysOpen openSuccess openQuit got)
  openCmp_at : skip code 1 openAt = some openCmp
  openSuccess_at : skip code 8 openAt = some openSuccess
  openQuit_at : skip code 10 openAt = some openQuit
  sysOpen_placed : Placed code sysOpen (gensys 2)

variable {κ : Type} {lib : Library} {sys : Kernel κ} {s t : State κ}

/-- The value of `errno`. -/
def errnoOf (lib : Library) (s : State κ) : Word := peek s.mem lib.errno

/-- The machine where `open`, entered in `s`, has called its stub. -/
def atSysOpen (lib : Library) (s : State κ) : State κ :=
  { s.push lib.openCmp with rip := lib.sysOpen }

/-- The kernel's answer to an `open` entered in `s`. -/
def openReply (lib : Library) (sys : Kernel κ) (s : State κ) : Reply κ :=
  stubReply sys 2 (atSysOpen lib s)

/-- What `open`, entered in `s`, is promised: system call 2 writes none of the program's memory,
and neither the slot nor `errno` is on the stack it uses. -/
structure OpenLinked (lib : Library) (sys : Kernel κ) (s : State κ) : Prop where
  untouched : ∀ (r : Request) m k, r.number = 2 → (sys r m k).mem = m
  got : peek s.mem lib.got = lib.errno
  got_stack : Apart lib.got (s.regs .rsp - 8) ∧ Apart lib.got (s.regs .rsp - 16)
  errno_stack : Apart lib.errno (s.regs .rsp)

/-- An `open` entered in `s` has returned in `t`. -/
structure OpenReturns (lib : Library) (sys : Kernel κ) (s t : State κ) : Prop where
  rip : t.rip = peek s.mem (s.regs .rsp)
  rsp : t.regs .rsp = s.regs .rsp + 8
  error : (openReply lib sys s).rax.toInt < 0 →
    t.regs .rax = -1 ∧ errnoOf lib t = -(openReply lib sys s).rax
  success : 0 ≤ (openReply lib sys s).rax.toInt →
    t.regs .rax = (openReply lib sys s).rax ∧ errnoOf lib t = 0

theorem sysOpen_returns (hlinked : OpenLinked lib sys s) :
    ∃ u : State κ, (∀ n, run lib.code sys (6 + n) (atSysOpen lib s) = run lib.code sys n u) ∧
      u.rip = lib.openCmp ∧ u.regs .rax = (openReply lib sys s).rax ∧
      u.regs .rsp = s.regs .rsp ∧ peek u.mem lib.got = lib.errno ∧
      peek u.mem (s.regs .rsp) = peek s.mem (s.regs .rsp) := by
  have h16 : s.regs .rsp - 8 - 8 = s.regs .rsp - 16 := by bv_omega
  have hmem : (stubReply sys 2 (atSysOpen lib s)).mem =
      poke (poke s.mem (s.regs .rsp - 8) lib.openCmp) (s.regs .rsp - 16) (s.regs .r10) := by
    refine (hlinked.untouched _ _ _ rfl).trans ?_
    rw [← h16]
    rfl
  have hrsp : (atSysOpen lib s).regs .rsp = s.regs .rsp - 8 := rfl
  have hr10 : peek (stubReply sys 2 (atSysOpen lib s)).mem ((atSysOpen lib s).regs .rsp - 8) =
      (atSysOpen lib s).regs .r10 := by
    rw [hmem, hrsp, h16, peek_poke]
    rfl
  obtain ⟨u, hrun, hu⟩ := run_gensys (s := atSysOpen lib s) lib.sysOpen_placed hr10
  refine ⟨u, hrun, ?_, hu.rax, ?_, ?_, ?_⟩
  · rw [hu.rip, hmem, hrsp, peek_poke_apart _ _ (apart_sub _ (by decide) (by decide)), peek_poke]
  · rw [hu.rsp, hrsp, BitVec.sub_add_cancel]
  · rw [hu.mem, hmem, peek_poke_apart _ _ hlinked.got_stack.2,
      peek_poke_apart _ _ hlinked.got_stack.1]
    exact hlinked.got
  · have htop : ∀ e : Word, 8 ≤ e.toNat → e.toNat ≤ 16 → Apart (s.regs .rsp) (s.regs .rsp - e) := by
      intro e he he'
      apply apart_of_offset <;> bv_omega
    rw [hu.mem, hmem, peek_poke_apart _ _ (htop 16 (by decide) (by decide)),
      peek_poke_apart _ _ (htop 8 (by decide) (by decide))]

/-- The two ways to return, from where the comparison is. -/
theorem open_success {u : State κ} (hrip : u.rip = lib.openSuccess) (hgot : peek u.mem lib.got = lib.errno) :
    ∃ t, run lib.code sys 3 u = some t ∧ t.rip = peek (poke u.mem lib.errno 0) (u.regs .rsp) ∧
      t.regs .rsp = u.regs .rsp + 8 ∧ t.regs .rax = u.regs .rax ∧ errnoOf lib t = 0 := by
  have hplaced : Placed lib.code u.rip (openSuccess lib.got ++ [.ret]) := by
    rw [hrip]
    exact placed_skip (.call lib.sysOpen :: .cmp .rax 0 :: .jge lib.openSuccess ::
      (openError lib.got ++ [Instr.jmp lib.openQuit])) lib.open_placed lib.openSuccess_at
  refine ⟨_, run_ret sys (openSuccess lib.got) rfl hplaced 0, ?_, ?_, ?_, ?_⟩
  all_goals simp [openSuccess, effect, State.address, hgot, errnoOf, peek_poke]

theorem open_error {u : State κ} (hplaced : Placed lib.code u.rip (openError lib.got ++
      .jmp lib.openQuit :: (openSuccess lib.got ++ [.ret])))
    (hgot : peek u.mem lib.got = lib.errno) :
    ∃ t, run lib.code sys 6 u = some t ∧
      t.rip = peek (poke u.mem lib.errno (-u.regs .rax)) (u.regs .rsp) ∧
      t.regs .rsp = u.regs .rsp + 8 ∧ t.regs .rax = -1 ∧ errnoOf lib t = -u.regs .rax := by
  obtain ⟨next, -, hrun⟩ := run_branch sys (openError lib.got) rfl hplaced
  have hquit : Placed lib.code lib.openQuit ([] ++ [.ret]) :=
    placed_skip (.call lib.sysOpen :: .cmp .rax 0 :: .jge lib.openSuccess ::
      (openError lib.got ++ .jmp lib.openQuit :: openSuccess lib.got)) lib.open_placed lib.openQuit_at
  let v : State κ := { block sys (openError lib.got) u with rip := lib.openQuit }
  refine ⟨v.ret, (hrun 1).trans (run_ret sys [] rfl (s := v) hquit 0), ?_, ?_, ?_, ?_⟩
  all_goals simp [v, openError, effect, State.address, hgot, errnoOf, peek_poke]

/-- **`open` returns** with the result and the `errno` of its system call. -/
theorem run_open (hs : s.rip = lib.openAt) (hlinked : OpenLinked lib sys s) :
    ∃ n t, n ≤ 15 ∧ run lib.code sys n s = some t ∧ OpenReturns lib sys s t := by
  have hplaced : Placed lib.code s.rip (openText lib.sysOpen lib.openSuccess lib.openQuit lib.got) :=
    hs ▸ lib.open_placed
  obtain ⟨next, hcode, hcmp⟩ := hplaced
  have hnext : next = lib.openCmp := by
    have hskip := lib.openCmp_at
    rw [skip, ← hs, hcode] at hskip
    exact Option.some.inj hskip
  obtain ⟨u, hsysOpen, hrip, hrax, hrsp, hgot, htop⟩ := sysOpen_returns hlinked
  rw [hnext, ← hrip] at hcmp
  obtain ⟨error, herror, hjge⟩ := run_branch sys [.cmp .rax 0] rfl hcmp
  have hrun : ∀ n, run lib.code sys (9 + n) s =
      run lib.code sys n (exec sys error (block sys [.cmp .rax 0] u) (.jge lib.openSuccess)) := by
    intro n
    have hlen : 9 + n = 6 + ([Instr.cmp .rax 0].length + (n + 1)) + 1 := by
      simp
      omega
    rw [hlen, run, hcode, ← hjge, ← hsysOpen, hnext]
    rfl
  have hkeep : ∀ v : Word, peek (poke u.mem lib.errno v) (u.regs .rsp) = peek s.mem (s.regs .rsp) := by
    intro v
    rw [hrsp, peek_poke_apart _ _ hlinked.errno_stack.symm, htop]
  have hflags : ((subFlags (u.regs .rax) 0).sign = (subFlags (u.regs .rax) 0).overflow) ↔
      0 ≤ (openReply lib sys s).rax.toInt := by
    rw [← hrax]
    exact subFlags_sign (u.regs .rax) 0
  by_cases hr : 0 ≤ (openReply lib sys s).rax.toInt
  case pos =>
    let v : State κ := exec sys error (block sys [.cmp .rax 0] u) (.jge lib.openSuccess)
    have hv : v.rip = lib.openSuccess := if_pos (hflags.mpr hr)
    obtain ⟨t, hret, htrip, htrsp, htrax, hterrno⟩ := open_success hv hgot
    refine ⟨12, t, by decide, (hrun 3).trans hret, ?_, ?_, fun hneg => absurd hr (by omega), fun _ => ?_⟩
    · exact htrip.trans (hkeep 0)
    · exact htrsp.trans (by rw [← hrsp]; rfl)
    · exact ⟨htrax.trans hrax, hterrno⟩
  case neg =>
    let v : State κ := exec sys error (block sys [.cmp .rax 0] u) (.jge lib.openSuccess)
    have hv : v.rip = error := if_neg (mt hflags.mp hr)
    obtain ⟨t, hret, htrip, htrsp, htrax, hterrno⟩ := open_error (u := v) (hv ▸ herror) hgot
    refine ⟨15, t, by decide, (hrun 6).trans hret, ?_, ?_, fun _ => ?_, fun hpos => absurd hpos hr⟩
    · exact htrip.trans (hkeep _)
    · exact htrsp.trans (by rw [← hrsp]; rfl)
    · exact ⟨htrax, hterrno.trans (congrArg Neg.neg hrax)⟩

end Apue.Libmini

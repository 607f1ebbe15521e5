import Apue.Libmini.Setjmp
import Apue.Transition.Run

/-! Runs of `setjmp` and `longjmp`.

A session is the machine with, for each `jmp_buf`, the call that filled it last. Between
the calls the program does what it likes to the machine. `longjmp` returns its value as it is, so
that `told_iff`: a run's direct returns can be told from its jumps exactly when no jump has the
value 0. -/
namespace Apue.Libmini
open Memory X86 Transition

/-- Where the routines are. -/
structure Jumper where
  code : Code
  setjmpAt : Addr
  longjmpAt : Addr
  sysRtSigprocmask : Addr
  setjmp_placed : Placed code setjmpAt (setjmp sysRtSigprocmask)
  longjmp_placed : Placed code longjmpAt (longjmp sysRtSigprocmask)
  sysRtSigprocmask_placed : Placed code sysRtSigprocmask (gensys 14)

/-! ### Sessions -/

/-- The machine in which a `setjmp` was called and the memory at its return. -/
structure Filled (κ : Type) where
  call : State κ
  left : Mem

structure Session (κ : Type) where
  machine : State κ
  filled : Addr → Option (Filled κ) := fun _ => none

inductive Act (κ : Type) where
  | work (s : State κ) -- the code around the calls
  | setjmp
  | longjmp

variable {κ : Type}

/-- The calls run until they return; one that leaves the code does not return. -/
def act (j : Jumper) (sys : Kernel κ) : Act κ → Session κ → Except Unit (Session κ)
  | .work s, w => .ok { w with machine := s }
  | .setjmp, w =>
    match run j.code sys 28 w.machine with
    | some t => .ok ⟨t, Function.update w.filled (w.machine.regs .rdi) (some ⟨w.machine, t.mem⟩)⟩
    | none => .error ()
  | .longjmp, w =>
    match run j.code sys 25 w.machine with
    | some t => .ok { w with machine := t }
    | none => .error ()

/-- The address a call entered in `s` returns to. -/
def returnAddress (s : State κ) : Addr := peek s.mem (s.regs .rsp)

/-- The `int` a call returned. -/
def result (s : State κ) : BitVec 32 := (s.regs .rax).setWidth 32

/-- The `int` a `longjmp` is called with. -/
def val (s : State κ) : BitVec 32 := (s.regs .rsi).setWidth 32

/-- The 72 bytes are those that a `setjmp` left there. -/
def Live (w : Session κ) (env : Addr) : Prop :=
  ∃ f, w.filled env = some f ∧ ∀ x : Addr, (x - env).toNat < 72 → w.machine.mem x = f.left x

/-- What the callers of the routines promise. -/
def Promised (j : Jumper) (w : Session κ) : Act κ → Prop
  | .work _ => True
  | .setjmp => w.machine.rip = j.setjmpAt ∧ Disjoint (w.machine.regs .rdi) (w.machine.regs .rsp) ∧
      w.machine.regs .rsp - 16 ≠ 0 ∧ w.machine.regs .rdi + 64 ≠ 0
  | .longjmp => w.machine.rip = j.longjmpAt ∧ Live w (w.machine.regs .rdi)

/-- A `setjmp` returns 0. A `longjmp` returns where the `setjmp` of its `jmp_buf` did, with its
value, or 1 for 0. -/
def Tells (e : Edge (Session κ) (Act κ)) : Prop :=
  match e.action with
  | .work _ => True
  | .setjmp => e.after.machine.rip = returnAddress e.before.machine ∧ result e.after.machine = 0
  | .longjmp => ∃ f, e.before.filled (e.before.machine.regs .rdi) = some f ∧
      e.after.machine.rip = returnAddress f.call ∧
      result e.after.machine = if val e.before.machine = 0 then 1 else val e.before.machine

/-! ### The calls -/

variable {j : Jumper} {sys : Kernel κ} {mask : κ → Word} {w w' : Session κ} {a : Act κ}

/-- What the `jmp_buf`s of a session have. -/
structure Holds (env : Addr) (f : Filled κ) : Prop where
  saves : Saves env f.call f.left
  disjoint : Disjoint env (f.call.regs .rsp)
  nonnull : env + 64 ≠ 0

def Kept (w : Session κ) : Prop := ∀ env f, w.filled env = some f → Holds env f

theorem kept_of_nil (hw : w.filled = fun _ => none) : Kept w := by
  intro env f hf
  rw [hw] at hf
  cases hf

theorem setjmp_returns (hmask : Sigprocmask sys mask) (h : Promised j w .setjmp) :
    ∃ t, act j sys .setjmp w =
        .ok ⟨t, Function.update w.filled (w.machine.regs .rdi) (some ⟨w.machine, t.mem⟩)⟩ ∧
      t.rip = returnAddress w.machine ∧ result t = 0 ∧
      Holds (w.machine.regs .rdi) ⟨w.machine, t.mem⟩ := by
  obtain ⟨hrip, hdisj, hstack, hnull⟩ := h
  obtain ⟨t, hrun, htrip, hrax, hsaves, -⟩ := run_setjmp rfl rfl (hrip ▸ j.setjmp_placed)
    j.sysRtSigprocmask_placed hmask hdisj hstack
  refine ⟨t, ?_, htrip, ?_, hsaves, hdisj, hnull⟩
  · rw [act, hrun]
  · rw [result, hrax]
    rfl

theorem longjmp_returns (hmask : Sigprocmask sys mask) (hw : Kept w) (h : Promised j w .longjmp) :
    ∃ t f, act j sys .longjmp w = .ok { w with machine := t } ∧
      w.filled (w.machine.regs .rdi) = some f ∧ t.rip = returnAddress f.call ∧
      result t = val w.machine := by
  obtain ⟨hrip, f, hf, hsame⟩ := h
  obtain ⟨hsaves, hdisj, hnull⟩ := hw _ f hf
  have hsp : peek w.machine.mem (w.machine.regs .rdi + 8) = f.call.regs .rsp :=
    (peek_env hsame (by decide)).trans (hsaves.regs (8, .rsp) (by decide))
  have hret : peek w.machine.mem (w.machine.regs .rdi + 56) = returnAddress f.call :=
    (peek_env hsame (by decide)).trans hsaves.rip
  obtain ⟨t, hrun, htrip, hrax, -⟩ := run_longjmp rfl hsp (hrip ▸ j.longjmp_placed)
    j.sysRtSigprocmask_placed hmask hdisj hnull
  refine ⟨t, f, ?_, hf, htrip.trans hret, ?_⟩
  · rw [act, hrun]
  · rw [result, hrax]
    rfl

/-- What is promised returns. -/
theorem act_returns (hmask : Sigprocmask sys mask) (hw : Kept w) (h : Promised j w a) :
    ∃ w', act j sys a w = .ok w' := by
  cases a with
  | work s => exact ⟨_, rfl⟩
  | setjmp =>
    obtain ⟨t, ht, -⟩ := setjmp_returns hmask h
    exact ⟨_, ht⟩
  | longjmp =>
    obtain ⟨t, f, ht, -⟩ := longjmp_returns hmask hw h
    exact ⟨_, ht⟩

theorem act_kept (hmask : Sigprocmask sys mask) (hw : Kept w) (h : Promised j w a)
    (ha : act j sys a w = .ok w') : Kept w' := by
  cases a with
  | work s =>
    cases ha
    exact hw
  | setjmp =>
    obtain ⟨t, ht, -, -, hholds⟩ := setjmp_returns hmask h
    cases ht.symm.trans ha
    intro env f hf
    simp only [Function.update_apply] at hf
    split at hf
    case isTrue henv =>
      cases hf
      exact henv ▸ hholds
    case isFalse => exact hw env f hf
  | longjmp =>
    obtain ⟨t, f, ht, -⟩ := longjmp_returns hmask hw h
    cases ht.symm.trans ha
    exact hw

theorem tells_iff (hmask : Sigprocmask sys mask) (hw : Kept w) (h : Promised j w a)
    (ha : act j sys a w = .ok w') : Tells ⟨w, a, w'⟩ ↔ (a = .longjmp → val w.machine ≠ 0) := by
  cases a with
  | work s => simp [Tells]
  | setjmp =>
    obtain ⟨t, ht, hrip, hresult, -⟩ := setjmp_returns hmask h
    cases ht.symm.trans ha
    simp [Tells, hrip, hresult]
  | longjmp =>
    obtain ⟨t, f, ht, hf, hrip, hresult⟩ := longjmp_returns hmask hw h
    cases ht.symm.trans ha
    constructor
    · intro ⟨_, _, _, hone⟩ _ hval
      rw [if_pos hval, hresult, hval] at hone
      exact absurd hone (by decide)
    · intro hval
      refine ⟨f, hf, hrip, ?_⟩
      rw [if_neg (hval rfl), hresult]

/-! ### Runs -/

section Runs
variable {t : Session κ} {l : List (Edge (Session κ) (Act κ))}

/-- **In a run the direct returns of `setjmp` can be told from the jumps exactly when no jump has
the value 0.** Every call that the program may make then returns. -/
theorem told_iff (hmask : Sigprocmask sys mask) (hw : w.filled = fun _ => none)
    (hpath : Path (act j sys) w l t) (hl : ∀ e ∈ l, Promised j e.before e.action) :
    (∀ a, Promised j t a → ∃ u, act j sys a t = .ok u) ∧
      ((∀ e ∈ l, Tells e) ↔ ∀ e ∈ l, e.action = .longjmp → val e.before.machine ≠ 0) := by
  have hstep : ∀ (s : Session κ) a u, Kept s → Promised j s a → act j sys a s = .ok u → Kept u :=
    fun _ _ _ hs ha hu => act_kept hmask hs ha hu
  have hstart : Kept w := kept_of_nil hw
  have hkept := hpath.forall_before hl hstart hstep
  have hend : Kept t := Run.invariant ⟨l, hpath, hl⟩ hstart hstep
  refine ⟨fun a ha => act_returns hmask hend ha, forall₂_congr fun e he => ?_⟩
  exact tells_iff hmask (hkept e he) (hl e he) (hpath.step_of_mem e he)

end Runs

/-! ### A jump -/

def jumper : Jumper where
  code := loaded
  setjmpAt := 0x1000
  longjmpAt := 0x2000
  sysRtSigprocmask := 0x3000
  setjmp_placed := placed_of_lookup (by decide +kernel)
  longjmp_placed := placed_of_lookup (by decide +kernel)
  sysRtSigprocmask_placed := placed_of_lookup (by decide +kernel)

/-- The caller of `longjmp(env, v)`. -/
def jumping (v : Word) (s : State κ) : State κ :=
  { (s.set .rdi 0x5000).set .rsi v with rip := 0x2000 }

/-- A `setjmp` and a `longjmp` back to it. -/
theorem exists_jump (v : Word) : ∃ l t, Path (act jumper maskKernel) ⟨entry, fun _ => none⟩ l t ∧
    (∀ e ∈ l, Promised jumper e.before e.action) ∧
    ∃ first work jump, l = [first, work, jump] ∧ first.action = .setjmp ∧
      work.action = .work (jumping v first.after.machine) ∧ jump.action = .longjmp ∧
      val jump.before.machine = v.setWidth 32 ∧ result jump.after.machine = v.setWidth 32 := by
  have hset : Promised jumper ⟨entry, fun _ => none⟩ .setjmp := by
    refine ⟨rfl, fun x hx => ?_, by decide, by decide⟩
    simp only [entry] at hx ⊢
    bv_omega
  obtain ⟨s₁, hs₁, -⟩ := setjmp_returns maskKernel_sigprocmask hset
  let jumped : Session _ :=
    ⟨jumping v s₁, Function.update (fun _ => none) (entry.regs .rdi) (some ⟨entry, s₁.mem⟩)⟩
  have hkept := act_kept maskKernel_sigprocmask (kept_of_nil rfl) hset hs₁
  have hlong : Promised jumper jumped .longjmp := by
    refine ⟨rfl, ⟨entry, s₁.mem⟩, ?_, fun _ _ => rfl⟩
    simp [jumped, jumping, entry]
  obtain ⟨s₂, f, hs₂, -, -, hresult⟩ := longjmp_returns maskKernel_sigprocmask (w := jumped) hkept hlong
  have hval : val jumped.machine = v.setWidth 32 := by simp [jumped, jumping, val]
  refine ⟨_, _, .cons hs₁ (.cons rfl (.cons hs₂ .nil)), ?_, _, _, _, rfl, rfl, rfl, rfl, hval,
    hresult.trans hval⟩
  exact List.forall_mem_cons.mpr ⟨hset, List.forall_mem_cons.mpr ⟨trivial, List.forall_mem_singleton.mpr hlong⟩⟩

theorem told_seven : ∃ l t, Path (act jumper maskKernel) ⟨entry, fun _ => none⟩ l t ∧
    (∃ e ∈ l, e.action = .longjmp ∧ val e.before.machine = 7) ∧ ∀ e ∈ l, Tells e := by
  obtain ⟨l, t, hpath, hl, first, work, jump, rfl, hfirst, hwork, hjump, hval, -⟩ := exists_jump 7
  refine ⟨_, t, hpath, ⟨jump, by simp, hjump, hval⟩, ?_⟩
  refine (told_iff maskKernel_sigprocmask rfl hpath hl).2.mpr ?_
  simp [hfirst, hwork, hjump, hval]

/-- The jump is taken for a direct return. -/
theorem told_zero : Sigprocmask maskKernel Subtype.val ∧
    ∃ l t, Path (act jumper maskKernel) ⟨entry, fun _ => none⟩ l t ∧
    (∀ e ∈ l, Promised jumper e.before e.action) ∧
    ∃ e ∈ l, e.action = .longjmp ∧ val e.before.machine = 0 ∧ result e.after.machine = 0 ∧ ¬ Tells e := by
  obtain ⟨l, t, hpath, hl, first, work, jump, rfl, -, -, hjump, hval, hresult⟩ := exists_jump 0
  refine ⟨maskKernel_sigprocmask, _, t, hpath, hl, jump, by simp, hjump, hval, hresult, fun htells => ?_⟩
  rw [Tells, hjump] at htells
  obtain ⟨f, -, -, hone⟩ := htells
  have hzero : val jump.before.machine = 0 := hval
  rw [if_pos hzero, hresult] at hone
  exact absurd hone (by decide)

end Apue.Libmini

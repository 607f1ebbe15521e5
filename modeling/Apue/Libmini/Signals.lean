import Apue.Libmini.Setjmp
import Apue.Libmini.Sigset
import Apue.Transition.Run

/-! Handlers and the mask.

The kernel keeps an action for each signal and a set of blocked signals; what it promises of
the two system calls that change them is `Documented`. `signals_kept`: over any run `signal`,
`sigaction` and `sigprocmask` read and write a store of handlers and a set, and whatever they
installed comes back through `__myrt`. -/
namespace Apue.Libmini
open Memory X86 Bits Transition

variable {κ : Type}

/-- `struct sigaction`. -/
structure Action where
  handler : Word
  flags : Word
  restorer : Word
  mask : Word
  deriving DecidableEq

def actionAt (m : Mem) (a : Addr) : Action :=
  ⟨peek m a, peek m (a + 8), peek m (a + 16), peek m (a + 24)⟩

def putAction (m : Mem) (a : Addr) (act : Action) : Mem :=
  poke (poke (poke (poke m a act.handler) (a + 8) act.flags) (a + 16) act.restorer) (a + 24) act.mask

def sigsetAt (m : Mem) (a : Addr) : SigsetT := ⟨Vector.replicate nsigWords (peek m a)⟩

def putSigset (m : Mem) (a : Addr) (set : SigsetT) : Mem := poke m a (set.word 0)

/-- `SIGALRM`. -/
def sigalrm : BitVec 32 := 14

/-- `act`, as `signal` fills it in. -/
def signalAct (act signo handler : Word) (m : Mem) : Mem :=
  let mem := poke m act handler
  let mem := putSigset mem (act + 24) (sigemptyset (sigsetAt mem (act + 24)))
  let mem := poke mem (act + 8) 0
  let flag := if signo.setWidth 32 = sigalrm then 0x20000000 else 0x10000000 -- SA_INTERRUPT, SA_RESTART
  poke mem (act + 8) (peek mem (act + 8) ||| flag)

/-- `signal`, with `act` and `oact` in its frame. -/
def signal (lib : Library) (sys : Kernel κ) (act oact signo handler : Word) (s : State κ) :
    Option (Word × State κ) := do
  let s := { s with mem := signalAct act signo handler s.mem }
  let (ret, s) ← (sigaction lib sys signo act oact).perform s
  if ret < 0 then some (-1, s) else some (peek s.mem oact, s) -- SIG_ERR

/-- `__myrt`. -/
def myrt : List Instr := [.movImm .rax 15, .syscall, .ret]

/-! ### The kernel -/

/-- The signal of a number; there is none of 0 or 65. -/
def signalOf (signo : Word) : Option Signal :=
  let number := (signo.setWidth 32).toInt
  if h : 1 ≤ number ∧ number ≤ nsig then some ⟨number, h.1, h.2⟩ else none

/-- `SIGKILL` and `SIGSTOP`. -/
def uncatchable : Set Signal := {n | n.number = 9 ∨ n.number = 19}

instance (n : Signal) : Decidable (n ∈ uncatchable) := inferInstanceAs (Decidable (_ ∨ _))

/-- The signal that an action can be set for. -/
def catchable (signo : Word) : Option Signal := (signalOf signo).filter fun n => n ∉ uncatchable

abbrev signals (v : Word) : Set Signal := elements Signal.bit v

/-- What `how` does with the blocked signals, if it is `SIG_BLOCK`, `SIG_UNBLOCK` or
`SIG_SETMASK`. -/
def masked (how : Word) (blocked set : Set Signal) : Option (Set Signal) :=
  if how.setWidth 32 = 0#32 then some (blocked ∪ (set \ uncatchable))
  else if how.setWidth 32 = 1#32 then some (blocked \ (set \ uncatchable))
  else if how.setWidth 32 = 2#32 then some (set \ uncatchable)
  else none

/-- What the kernel keeps for the process. -/
structure Signals (κ : Type) where
  actions : κ → Signal → Action
  blocked : κ → Word

/-- `SA_RESTORER`. -/
def saRestorer : Word := 0x04000000

/-- An action as the kernel takes it: it may drop flags it does not know, and signals that
cannot be blocked. -/
structure Takes (given kept : Action) : Prop where
  handler : kept.handler = given.handler
  restorer : kept.restorer = given.restorer
  flag : kept.flags &&& saRestorer = given.flags &&& saRestorer

/-- What `rt_sigaction` and `rt_sigprocmask` do, where the structures they are given are memory
of the process (`user`). -/
structure Documented (sys : Kernel κ) (kept : Signals κ) (user : Addr → Prop) : Prop where
  null : ¬ user 0
  installs : ∀ req m k n, req.number = 13 → req.r10 = 8 → catchable req.rdi = some n →
    user req.rsi → (req.rdx = 0 ∨ user req.rdx) → (sys req m k).rax = 0 ∧
      (sys req m k).mem = (if req.rdx = 0 then m else putAction m req.rdx (kept.actions k n)) ∧
      Takes (actionAt m req.rsi) (kept.actions (sys req m k).kernel n) ∧
      (∀ n', n' ≠ n → kept.actions (sys req m k).kernel n' = kept.actions k n') ∧
      kept.blocked (sys req m k).kernel = kept.blocked k
  /-- `EINVAL`. -/
  refuses : ∀ req m k, req.number = 13 → req.r10 = 8 → catchable req.rdi = none →
    user req.rsi → (req.rdx = 0 ∨ user req.rdx) →
      (sys req m k).rax = -22 ∧ (sys req m k).mem = m ∧ (sys req m k).kernel = k
  masks : ∀ req m k next, req.number = 14 → req.r10 = 8 → (req.rsi = 0 ∨ user req.rsi) →
    (req.rdx = 0 ∨ user req.rdx) →
    (if req.rsi = 0 then some (signals (kept.blocked k))
      else masked req.rdi (signals (kept.blocked k)) (signals (peek m req.rsi))) = some next →
      (sys req m k).rax = 0 ∧
        (sys req m k).mem = (if req.rdx = 0 then m else poke m req.rdx (kept.blocked k)) ∧
        signals (kept.blocked (sys req m k).kernel) = next ∧
        kept.actions (sys req m k).kernel = kept.actions k
  refusesMask : ∀ req m k, req.number = 14 → req.r10 = 8 → user req.rsi →
    (req.rdx = 0 ∨ user req.rdx) →
    masked req.rdi (signals (kept.blocked k)) (signals (peek m req.rsi)) = none →
      (sys req m k).rax = -22 ∧ (sys req m k).mem = m ∧ (sys req m k).kernel = k

/-! ### Runs -/

/-- What a program does; the result of a call is in `rax`. -/
inductive Move (κ : Type) where
  | signal (act oact signo handler : Word)
  | sigaction (signo act oact : Word)
  | sigprocmask (how mask old : Word)
  | other (t : State κ)

def returned : Option (Word × State κ) → Except Unit (State κ)
  | some (v, t) => .ok (t.set .rax v)
  | none => .error ()

def Move.act (lib : Library) (sys : Kernel κ) : Move κ → State κ → Except Unit (State κ)
  | .signal act oact signo handler, s => returned
    (Libmini.signal lib sys act oact signo handler s)
  | .sigaction signo act oact, s => returned
    (((Libmini.sigaction lib sys signo act oact).perform s).map fun p => (BitVec.ofInt 64 p.1, p.2))
  | .sigprocmask how mask old, s => returned
    (((Libmini.sigprocmask lib sys how mask old).perform s).map fun p => (BitVec.ofInt 64 p.1, p.2))
  | .other t, _ => .ok t

/-- The structures are where the kernel can reach them, and what is read later is not in
`errno`. The rest of the program leaves its signals to these functions. -/
def Move.Allowed (lib : Library) (kept : Signals κ) (user : Addr → Prop) (s : State κ) : Move κ → Prop
  | .signal act oact _ _ => user act ∧ user oact ∧ Apart oact lib.errno
  | .sigaction _ act oact => user act ∧ (oact = 0 ∨ user oact ∧ Apart oact lib.errno)
  | .sigprocmask _ mask old => (mask = 0 ∨ user mask) ∧ (old = 0 ∨ user old ∧ Apart old lib.errno)
  | .other t => kept.actions t.kernel = kept.actions s.kernel ∧
    kept.blocked t.kernel = kept.blocked s.kernel

/-- The handlers, the blocked signals, and the signals with a handler from the library. -/
structure Store where
  handler : Signal → Word
  blocked : Set Signal
  ours : Set Signal

def Store.install (st : Store) (handler : Word) : Option Signal → Store
  | some n => { st with handler := Function.update st.handler n handler, ours := insert n st.ours }
  | none => st

/-- What a call does to the store. -/
def Store.next (st : Store) (s : State κ) : Move κ → Store
  | .signal _ _ signo handler => st.install handler (catchable signo)
  | .sigaction signo act _ => st.install (peek s.mem act) (catchable signo)
  | .sigprocmask how mask _ =>
    if mask = 0 then st
    else { st with blocked := (masked how st.blocked (signals (peek s.mem mask))).getD st.blocked }
  | .other _ => st

/-- A result and an `errno`. -/
def Gives (lib : Library) (t : State κ) (v e : Word) : Prop := t.regs .rax = v ∧ errnoOf lib t = e

/-- The call between `s` and `t` tells what is in the store. -/
def Store.Answers (st : Store) (lib : Library) (s t : State κ) : Move κ → Prop
  | .signal _ _ signo _ => match catchable signo with
    | some n => Gives lib t (st.handler n) 0
    | none => Gives lib t (-1) 22
  | .sigaction signo _ oact => match catchable signo with
    | some n => Gives lib t 0 0 ∧ (oact ≠ 0 → peek t.mem oact = st.handler n)
    | none => Gives lib t (-1) 22
  | .sigprocmask how mask old =>
    if mask = 0 ∨ masked how st.blocked (signals (peek s.mem mask)) ≠ none then
      Gives lib t 0 0 ∧ (old ≠ 0 → signals (peek t.mem old) = st.blocked)
    else Gives lib t (-1) 22
  | .other _ => True

/-- The kernel keeps what is in the store. -/
structure Stored (lib : Library) (kept : Signals κ) (st : Store) (s : State κ) : Prop where
  handler : ∀ n, (kept.actions s.kernel n).handler = st.handler n
  blocked : signals (kept.blocked s.kernel) = st.blocked
  restorer : ∀ n ∈ st.ours, (kept.actions s.kernel n).restorer = lib.myrt ∧
    (kept.actions s.kernel n).flags &&& saRestorer = saRestorer

/-- Where a handler has returned to: the next thing is the system call `rt_sigreturn`, with the stack
as the handler left it. -/
def Sigreturns (lib : Library) (sys : Kernel κ) (u : State κ) : Prop :=
  ∃ v next, run lib.code sys 1 u = some v ∧ lib.code v.rip = some (.syscall, next) ∧ v.regs .rax = 15 ∧
    (∀ r, r ≠ .rax → v.regs r = u.regs r) ∧ v.mem = u.mem ∧ v.kernel = u.kernel

/-- Every call tells what the calls before it left in the store. -/
def Store.Told (lib : Library) : Store → List (Edge (State κ) (Move κ)) → Prop
  | _, [] => True
  | st, x :: l => st.Answers lib x.before x.after x.action ∧ (st.next x.before x.action).Told lib l

def Store.after (st : Store) (l : List (Edge (State κ) (Move κ))) : Store :=
  l.foldl (fun st x => st.next x.before x.action) st

variable {lib : Library} {sys : Kernel κ} {kept : Signals κ} {user : Addr → Prop} {s t : State κ}
  {st : Store}

/-! ### One call -/

theorem wrapperRetVal_zero (lib : Library) {result type : CType}
    (hresult : result.convert (type.convert 0) = 0) (s : State κ) :
    wrapperRetVal lib result type 0 s = (0, setErrno lib 0 s) := by
  simp [wrapperRetVal, hresult]

theorem wrapperRetVal_einval (lib : Library) {result type : CType} (hresult : result.convert (-1) = -1)
    (s : State κ) : wrapperRetVal lib result type (-22) s = (-1, setErrno lib 22 (setErrno lib 0 s)) := by
  have hneg : (-22 : Word).toInt < 0 := by decide
  simp only [wrapperRetVal, hneg, if_true, hresult]
  rfl

/-- The words of an action after its first. -/
theorem apart_field (act : Addr) {d : Word} (hd : d = 8 ∨ d = 16 ∨ d = 24) : Apart act (act + d) := by
  rcases hd with rfl | rfl | rfl <;> apply apart_of_offset <;> bv_omega

/-- The memory that `sigaction` gives to the kernel. -/
def givenMem (lib : Library) (act : Addr) (m : Mem) : Mem :=
  poke (poke m (act + 8) (peek m (act + 8) ||| saRestorer)) (act + 16) lib.myrt

theorem actionAt_givenMem (lib : Library) (act : Addr) (m : Mem) :
    actionAt (givenMem lib act m) act =
      ⟨peek m act, peek m (act + 8) ||| saRestorer, lib.myrt, peek m (act + 24)⟩ := by
  have hlast : ∀ d : Word, d = 8 ∨ d = 16 → Apart (act + 24) (act + d) := by
    rintro d (rfl | rfl) <;> exact apart_add act (by decide) (by decide)
  rw [actionAt, givenMem, peek_poke, peek_poke_apart _ _ (apart_field act (.inr (.inl rfl))),
    peek_poke_apart _ _ (apart_field act (.inl rfl)),
    peek_poke_apart _ _ (apart_add act (by decide) (by decide)), peek_poke,
    peek_poke_apart _ _ (hlast 16 (.inr rfl)), peek_poke_apart _ _ (hlast 8 (.inl rfl))]

theorem peek_putAction (m : Mem) (a : Addr) (act : Action) : peek (putAction m a act) a = act.handler := by
  rw [putAction, peek_poke_apart _ _ (apart_field a (.inr (.inr rfl))),
    peek_poke_apart _ _ (apart_field a (.inr (.inl rfl))), peek_poke_apart _ _ (apart_field a (.inl rfl)),
    peek_poke]

/-- The action of `n` is one for `handler` that comes back through `__myrt`, and nothing else has
changed. -/
structure Installs (lib : Library) (kept : Signals κ) (n : Signal) (handler : Word) (k k' : κ) : Prop where
  handler : (kept.actions k' n).handler = handler
  restorer : (kept.actions k' n).restorer = lib.myrt
  flag : (kept.actions k' n).flags &&& saRestorer = saRestorer
  others : ∀ n', n' ≠ n → kept.actions k' n' = kept.actions k n'
  blocked : kept.blocked k' = kept.blocked k

theorem Stored.install {n : Signal} {handler : Word} (h : Stored lib kept st s)
    (hi : Installs lib kept n handler s.kernel t.kernel) :
    Stored lib kept (st.install handler (some n)) t := by
  refine ⟨fun n' => ?_, ?_, fun n' hn' => ?_⟩
  · by_cases hn : n' = n
    · subst hn
      exact hi.handler.trans (Function.update_self n' handler st.handler).symm
    · rw [hi.others n' hn, h.handler]
      exact (Function.update_of_ne hn handler st.handler).symm
  · rw [hi.blocked]
    exact h.blocked
  · by_cases hn : n' = n
    · subst hn
      exact ⟨hi.restorer, hi.flag⟩
    · rw [hi.others n' hn]
      exact h.restorer n' (hn'.resolve_left hn)

theorem peek_signalAct (act signo handler : Word) (m : Mem) :
    peek (signalAct act signo handler m) act = handler := by
  rw [signalAct, peek_poke_apart _ _ (apart_field act (.inl rfl)),
    peek_poke_apart _ _ (apart_field act (.inl rfl)), putSigset,
    peek_poke_apart _ _ (apart_field act (.inr (.inr rfl))), peek_poke]

theorem Stored.congr (h : Stored lib kept st s) (hactions : kept.actions t.kernel = kept.actions s.kernel)
    (hblocked : kept.blocked t.kernel = kept.blocked s.kernel) : Stored lib kept st t :=
  ⟨hactions ▸ h.handler, hblocked ▸ h.blocked, hactions ▸ h.restorer⟩

section Kernel
variable (hsys : Documented sys kept user)
include hsys

theorem Documented.ne_zero {a : Addr} (h : user a) : a ≠ 0 := fun ha => hsys.null (ha ▸ h)

/-- `sigaction`, where the kernel takes the action. -/
theorem sigaction_installs (lib : Library) {signo act oact : Word} {n : Signal}
    (hn : catchable signo = some n) (hact : user act) (hoact : oact = 0 ∨ user oact) (s : State κ) :
    ∃ t, (sigaction lib sys signo act oact).perform s = some (0, t) ∧ errnoOf lib t = 0 ∧
      (oact ≠ 0 → Apart oact lib.errno → peek t.mem oact = (kept.actions s.kernel n).handler) ∧
      Installs lib kept n (peek s.mem act) s.kernel t.kernel := by
  obtain ⟨hrax, hmem, htakes, hothers, hblocked⟩ := hsys.installs
    ⟨13, signo, act, oact, 8, s.regs .r8, s.regs .r9⟩ (givenMem lib act s.mem) s.kernel n rfl rfl hn
    hact hoact
  generalize hreply : sys ⟨13, signo, act, oact, 8, s.regs .r8, s.regs .r9⟩ (givenMem lib act s.mem)
    s.kernel = reply at hrax hmem htakes hothers hblocked
  have hcall : (sigaction lib sys signo act oact).call s =
      (reply.rax, { s with mem := reply.mem, kernel := reply.kernel }) := by
    rw [← hreply]
    rfl
  rw [actionAt_givenMem] at htakes
  refine ⟨setErrno lib 0 { s with mem := reply.mem, kernel := reply.kernel }, ?_,
    errnoOf_setErrno lib 0 _, fun h0 hapart => ?_, htakes.handler, htakes.restorer, ?_, hothers, hblocked⟩
  · show some (wrapperRetVal lib .long .int ((sigaction lib sys signo act oact).call s).1
      ((sigaction lib sys signo act oact).call s).2) = _
    rw [hcall, hrax, wrapperRetVal_zero lib (by decide)]
  · show peek (poke reply.mem lib.errno 0) oact = _
    rw [peek_poke_apart _ _ hapart, hmem, if_neg h0, peek_putAction]
  · refine htakes.flag.trans ?_
    show (peek s.mem (act + 8) ||| saRestorer) &&& saRestorer = saRestorer
    ext i hi
    simp only [BitVec.getElem_and, BitVec.getElem_or]
    cases saRestorer[i] <;> simp

theorem sigaction_refuses (lib : Library) {signo act oact : Word} (hn : catchable signo = none)
    (hact : user act) (hoact : oact = 0 ∨ user oact) (s : State κ) :
    ∃ t, (sigaction lib sys signo act oact).perform s = some (-1, t) ∧ errnoOf lib t = 22 ∧
      t.kernel = s.kernel := by
  obtain ⟨hrax, -, hkernel⟩ := hsys.refuses
    ⟨13, signo, act, oact, 8, s.regs .r8, s.regs .r9⟩ (givenMem lib act s.mem) s.kernel rfl rfl hn
    hact hoact
  refine ⟨setErrno lib 22 (setErrno lib 0 ((sigaction lib sys signo act oact).call s).2), ?_,
    errnoOf_setErrno lib 22 _, hkernel⟩
  show some (wrapperRetVal lib .long .int ((sigaction lib sys signo act oact).call s).1
    ((sigaction lib sys signo act oact).call s).2) = _
  rw [show ((sigaction lib sys signo act oact).call s).1 = -22 from hrax,
    wrapperRetVal_einval lib (by decide)]

theorem sigprocmask_masks (lib : Library) {how mask old : Word} {next : Set Signal}
    (hmask : mask = 0 ∨ user mask) (hold : old = 0 ∨ user old) (s : State κ)
    (hnext : (if mask = 0 then some (signals (kept.blocked s.kernel))
      else masked how (signals (kept.blocked s.kernel)) (signals (peek s.mem mask))) = some next) :
    ∃ t, (sigprocmask lib sys how mask old).perform s = some (0, t) ∧ errnoOf lib t = 0 ∧
      (old ≠ 0 → Apart old lib.errno → peek t.mem old = kept.blocked s.kernel) ∧
      signals (kept.blocked t.kernel) = next ∧ kept.actions t.kernel = kept.actions s.kernel := by
  obtain ⟨hrax, hmem, hblocked, hactions⟩ := hsys.masks
    ⟨14, how, mask, old, 8, s.regs .r8, s.regs .r9⟩ s.mem s.kernel next rfl rfl hmask hold hnext
  refine ⟨setErrno lib 0 ((sigprocmask lib sys how mask old).call s).2, ?_, errnoOf_setErrno lib 0 _,
    fun h0 hapart => ?_, hblocked, hactions⟩
  · show some (wrapperRetVal lib .int .int ((sigprocmask lib sys how mask old).call s).1
      ((sigprocmask lib sys how mask old).call s).2) = _
    rw [show ((sigprocmask lib sys how mask old).call s).1 = 0 from hrax,
      wrapperRetVal_zero lib (by decide)]
  · have hpoked : ((sigprocmask lib sys how mask old).call s).2.mem =
        poke s.mem old (kept.blocked s.kernel) := hmem.trans (if_neg h0)
    show peek (poke ((sigprocmask lib sys how mask old).call s).2.mem lib.errno 0) old = _
    rw [peek_poke_apart _ _ hapart, hpoked, peek_poke]

theorem sigprocmask_refuses (lib : Library) {how mask old : Word} (hmask : user mask)
    (hold : old = 0 ∨ user old) (s : State κ)
    (hnext : masked how (signals (kept.blocked s.kernel)) (signals (peek s.mem mask)) = none) :
    ∃ t, (sigprocmask lib sys how mask old).perform s = some (-1, t) ∧ errnoOf lib t = 22 ∧
      t.kernel = s.kernel := by
  obtain ⟨hrax, -, hkernel⟩ := hsys.refusesMask
    ⟨14, how, mask, old, 8, s.regs .r8, s.regs .r9⟩ s.mem s.kernel rfl rfl hmask hold hnext
  refine ⟨setErrno lib 22 (setErrno lib 0 ((sigprocmask lib sys how mask old).call s).2), ?_,
    errnoOf_setErrno lib 22 _, hkernel⟩
  show some (wrapperRetVal lib .int .int ((sigprocmask lib sys how mask old).call s).1
    ((sigprocmask lib sys how mask old).call s).2) = _
  rw [show ((sigprocmask lib sys how mask old).call s).1 = -22 from hrax,
    wrapperRetVal_einval lib (by decide)]

/-! ### Steps of a run -/

/-- What a move does is told and kept. -/
def Step (lib : Library) (kept : Signals κ) (st : Store) (s : State κ) (move : Move κ) (t : State κ) :
    Prop :=
  st.Answers lib s t move ∧ Stored lib kept (st.next s move) t

omit hsys in
theorem gives_set {v e : Word} (h : errnoOf lib t = e) : Gives lib (t.set .rax v) v e :=
  ⟨(t.set_regs .rax v .rax).trans (if_pos rfl), h⟩

theorem step_signal {act oact signo handler : Word} (h : Stored lib kept st s)
    (hallowed : (Move.signal act oact signo handler).Allowed lib kept user s)
    (hact : (Move.signal act oact signo handler).act lib sys s = .ok t) :
    Step lib kept st s (.signal act oact signo handler) t := by
  obtain ⟨huser, huser', hapart⟩ := hallowed
  cases hn : catchable signo with
  | some n =>
    obtain ⟨u, hperform, herrno, htold, hinstalls⟩ := sigaction_installs hsys lib hn huser
      (.inr huser') { s with mem := signalAct act signo handler s.mem }
    rw [peek_signalAct] at hinstalls
    have hold : peek u.mem oact = st.handler n :=
      (htold (hsys.ne_zero huser') hapart).trans (h.handler n)
    have ht : t = u.set .rax (st.handler n) := by
      rw [← hold]
      simp only [Move.act, signal, hperform] at hact
      exact (Except.ok.inj hact).symm
    subst ht
    refine ⟨?_, ?_⟩
    · simp only [Store.Answers, hn]
      exact gives_set herrno
    · simp only [Store.next, hn]
      exact h.install (t := u.set .rax (st.handler n)) hinstalls
  | none =>
    obtain ⟨u, hperform, herrno, hkernel⟩ := sigaction_refuses hsys lib hn huser
      (.inr huser') { s with mem := signalAct act signo handler s.mem }
    have ht : t = u.set .rax (-1) := by
      simp only [Move.act, signal, hperform] at hact
      exact (Except.ok.inj hact).symm
    subst ht
    refine ⟨?_, ?_⟩
    · simp only [Store.Answers, hn]
      exact gives_set herrno
    · simp only [Store.next, hn]
      exact h.congr (congrArg kept.actions hkernel) (congrArg kept.blocked hkernel)

theorem step_sigaction {signo act oact : Word} (h : Stored lib kept st s)
    (hallowed : (Move.sigaction signo act oact).Allowed lib kept user s)
    (hact : (Move.sigaction signo act oact).act lib sys s = .ok t) :
    Step lib kept st s (.sigaction signo act oact) t := by
  obtain ⟨huser, hoact⟩ := hallowed
  have huser' : oact = 0 ∨ user oact := hoact.imp_right And.left
  cases hn : catchable signo with
  | some n =>
    obtain ⟨u, hperform, herrno, htold, hinstalls⟩ := sigaction_installs hsys lib hn huser huser' s
    have ht : t = u.set .rax 0 := by
      simp only [Move.act, hperform] at hact
      exact (Except.ok.inj hact).symm
    subst ht
    refine ⟨?_, ?_⟩
    · simp only [Store.Answers, hn]
      refine ⟨gives_set herrno, fun h0 => ?_⟩
      exact (htold h0 (hoact.resolve_left h0).2).trans (h.handler n)
    · simp only [Store.next, hn]
      exact h.install (t := u.set .rax 0) hinstalls
  | none =>
    obtain ⟨u, hperform, herrno, hkernel⟩ := sigaction_refuses hsys lib hn huser huser' s
    have ht : t = u.set .rax (-1) := by
      simp only [Move.act, hperform] at hact
      exact (Except.ok.inj hact).symm
    subst ht
    refine ⟨?_, ?_⟩
    · simp only [Store.Answers, hn]
      exact gives_set herrno
    · simp only [Store.next, hn]
      exact h.congr (congrArg kept.actions hkernel) (congrArg kept.blocked hkernel)

theorem step_sigprocmask {how mask old : Word} (h : Stored lib kept st s)
    (hallowed : (Move.sigprocmask how mask old).Allowed lib kept user s)
    (hact : (Move.sigprocmask how mask old).act lib sys s = .ok t) :
    Step lib kept st s (.sigprocmask how mask old) t := by
  obtain ⟨hmask, hold⟩ := hallowed
  have huser : old = 0 ∨ user old := hold.imp_right And.left
  cases hnext : (if mask = 0 then some st.blocked
    else masked how st.blocked (signals (peek s.mem mask))) with
  | some next =>
    obtain ⟨u, hperform, herrno, htold, hblocked, hactions⟩ := sigprocmask_masks hsys lib hmask huser s
      (h.blocked ▸ hnext)
    have ht : t = u.set .rax 0 := by
      simp only [Move.act, hperform] at hact
      exact (Except.ok.inj hact).symm
    have htold' : old ≠ 0 → signals (peek (u.set .rax 0).mem old) = st.blocked := fun h0 => by
      rw [State.set_mem, htold h0 (hold.resolve_left h0).2]
      exact h.blocked
    subst ht
    by_cases h0 : mask = 0
    · rw [if_pos h0] at hnext
      refine ⟨?_, ?_⟩
      · rw [Store.Answers, if_pos (.inl h0)]
        exact ⟨gives_set herrno, htold'⟩
      · rw [Store.next, if_pos h0]
        exact ⟨hactions ▸ h.handler, hblocked.trans (Option.some.inj hnext).symm, hactions ▸ h.restorer⟩
    · rw [if_neg h0] at hnext
      refine ⟨?_, ?_⟩
      · rw [Store.Answers, if_pos (.inr (hnext ▸ Option.some_ne_none next))]
        exact ⟨gives_set herrno, htold'⟩
      · rw [Store.next, if_neg h0, hnext]
        exact ⟨hactions ▸ h.handler, hblocked, hactions ▸ h.restorer⟩
  | none =>
    have h0 : mask ≠ 0 := by
      intro h0
      rw [if_pos h0] at hnext
      cases hnext
    rw [if_neg h0] at hnext
    obtain ⟨u, hperform, herrno, hkernel⟩ := sigprocmask_refuses hsys lib
      (hmask.resolve_left h0) huser s (h.blocked ▸ hnext)
    have ht : t = u.set .rax (-1) := by
      simp only [Move.act, hperform] at hact
      exact (Except.ok.inj hact).symm
    subst ht
    refine ⟨?_, ?_⟩
    · rw [Store.Answers, if_neg (not_or.mpr ⟨h0, not_not.mpr hnext⟩)]
      exact gives_set herrno
    · rw [Store.next, if_neg h0, hnext]
      exact h.congr (congrArg kept.actions hkernel) (congrArg kept.blocked hkernel)

/-- **A step** tells what is in the store, and the kernel keeps what the step leaves there. -/
theorem step_store {move : Move κ} (h : Stored lib kept st s) (hallowed : move.Allowed lib kept user s)
    (hact : move.act lib sys s = .ok t) : Step lib kept st s move t := by
  cases move with
  | signal act oact signo handler => exact step_signal hsys h hallowed hact
  | sigaction signo act oact => exact step_sigaction hsys h hallowed hact
  | sigprocmask how mask old => exact step_sigprocmask hsys h hallowed hact
  | other u =>
    cases hact
    exact ⟨trivial, h.congr hallowed.1 hallowed.2⟩

end Kernel

/-! ### Runs of a program -/

theorem sigreturns_myrt (hmyrt : Placed lib.code lib.myrt myrt) (sys : Kernel κ) {u : State κ}
    (hu : u.rip = lib.myrt) : Sigreturns lib sys u := by
  obtain ⟨next, hnext, after, hafter, -⟩ := hmyrt
  refine ⟨{ u.set .rax 15 with rip := next }, after, ?_, hafter,
    (u.set_regs .rax 15 .rax).trans (if_pos rfl), fun r hr => (u.set_regs .rax 15 r).trans (if_neg hr),
    rfl, rfl⟩
  simp only [run, hu, hnext]
  rfl

theorem act_ok (lib : Library) (sys : Kernel κ) (move : Move κ) (s : State κ) :
    ∃ t, move.act lib sys s = .ok t := by
  cases move with
  | signal act oact signo handler =>
    simp only [Move.act, signal, sigaction, cWrapper, Option.bind_eq_bind, Option.bind_some]
    split_ifs <;> exact ⟨_, rfl⟩
  | _ => exact ⟨_, rfl⟩

/-- **The signal functions are a store of handlers and a set of blocked signals**: in every run, which
can always go on, each call tells what the calls before it left there, a call that the kernel refuses
leaves it alone, and whatever was installed comes back through `__myrt`. -/
theorem signals_kept (hsys : Documented sys kept user) (hmyrt : Placed lib.code lib.myrt myrt)
    (h0 : Stored lib kept st s) {l : List (Edge (State κ) (Move κ))}
    (hpath : Path (Move.act lib sys) s l t)
    (hallowed : ∀ x ∈ l, x.action.Allowed lib kept user x.before) :
    st.Told lib l ∧ Stored lib kept (st.after l) t ∧ (∀ move : Move κ, ∃ u, move.act lib sys t = .ok u) ∧
      ∀ n ∈ (st.after l).ours, ∀ u, u.rip = (kept.actions t.kernel n).restorer → Sigreturns lib sys u := by
  have hrun : st.Told lib l ∧ Stored lib kept (st.after l) t := by
    induction hpath generalizing st with
    | nil => exact ⟨trivial, h0⟩
    | @cons s t u a l hs _ ih =>
      obtain ⟨ha, hrest⟩ := List.forall_mem_cons.mp hallowed
      obtain ⟨htells, hstored⟩ := step_store hsys h0 ha hs
      obtain ⟨htold, hafter⟩ := ih hstored hrest
      exact ⟨⟨htells, htold⟩, hafter⟩
  refine ⟨hrun.1, hrun.2, fun move => act_ok lib sys move t, fun n hn u hu => ?_⟩
  exact sigreturns_myrt hmyrt sys (hu.trans (hrun.2.restorer n hn).1)

/-! ### A kernel -/

theorem signals_unblockable : signals unblockable = uncatchable := by
  have hbits : ∀ i : Fin 64, unblockable.getLsbD i = true ↔ (i : Nat) = 8 ∨ (i : Nat) = 18 := by decide
  ext n
  have hnumber := bitOf_signal n
  have hbit : (Signal.bit n : Nat) = bitOf n.number := rfl
  rw [mem_elements, hbits]
  show _ ↔ n.number = 9 ∨ n.number = 19
  omega

/-- What is blocked next. -/
def maskWord (how blocked set : Word) : Option Word :=
  if how.setWidth 32 = 0#32 then some (blocked ||| (set &&& ~~~unblockable))
  else if how.setWidth 32 = 1#32 then some (blocked &&& ~~~(set &&& ~~~unblockable))
  else if how.setWidth 32 = 2#32 then some (set &&& ~~~unblockable)
  else none

theorem masked_maskWord (how blocked set : Word) :
    masked how (signals blocked) (signals set) = (maskWord how blocked set).map signals := by
  rw [masked, maskWord]
  split_ifs <;> simp [signals, elements_or, elements_andNot, ← signals_unblockable]

/-- A kernel that keeps an action for each signal and the blocked ones. -/
def signalKernel : Kernel ((Signal → Action) × Word) := fun r m k =>
  if r.number = 13 then
    match catchable r.rdi with
    | some n => ⟨0, 0, 0, if r.rdx = 0 then m else putAction m r.rdx (k.1 n),
      (Function.update k.1 n (actionAt m r.rsi), k.2)⟩
    | none => ⟨-22, 0, 0, m, k⟩ -- EINVAL
  else if r.number = 14 then
    match if r.rsi = 0 then some k.2 else maskWord r.rdi k.2 (peek m r.rsi) with
    | some next => ⟨0, 0, 0, if r.rdx = 0 then m else poke m r.rdx k.2, (k.1, next)⟩
    | none => ⟨-22, 0, 0, m, k⟩ -- EINVAL
  else ⟨-38, 0, 0, m, k⟩ -- ENOSYS

theorem signalKernel_documented :
    Documented signalKernel ⟨fun k => k.1, fun k => k.2⟩ fun a => a ≠ 0 where
  null h := h rfl
  installs req m k n hnumber _ hn _ _ := by
    have hreply : signalKernel req m k = ⟨0, 0, 0, if req.rdx = 0 then m else putAction m req.rdx (k.1 n),
        (Function.update k.1 n (actionAt m req.rsi), k.2)⟩ := by
      simp only [signalKernel, hnumber, hn, if_true]
    rw [hreply]
    refine ⟨rfl, rfl, ?_, fun n' hn' => Function.update_of_ne hn' _ _, rfl⟩
    show Takes _ (Function.update k.1 n (actionAt m req.rsi) n)
    rw [Function.update_self]
    exact ⟨rfl, rfl, rfl⟩
  refuses req m k hnumber _ hn _ _ := by
    have hreply : signalKernel req m k = ⟨-22, 0, 0, m, k⟩ := by
      simp only [signalKernel, hnumber, hn, if_true]
    rw [hreply]
    exact ⟨rfl, rfl, rfl⟩
  masks req m k next hnumber _ _ _ hnext := by
    have hword : (if req.rsi = 0 then some k.2 else maskWord req.rdi k.2 (peek m req.rsi)).map signals =
        some next := by
      rw [← hnext, masked_maskWord]
      exact apply_ite (Option.map signals) _ _ _
    obtain ⟨word, hw, rfl⟩ := Option.map_eq_some_iff.mp hword
    have hreply : signalKernel req m k =
        ⟨0, 0, 0, if req.rdx = 0 then m else poke m req.rdx k.2, (k.1, word)⟩ := by
      simp only [signalKernel, hnumber, hw]
      rfl
    rw [hreply]
    exact ⟨rfl, rfl, rfl, rfl⟩
  refusesMask req m k hnumber _ hrsi _ hnext := by
    rw [masked_maskWord, Option.map_eq_none_iff] at hnext
    have hreply : signalKernel req m k = ⟨-22, 0, 0, m, k⟩ := by
      simp only [signalKernel, hnumber, if_neg hrsi, hnext]
      rfl
    rw [hreply]
    exact ⟨rfl, rfl, rfl⟩

def signalCode : Code := fun a => (openCode a).or (layout 0x3000 myrt a)

/-- `library`, with `__myrt`. -/
def signalLibrary : Library where
  code := signalCode
  errno := 0x4010
  got := 0x4000
  myrt := 0x3000
  openAt := 0x1000
  openCmp := 0x1001
  openSuccess := 0x1008
  openQuit := 0x100a
  sysOpen := 0x2000
  open_placed := placed_of_lookup (by decide +kernel)
  openCmp_at := by decide +kernel
  openSuccess_at := by decide +kernel
  openQuit_at := by decide +kernel
  sysOpen_placed := placed_of_lookup (by decide +kernel)

def undisposed : State ((Signal → Action) × Word) where
  regs r := if r = .rsp then 0x7000 else 0
  rip := 0x500
  mem _ := 0
  kernel := (fun _ => ⟨0, 0, 0, 0⟩, 0)

/-- A second handler for `SIGINT`: the first is told, the second kept, and it comes back. -/
theorem signals_kept_sigint : ∃ t u : State ((Signal → Action) × Word),
    Path (Move.act signalLibrary signalKernel) undisposed
      [⟨undisposed, .signal 0x6000 0x6040 2 0x600, t⟩, ⟨t, .signal 0x6000 0x6040 2 0x700, u⟩] u ∧
    u.regs .rax = 0x600 ∧ (u.kernel.1 sigint).handler = 0x700 ∧
    ∀ v : State ((Signal → Action) × Word), v.rip = (u.kernel.1 sigint).restorer →
      Sigreturns signalLibrary signalKernel v := by
  have hpath : Path (Move.act signalLibrary signalKernel) undisposed _ _ :=
    .cons (a := .signal 0x6000 0x6040 2 0x600) rfl (.cons (a := .signal 0x6000 0x6040 2 0x700) rfl .nil)
  have hmyrt : Placed signalLibrary.code signalLibrary.myrt myrt := placed_of_lookup (by decide +kernel)
  have hstored : Stored signalLibrary ⟨fun k => k.1, fun k => k.2⟩ ⟨fun _ => 0, ∅, ∅⟩ undisposed :=
    ⟨fun _ => rfl, elements_zero Signal.bit, fun _ hn => absurd hn (Set.notMem_empty _)⟩
  have hallowed : ∀ (s : State ((Signal → Action) × Word)) handler,
      (Move.signal 0x6000 0x6040 2 handler).Allowed signalLibrary ⟨fun k => k.1, fun k => k.2⟩
        (fun a => a ≠ 0) s := fun s handler =>
    ⟨by decide, by decide, apart_of_offset (by decide) (by decide)⟩
  obtain ⟨htold, hafter, -, hreturns⟩ := signals_kept signalKernel_documented hmyrt hstored hpath
    (List.forall_mem_cons.mpr ⟨hallowed _ _,
      List.forall_mem_cons.mpr ⟨hallowed _ _, List.forall_mem_nil _⟩⟩)
  have hcatchable : catchable 2 = some sigint := by decide
  simp only [Store.Told, Store.Answers, Store.next, hcatchable, Store.install,
    Function.update_self] at htold
  simp only [Store.after, List.foldl, Store.next, hcatchable, Store.install] at hafter hreturns
  have hhandler := hafter.handler sigint
  simp only [Function.update_self] at hhandler
  exact ⟨_, _, hpath, htold.2.1.1, hhandler, hreturns sigint (Set.mem_insert sigint _)⟩

end Apue.Libmini

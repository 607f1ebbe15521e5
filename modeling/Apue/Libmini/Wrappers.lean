import Apue.Libmini.Open

/-! The wrappers of the system calls.

A wrapper makes one system call and turns its result into a value and `errno`. Most do it
with one of two macros, `sigpending` does not do it at all, and `open` is in assembly. -/
namespace Apue.Libmini
open Memory X86

/-! ### Results -/

inductive CType where
  | int | unsignedInt | long | longLong | pointer
  deriving DecidableEq, Repr

def CType.width : CType → Nat
  | .int => 32
  | .unsignedInt => 32
  | _ => 64

def CType.signed : CType → Bool
  | .unsignedInt => false
  | .pointer => false
  | _ => true

/-- Conversion to the type. -/
def CType.convert (type : CType) (x : Int) : Int :=
  if type.signed then x.bmod (2 ^ type.width) else x % 2 ^ type.width

/-- `x` is a value of the type. -/
def CType.Fits (type : CType) (x : Int) : Prop :=
  if type.signed then -2 ^ (type.width - 1) ≤ x ∧ x < 2 ^ (type.width - 1)
  else 0 ≤ x ∧ x < 2 ^ type.width

/-- What a failed call returns. -/
def CType.failure : CType → Int
  | .pointer => 0 -- NULL
  | type => type.convert (-1)

abbrev ssizeT : CType := .longLong
abbrev pidT : CType := .int
abbrev uidT : CType := .int
abbrev gidT : CType := .int

theorem CType.convert_of_fits {type : CType} {x : Int} (h : type.Fits x) : type.convert x = x := by
  cases type <;> simp only [CType.Fits, CType.convert, CType.signed, CType.width] at h ⊢
  all_goals simp [Int.bmod_def] at h ⊢
  all_goals omega

theorem fits_int {x : Int} : CType.int.Fits x ↔ -2 ^ 31 ≤ x ∧ x < 2 ^ 31 := Iff.rfl

theorem fits_long {x : Int} : CType.long.Fits x ↔ -2 ^ 63 ≤ x ∧ x < 2 ^ 63 := Iff.rfl

/-! ### The wrappers -/

/-- A wrapper: `call` gives the result of its system call and the state after it, `perform` the
value and the state of the whole. -/
structure Wrapper (κ : Type) where
  result : CType
  call : State κ → Word × State κ
  perform : State κ → Option (Int × State κ)

variable {κ : Type} (lib : Library) (sys : Kernel κ)

/-- A call of a stub from C. The other registers hold what they happen to hold. -/
def sysCall (number : Word) (args : List Word) (s : State κ) : Word × State κ :=
  let reply := sys
    { number
      rdi := args.getD 0 (s.regs .rdi)
      rsi := args.getD 1 (s.regs .rsi)
      rdx := args.getD 2 (s.regs .rdx)
      r10 := args.getD 3 (s.regs .rcx)
      r8 := args.getD 4 (s.regs .r8)
      r9 := args.getD 5 (s.regs .r9) } s.mem s.kernel
  (reply.rax, { s with mem := reply.mem, kernel := reply.kernel })

def setErrno (v : Word) (s : State κ) : State κ := { s with mem := poke s.mem lib.errno v }

/-- `WRAPPER_RETval(type)` in a function that returns `result`. -/
def wrapperRetVal (result type : CType) (ret : Word) (s : State κ) : Int × State κ :=
  let s := setErrno lib 0 s
  if ret.toInt < 0 then (result.convert (-1), setErrno lib (-ret) s)
  else (result.convert (type.convert ret.toInt), s)

/-- `WRAPPER_RETptr(type)`, of a pointer type. -/
def wrapperRetPtr (ret : Word) (s : State κ) : Int × State κ :=
  let s := setErrno lib 0 s
  if ret.toInt < 0 then (0, setErrno lib (-ret) s)
  else (CType.pointer.convert ret.toInt, s)

/-- A wrapper in C: a system call, and what is done with its result. -/
def cWrapper (result : CType) (call : State κ → Word × State κ)
    (finish : Word → State κ → Int × State κ) : Wrapper κ where
  result
  call
  perform s := some (finish (call s).1 (call s).2)

def valWrapper (type : CType) (number : Word) (args : List Word) : Wrapper κ :=
  cWrapper type (sysCall sys number args) (wrapperRetVal lib type type)

def ptrWrapper (number : Word) (args : List Word) : Wrapper κ :=
  cWrapper .pointer (sysCall sys number args) (wrapperRetPtr lib)

def read (fd buf count : Word) : Wrapper κ := valWrapper lib sys ssizeT 0 [fd, buf, count]
def write (fd buf count : Word) : Wrapper κ := valWrapper lib sys ssizeT 1 [fd, buf, count]
def close (fd : Word) : Wrapper κ := valWrapper lib sys .int 3 [fd]

def mmap (addr len prot flags fd off : Word) : Wrapper κ :=
  ptrWrapper lib sys 9 [addr, len, prot, flags, fd, off]

def mprotect (addr len prot : Word) : Wrapper κ := valWrapper lib sys .int 10 [addr, len, prot]
def munmap (addr len : Word) : Wrapper κ := valWrapper lib sys .int 11 [addr, len]
def pipe (filedes : Word) : Wrapper κ := valWrapper lib sys .int 22 [filedes]
def dup (filedes : Word) : Wrapper κ := valWrapper lib sys .int 32 [filedes]
def dup2 (oldfd newfd : Word) : Wrapper κ := valWrapper lib sys .int 33 [oldfd, newfd]
def pause : Wrapper κ := valWrapper lib sys .int 34 []
def nanosleep (rqtp rmtp : Word) : Wrapper κ := valWrapper lib sys .int 35 [rqtp, rmtp]
def fork : Wrapper κ := valWrapper lib sys pidT 57 []
def getcwd (buf size : Word) : Wrapper κ := ptrWrapper lib sys 79 [buf, size]
def chdir (pathname : Word) : Wrapper κ := valWrapper lib sys .int 80 [pathname]
def rename (oldname newname : Word) : Wrapper κ := valWrapper lib sys .int 82 [oldname, newname]
def mkdir (pathname mode : Word) : Wrapper κ := valWrapper lib sys .int 83 [pathname, mode]
def rmdir (pathname : Word) : Wrapper κ := valWrapper lib sys .int 84 [pathname]
def creat (pathname mode : Word) : Wrapper κ := valWrapper lib sys .int 85 [pathname, mode]
def link (oldname newname : Word) : Wrapper κ := valWrapper lib sys .int 86 [oldname, newname]
def unlink (pathname : Word) : Wrapper κ := valWrapper lib sys .int 88 [pathname]
def readlink (path buf bufsz : Word) : Wrapper κ := valWrapper lib sys ssizeT 89 [path, buf, bufsz]
def chmod (filename mode : Word) : Wrapper κ := valWrapper lib sys .int 90 [filename, mode]
def chown (filename user group : Word) : Wrapper κ := valWrapper lib sys .int 92 [filename, user, group]
def umask (mask : Word) : Wrapper κ := valWrapper lib sys .int 95 [mask]
def gettimeofday (tv tz : Word) : Wrapper κ := valWrapper lib sys .int 96 [tv, tz]
def getuid : Wrapper κ := valWrapper lib sys uidT 102 []
def getgid : Wrapper κ := valWrapper lib sys gidT 104 []
def setuid (uid : Word) : Wrapper κ := valWrapper lib sys .int 105 [uid]
def setgid (gid : Word) : Wrapper κ := valWrapper lib sys .int 106 [gid]
def geteuid : Wrapper κ := valWrapper lib sys uidT 107 []

/-- It returns a `gid_t` and casts to `uid_t`. -/
def getegid : Wrapper κ := cWrapper gidT (sysCall sys 108 []) (wrapperRetVal lib gidT uidT)

def alarm (seconds : Word) : Wrapper κ := valWrapper lib sys .unsignedInt 37 [seconds]

/-- `sizeof(sigset_t)`, also `_NSIG / 8`. -/
def sigsetSize : Word := 8

def sigprocmask (how mask old : Word) : Wrapper κ :=
  valWrapper lib sys .int 14 [how, mask, old, sigsetSize]

/-- It returns the result as it is and leaves `errno` alone. -/
def sigpending (set : Word) : Wrapper κ :=
  cWrapper .int (sysCall sys 127 [set, sigsetSize]) fun ret s => (CType.int.convert ret.toInt, s)

/-- It returns a `long` and casts to `int`. `sa_flags` and `sa_restorer` are at 8 and 16. -/
def sigaction (signum act oact : Word) : Wrapper κ :=
  cWrapper .long
    (fun s =>
      let flags := peek s.mem (act + 8) ||| 0x04000000 -- SA_RESTORER
      let mem := poke (poke s.mem (act + 8) flags) (act + 16) lib.myrt
      sysCall sys 13 [signum, act, oact, sigsetSize] { s with mem })
    (wrapperRetVal lib .long .int)

/-- The machine where `open` has been called with three arguments. -/
def openEntry (filename flags mode : Word) (s : State κ) : State κ :=
  { (((s.set .rdi filename).set .rsi flags).set .rdx mode).push s.rip with rip := lib.openAt }

/-- `open`, in assembly: the machine runs until it is back in the caller. -/
def open_ (filename flags mode : Word) : Wrapper κ where
  result := .int
  call s :=
    let entry := openEntry lib filename flags mode s
    let reply := openReply lib sys entry
    (reply.rax, { entry with mem := reply.mem, kernel := reply.kernel })
  perform s := (halt lib.code sys 16 (openEntry lib filename flags mode s)).map fun t =>
    (CType.int.convert (t.regs .rax).toInt, t)

/-! ### The convention -/

/-- The wrappers and their arguments, which are the contents of registers. -/
inductive Call where
  | read (fd buf count : Word)
  | write (fd buf count : Word)
  | open_ (filename flags mode : Word)
  | close (fd : Word)
  | mmap (addr len prot flags fd off : Word)
  | mprotect (addr len prot : Word)
  | munmap (addr len : Word)
  | pipe (filedes : Word)
  | dup (filedes : Word)
  | dup2 (oldfd newfd : Word)
  | pause
  | nanosleep (rqtp rmtp : Word)
  | fork
  | getcwd (buf size : Word)
  | chdir (pathname : Word)
  | rename (oldname newname : Word)
  | mkdir (pathname mode : Word)
  | rmdir (pathname : Word)
  | creat (pathname mode : Word)
  | link (oldname newname : Word)
  | unlink (pathname : Word)
  | readlink (path buf bufsz : Word)
  | chmod (filename mode : Word)
  | chown (filename user group : Word)
  | umask (mask : Word)
  | gettimeofday (tv tz : Word)
  | getuid
  | getgid
  | setuid (uid : Word)
  | setgid (gid : Word)
  | geteuid
  | getegid
  | alarm (seconds : Word)
  | sigprocmask (how mask old : Word)
  | sigpending (set : Word)
  | sigaction (signum act oact : Word)

def Call.wrapper : Call → Wrapper κ
  | .read fd buf count => Libmini.read lib sys fd buf count
  | .write fd buf count => Libmini.write lib sys fd buf count
  | .open_ filename flags mode => Libmini.open_ lib sys filename flags mode
  | .close fd => Libmini.close lib sys fd
  | .mmap addr len prot flags fd off => Libmini.mmap lib sys addr len prot flags fd off
  | .mprotect addr len prot => Libmini.mprotect lib sys addr len prot
  | .munmap addr len => Libmini.munmap lib sys addr len
  | .pipe filedes => Libmini.pipe lib sys filedes
  | .dup filedes => Libmini.dup lib sys filedes
  | .dup2 oldfd newfd => Libmini.dup2 lib sys oldfd newfd
  | .pause => Libmini.pause lib sys
  | .nanosleep rqtp rmtp => Libmini.nanosleep lib sys rqtp rmtp
  | .fork => Libmini.fork lib sys
  | .getcwd buf size => Libmini.getcwd lib sys buf size
  | .chdir pathname => Libmini.chdir lib sys pathname
  | .rename oldname newname => Libmini.rename lib sys oldname newname
  | .mkdir pathname mode => Libmini.mkdir lib sys pathname mode
  | .rmdir pathname => Libmini.rmdir lib sys pathname
  | .creat pathname mode => Libmini.creat lib sys pathname mode
  | .link oldname newname => Libmini.link lib sys oldname newname
  | .unlink pathname => Libmini.unlink lib sys pathname
  | .readlink path buf bufsz => Libmini.readlink lib sys path buf bufsz
  | .chmod filename mode => Libmini.chmod lib sys filename mode
  | .chown filename user group => Libmini.chown lib sys filename user group
  | .umask mask => Libmini.umask lib sys mask
  | .gettimeofday tv tz => Libmini.gettimeofday lib sys tv tz
  | .getuid => Libmini.getuid lib sys
  | .getgid => Libmini.getgid lib sys
  | .setuid uid => Libmini.setuid lib sys uid
  | .setgid gid => Libmini.setgid lib sys gid
  | .geteuid => Libmini.geteuid lib sys
  | .getegid => Libmini.getegid lib sys
  | .alarm seconds => Libmini.alarm lib sys seconds
  | .sigprocmask how mask old => Libmini.sigprocmask lib sys how mask old
  | .sigpending set => Libmini.sigpending sys set
  | .sigaction signum act oact => Libmini.sigaction lib sys signum act oact

/-- A call to `open` is from outside the library and linked; the other wrappers need nothing. -/
def Call.Linked (s : State κ) : Call → Prop
  | .open_ filename flags mode =>
    lib.code s.rip = none ∧ OpenLinked lib sys (openEntry lib filename flags mode s)
  | _ => True

/-- A value `v` of type `type` and an `errno` of `e` report the result `r` of a system call. -/
structure Reports (type : CType) (r : Word) (v : Int) (e : Word) : Prop where
  error : -4095 ≤ r.toInt → r.toInt < 0 → v = type.failure ∧ e = -r
  success : 0 ≤ r.toInt → type.Fits r.toInt → v = r.toInt ∧ e = 0

/-- When a call reports its result `r`, where the kernel leaves `e` in `errno`. -/
def Call.Reporting : Call → Word → Word → Prop
  | .sigpending _, r, e =>
    (-4095 ≤ r.toInt → r.toInt < 0 → r = -1 ∧ e = 1) ∧ (0 ≤ r.toInt → r.toInt < 2 ^ 31 → e = 0)
  | .sigaction _ _ _, r, _ => r.toInt < 2 ^ 31
  | _, _, _ => True

variable {lib sys} {s : State κ} {e : Word}

@[simp] theorem errnoOf_setErrno (lib : Library) (v : Word) (s : State κ) :
    errnoOf lib (setErrno lib v s) = v := peek_poke s.mem lib.errno v

/-- Both macros report, as long as the cast is to the type the function returns. -/
theorem reports_retVal (lib : Library) {type : CType} (htype : type ≠ .pointer) (ret : Word) (s : State κ) :
    Reports type ret (wrapperRetVal lib type type ret s).1
      (errnoOf lib (wrapperRetVal lib type type ret s).2) := by
  have hfailure : type.failure = type.convert (-1) := by
    cases type <;> first | rfl | exact absurd rfl htype
  constructor
  · intro _ hr
    simp [wrapperRetVal, hr, hfailure]
  · intro hr hfits
    have hneg : ¬ ret.toInt < 0 := Int.not_lt.mpr hr
    simp [wrapperRetVal, hneg, CType.convert_of_fits hfits]

theorem reports_retPtr (lib : Library) (ret : Word) (s : State κ) :
    Reports .pointer ret (wrapperRetPtr lib ret s).1 (errnoOf lib (wrapperRetPtr lib ret s).2) := by
  constructor
  · intro _ hr
    simp [wrapperRetPtr, hr, CType.failure]
  · intro hr hfits
    have hneg : ¬ ret.toInt < 0 := Int.not_lt.mpr hr
    simp [wrapperRetPtr, hneg, CType.convert_of_fits hfits]

/-- What a wrapper returns in `s` reports its result exactly when `P`. -/
def Wrapper.ReportsIff (w : Wrapper κ) (lib : Library) (s : State κ) (P : Prop) : Prop :=
  ∃ v t, w.perform s = some (v, t) ∧ (Reports w.result (w.call s).1 v (errnoOf lib t) ↔ P)

theorem reportsIff_val {type : CType} (htype : type ≠ .pointer) (number : Word) (args : List Word) :
    (valWrapper lib sys type number args).ReportsIff lib s True :=
  ⟨_, _, rfl, iff_true_intro (reports_retVal lib htype _ _)⟩

theorem reportsIff_ptr (number : Word) (args : List Word) :
    (ptrWrapper lib sys number args).ReportsIff lib s True :=
  ⟨_, _, rfl, iff_true_intro (reports_retPtr lib _ _)⟩

theorem toInt_neg_one {r : Word} : r.toInt = -1 ↔ r = -1 :=
  BitVec.toInt_inj (y := -1)

/-- A result that is passed on, with `errno` as it was. -/
theorem reports_int_iff (r e : Word) : Reports .int r (CType.int.convert r.toInt) e ↔
    (-4095 ≤ r.toInt → r.toInt < 0 → r = -1 ∧ e = 1) ∧ (0 ≤ r.toInt → r.toInt < 2 ^ 31 → e = 0) := by
  have hfits : ∀ x : Int, -2 ^ 31 ≤ x → x < 2 ^ 31 → CType.int.convert x = x := fun x hx hx' =>
    CType.convert_of_fits ⟨hx, hx'⟩
  constructor
  · intro ⟨herror, hsuccess⟩
    refine ⟨fun hr hr' => ?_, fun hr hr' => (hsuccess hr (fits_int.mpr ⟨by omega, hr'⟩)).2⟩
    obtain ⟨hv, he⟩ := herror hr hr'
    rw [hfits _ (by omega) (by omega)] at hv
    have hone : r = -1 := toInt_neg_one.mp hv
    exact ⟨hone, by rw [he, hone]; rfl⟩
  · intro ⟨herror, hsuccess⟩
    refine ⟨fun hr hr' => ?_, fun hr hr' => ⟨hfits _ (by omega) hr'.2, hsuccess hr hr'.2⟩⟩
    obtain ⟨hone, he⟩ := herror hr hr'
    rw [he, hone]
    exact ⟨rfl, rfl⟩

/-- A `long` that is cast to `int`. -/
theorem reports_long_iff (lib : Library) (r : Word) (s : State κ) :
    Reports .long r (wrapperRetVal lib .long .int r s).1
      (errnoOf lib (wrapperRetVal lib .long .int r s).2) ↔ r.toInt < 2 ^ 31 := by
  have hlt : r.toInt < 2 ^ 63 := BitVec.toInt_lt
  by_cases hr : r.toInt < 0
  case pos =>
    refine iff_of_true ⟨fun _ _ => ?_, fun hpos => absurd hr (by omega)⟩ (by omega)
    simp [wrapperRetVal, hr, CType.failure]
  case neg =>
    have hconvert : (wrapperRetVal lib .long .int r s).1 = CType.long.convert (CType.int.convert r.toInt) := by
      simp [wrapperRetVal, hr]
    have hlong : ∀ x : Int, -2 ^ 63 ≤ x → x < 2 ^ 63 → CType.long.convert x = x := fun x hx hx' =>
      CType.convert_of_fits ⟨hx, hx'⟩
    have hint : -2 ^ 31 ≤ CType.int.convert r.toInt ∧ CType.int.convert r.toInt < 2 ^ 31 :=
      ⟨Int.le_bmod (m := 2 ^ 32) (by decide), Int.bmod_lt (m := 2 ^ 32) (by decide)⟩
    constructor
    · intro ⟨_, hsuccess⟩
      obtain ⟨hv, -⟩ := hsuccess (by omega) (fits_long.mpr ⟨by omega, hlt⟩)
      rw [hconvert, hlong _ (by omega) (by omega)] at hv
      omega
    · intro hr'
      refine ⟨fun _ hneg => absurd hneg hr, fun _ _ => ⟨?_, by simp [wrapperRetVal, hr]⟩⟩
      rw [hconvert, CType.convert_of_fits (fits_int.mpr ⟨by omega, hr'⟩), hlong _ (by omega) hlt]

theorem reportsIff_open {filename flags mode : Word}
    (h : (Call.open_ filename flags mode).Linked lib sys s) :
    (open_ lib sys filename flags mode).ReportsIff lib s True := by
  obtain ⟨hout, hlinked⟩ := h
  obtain ⟨n, t, hn, hrun, ht⟩ := run_open rfl hlinked
  have hrip : t.rip = s.rip := ht.rip.trans (peek_poke _ _ _)
  have hhalt : halt lib.code sys 16 (openEntry lib filename flags mode s) = some t :=
    halt_of_run hrun (hrip ▸ hout) (by omega)
  refine ⟨CType.int.convert (t.regs .rax).toInt, t, ?_, iff_true_intro ⟨fun _ hr => ?_, fun hr hfits => ?_⟩⟩
  · show (halt lib.code sys 16 _).map _ = _
    rw [hhalt]
    rfl
  · obtain ⟨hrax, herrno⟩ := ht.error hr
    rw [hrax]
    exact ⟨rfl, herrno⟩
  · obtain ⟨hrax, herrno⟩ := ht.success hr
    rw [hrax]
    exact ⟨CType.convert_of_fits hfits, herrno⟩

/-- **A call reports the result of its system call** in its value and in `errno`, except that
`sigpending` never touches `errno` and `sigaction` cuts its result to an `int`. -/
theorem reports_iff (c : Call) (s : State κ) (h : c.Linked lib sys s) :
    (c.wrapper lib sys).ReportsIff lib s (c.Reporting ((c.wrapper lib sys).call s).1
      (errnoOf lib ((c.wrapper lib sys).call s).2)) := by
  have hint : CType.int ≠ .pointer := nofun
  have hlonglong : CType.longLong ≠ .pointer := nofun
  have hunsigned : CType.unsignedInt ≠ .pointer := nofun
  cases c with
  | open_ filename flags mode => exact reportsIff_open h
  | sigpending set => exact ⟨_, _, rfl, reports_int_iff _ _⟩
  | sigaction signum act oact => exact ⟨_, _, rfl, reports_long_iff lib _ _⟩
  | getegid => exact ⟨_, _, rfl, iff_true_intro (reports_retVal lib hint _ _)⟩
  | mmap => exact reportsIff_ptr _ _
  | getcwd => exact reportsIff_ptr _ _
  | read | write | readlink => exact reportsIff_val hlonglong _ _
  | alarm => exact reportsIff_val hunsigned _ _
  | _ => exact reportsIff_val hint _ _

/-! ### Two calls -/

def openCode : Code := fun a =>
  (layout 0x1000 (openText 0x2000 0x1008 0x100a 0x4000) a).or (layout 0x2000 (gensys 2) a)

def library : Library where
  code := openCode
  errno := 0x4010
  got := 0x4000
  myrt := 0x3000
  openAt := 0x1000
  openCmp := 0x1001
  openSuccess := 0x1008
  openQuit := 0x100a
  sysOpen := 0x2000
  open_placed := placed_of_lookup (by decide +kernel)
  openCmp_at := by decide +kernel
  openSuccess_at := by decide +kernel
  openQuit_at := by decide +kernel
  sysOpen_placed := placed_of_lookup (by decide +kernel)

def caller : State Unit where
  regs r := if r = .rsp then 0x7000 else 0
  rip := 0x500
  mem := poke (fun _ => 0) 0x4000 0x4010
  kernel := ()

/-- A kernel that fails with a given number. -/
def failing (number : Word) : Kernel Unit := fun _ m k => ⟨-number, 0, 0, m, k⟩

/-- A file that is not there. -/
theorem reports_enoent : ∃ t, (open_ library (failing 2) 0x5000 0 0).perform caller = some (-1, t) ∧
    errnoOf library t = 2 := by
  have hlinked : (Call.open_ 0x5000 0 0).Linked library (failing 2) caller := by
    refine ⟨by decide +kernel, fun _ _ _ _ => rfl, ?_, ⟨?_, ?_⟩, ?_⟩
    · decide +kernel
    · exact apart_of_offset (by decide) (by decide)
    · exact apart_of_offset (by decide) (by decide)
    · exact apart_of_offset (by decide) (by decide)
  obtain ⟨v, t, hperform, hreports⟩ := reports_iff (.open_ 0x5000 0 0) caller hlinked
  obtain ⟨hv, he⟩ := (hreports.mpr trivial).error (by decide) (by decide)
  refine ⟨t, ?_, he⟩
  rw [← show v = -1 from hv]
  exact hperform

/-- A bad pointer: `sigpending` returns the kernel's number and reports no error. -/
theorem reports_efault : ∃ t, (sigpending (failing 14) 1).perform caller = some (-14, t) ∧
    errnoOf library t = 0 ∧
    ¬ Reports .int ((sigpending (failing 14) 1).call caller).1 (-14) (errnoOf library t) := by
  refine ⟨caller, rfl, by decide +kernel, fun h => ?_⟩
  obtain ⟨hv, -⟩ := h.error (by decide) (by decide)
  exact absurd hv (by decide)

end Apue.Libmini

import Apue.CLib.Strto
import Apue.Sdb.Alternate
import Apue.Sdb.Child
import Mathlib.Data.List.Sort

/-! The commands that change the debugger's state.

Each handler gives its return code and the new state, or the reason why the
debugger does not come back to its prompt. The environment of one command is what
`fork` and `execvp` do (`Spawn`) and how the child behaves once resumed (`Resume`). -/
namespace Apue.Sdb
open Memory CLib

variable {ρ : Type}

/-- `0x` and the hexadecimal digits. -/
def hexify (x : Word) : String := "0x" ++ hexDigits x

inductive SpawnResult where
  /-- `fork` fails. -/
  | forkFailed
  /-- `execvp` fails in the child, which then calls `exit(-1)`. -/
  | execFailed
  /-- A signal kills the child before its first stop. -/
  | killed
  /-- The child stops in the new image. -/
  | execd
  deriving DecidableEq, Repr

structure Spawn where
  pid : Nat := 1
  result : SpawnResult := .execd
  deriving DecidableEq, Repr

structure Env where
  spawn : Spawn := {}
  resume : Resume := { steps := 0 }
  deriving DecidableEq, Repr

/-- What a handler returns. -/
abbrev Reply (ρ : Type) := Int × State ρ

/-- `checkstatus`: whether the state is the one the command asks for. -/
def checks (command : String) (s : State ρ) : Bool := statusMap.lookup command = some s.conf.status

/-- A handler behind `checkstatus`. -/
def checked (command : String) (s : State ρ) (k : Except Halt (Reply ρ)) : Except Halt (Reply ρ) :=
  if checks command s then k
  else
    let want := ((statusMap.lookup command).map statusStr).getD ""
    .ok (errWrongStatus,
      s.debug ("state must be " ++ want ++ ", current status: " ++ statusStr s.conf.status))

/-! ### `load` -/

/-- `n` little-endian bytes of a file. -/
def field (n : Nat) (bytes : List Byte) (off : Nat) : BitVec (8 * n) :=
  ofBytes n fun k => bytes.getD (off + k) 0

/-- The loop over the section headers: the first one at the entry point. -/
def findSection (entry : Word) : Nat → List Byte → Except Halt (Option (Word × Word))
  | 0, _ => .ok none
  | n + 1, bytes =>
    if bytes.length < 64 then .error (.errquit "fread")
    else if (field 8 bytes 16 : Word) = entry then
      .ok (some (field 8 bytes 16, field 8 bytes 32))
    else findSection entry n (bytes.drop 64)

/-- `fseek` refuses a negative offset and stays after the header. -/
def seek (bytes : List Byte) (off : Word) : List Byte :=
  if off.toNat < 2 ^ 63 then bytes.drop off.toNat else bytes.drop 64

def elfinfo (w : World ρ) (s : State ρ) : Except Halt (Reply ρ) :=
  match w.file s.conf.program with
  | none => .ok (errNoFile, s.debug (s.conf.program ++ ": No such file or directory."))
  | some bytes =>
    if bytes.length < 64 then .error (.errquit "fread")
    else do
      let found ← findSection (field 8 bytes 24) (field 2 bytes 60).toNat
        (seek bytes (field 8 bytes 40))
      match found with
      | none => .ok (0, s)
      | some (addr, size) =>
        .ok (0, { s with conf := { s.conf with entrypoint := addr, textsize := size } })

def load (w : World ρ) (program : String) (s : State ρ) : Except Halt (Reply ρ) :=
  checked "load" s do
    let (ret, s) ← elfinfo w { s with conf := { s.conf with program := program } }
    if ret = errNoFile then
      .ok (errNoFile, { s with conf := { s.conf with program := "" } })
    else
      let s := s.debug ("program '" ++ s.conf.program ++ "' loaded. entry point " ++
        hexify s.conf.entrypoint)
      .ok (0, { s with conf := { s.conf with status := .loaded } })

/-! ### Waiting -/

/-- The breakpoint waiting to be put back. -/
def State.pending (s : State ρ) : Option Breakpoint := s.conf.bps[s.conf.lid.toNat]?

def resetbreak (w : World ρ) (s : State ρ) : Except Halt (State ρ) :=
  if s.conf.lid < 0 then .ok s
  else
    match s.pending with
    | none => .error .undefined
    | some bp => do
      let s ← poketext w s bp.addr (alternate s.conf.bps bp.code bp.addr true true)
      .ok { s with conf := { s.conf with lid := -1 }, taken := none }

/-- The breakpoint a stop is at: the one at the program counter, or one below it
after `cont`. -/
def hitIndex (bps : List Breakpoint) (cont : Bool) (rip : Addr) : Option Nat :=
  bps.findIdx? fun b => b.addr = rip - (if cont then 1 else 0)

def restoreifbreak (w : World ρ) (cont : Bool) (s : State ρ) : Except Halt (State ρ) :=
  let addr := peekuser s ripIndex
  match hitIndex s.conf.bps cont addr with
  | none => .ok s
  | some rid =>
    match s.conf.bps[rid]? with
    | none => .error .undefined
    | some bp => do
      let s ← pokeuser w s ripIndex bp.addr "ptrace poketext"
      let s := s.debug ("breakpoint @ " ++ padLeft ' ' 10 (hexDigits addr) ++ ": ...")
      let s ← poketext w s bp.addr (alternate s.conf.bps bp.code bp.addr false false)
      .ok { s with conf := { s.conf with lid := rid }, taken := some bp }

def sortedByAddr (bps : List Breakpoint) : List Breakpoint :=
  bps.insertionSort fun b c => b.addr ≤ c.addr

def setallbreak (w : World ρ) (s : State ρ) : Except Halt (State ρ) :=
  (sortedByAddr s.conf.bps).foldlM (fun s b => poketext w s b.addr (withLow b.code 0xcc)) s

def waitstatus (w : World ρ) (cont : Bool) (wt : Wait ρ) (s : State ρ) : Except Halt (Reply ρ) :=
  match wt with
  | .exited _ =>
    let s := (s.say "wait: exit").debug
      ("child process " ++ toString s.conf.child ++ " terminiated normally (code 0)")
    .ok (0, { s with conf := { s.conf with status := .loaded }, proc := .gone })
  | .stopped c => do
    let s ← resetbreak w ({ s with proc := .stopped c }.say "wait: stopped")
    let s ← restoreifbreak w cont s
    .ok (0, s)
  | .signaled => .ok (errBadWait, { s with proc := .gone }.say "wait: else")

/-! ### Breakpoints -/

/-- The scan for a breakpoint at the address reports every one it finds. -/
def reportExisting (a : Addr) (s : State ρ) : State ρ :=
  s.conf.bps.zipIdx.foldl (fun s e =>
    if e.1.addr = a then
      s.debug ("the breakpoint is already exists. (breakpoint " ++ toString e.2 ++ ")")
    else s) s

def setbreak (w : World ρ) (addr : String) (s : State ρ) : Except Halt (Reply ρ) :=
  checked "break" s <|
    let lladdr := strtoull addr
    if ¬ s.conf.InRange lladdr then
      .ok (errBadBreakpoint, s.debug "the address is out of the range of the text segment")
    else
      let code := peektext w s lladdr
      if s.conf.bps.any (fun b => b.addr = lladdr) then
        .ok (errBadBreakpoint, reportExisting lladdr s)
      else do
        let s ← poketext w s lladdr (withLow code 0xcc)
        let bp := { addr := lladdr, code := alternate s.conf.bps code lladdr false true }
        .ok (0, { s with conf := { s.conf with bps := s.conf.bps ++ [bp] } })

/-- `did > conf.bps.size()` compares as unsigned: a negative number is larger. -/
def tooLarge (did : Int) (n : Nat) : Prop := did < 0 ∨ n < did

instance (did : Int) (n : Nat) : Decidable (tooLarge did n) := inferInstanceAs (Decidable (_ ∨ _))

def deletebreak (w : World ρ) (breakpointId : String) (s : State ρ) : Except Halt (Reply ρ) :=
  checked "delete" s <|
    match stoi breakpointId with
    | .error _ => .error .abort
    | .ok did =>
      if tooLarge did s.conf.bps.length then
        .ok (errBadBreakpoint, s.debug ("breakpoint " ++ breakpointId ++ " does not exist"))
      else
        match s.conf.bps[did.toNat]? with
        | none => .error .undefined
        | some bp => do
          let s ← poketext w s bp.addr (alternate s.conf.bps bp.code bp.addr true false)
          let s := { s with conf := { s.conf with bps := s.conf.bps.eraseIdx did.toNat } }
          .ok (0, s.debug ("breakpoint " ++ breakpointId ++ " deleted"))

/-! ### Running -/

def cont (w : World ρ) (r : Resume) (s : State ρ) : Except Halt (Reply ρ) :=
  checked "cont" s do
    let wt ← resume w false r s
    waitstatus w true wt { s with conf := { s.conf with status := .running } }

def si (w : World ρ) (r : Resume) (s : State ρ) : Except Halt (Reply ρ) :=
  checked "si" s <|
    match s.proc with
    | .stopped _ => do
      let wt ← resume w true r s
      waitstatus w false wt s
    | _ => .error (.errquit "ptrace singlestep")

/-- What the first wait of a new child reports. -/
def firstWait (w : World ρ) (program : String) : SpawnResult → Wait ρ
  | .execd => .stopped (w.spawned program)
  | .execFailed => .exited 255
  | .killed | .forkFailed => .signaled

def start (w : World ρ) (e : Spawn) (s : State ρ) : Except Halt (Reply ρ) :=
  checked "start" s <|
    if e.result = .forkFailed then .error (.errquit "fork")
    else do
      let s := { s with conf := { s.conf with child := e.pid } }
      let (ret, s) ← waitstatus w false (firstWait w s.conf.program e.result) s
      let s ← setallbreak w (s.debug ("pid " ++ toString s.conf.child))
      .ok (ret, { s with conf := { s.conf with status := .running } })

def run (w : World ρ) (e : Env) (s : State ρ) : Except Halt (Reply ρ) :=
  match s.conf.status with
  | .notLoaded =>
    .ok (errWrongStatus, s.debug "state must be LOADED or RUNNING, current status: NOT LOADED")
  | .running => cont w e.resume (s.debug ("program " ++ s.conf.program ++ " is already running"))
  | .loaded => do
    let (ret, s) ← start w e.spawn s
    if ret < 0 then .ok (ret, s) else cont w e.resume s

/-! ### Registers -/

/-- `set` looks the name up with `operator[]`, which adds a missing one with value 0. -/
def setReg (w : World ρ) (reg val : String) (s : State ρ) : Except Halt (Reply ρ) :=
  checked "set" s <|
    let regval := strtoull val
    match s.regOffset.lookup reg with
    | some i => do
      let s ← pokeuser w s i regval "poketext"
      .ok (0, s)
    | none => do
      let s ← pokeuser w { s with regOffset := (reg, 0) :: s.regOffset } 0 regval "poketext"
      .ok (0, s)

def getReg (reg : String) (s : State ρ) : Except Halt (Reply ρ) :=
  checked "get" s <|
    match s.regOffset.lookup reg with
    | none => .ok (errBadReg, s)
    | some i =>
      let regval := peekuser s i
      .ok (0, s.say (reg ++ " = " ++ toString regval.toNat ++ " (" ++ hexify regval ++ ")"))

end Apue.Sdb

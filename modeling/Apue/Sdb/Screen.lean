import Apue.Sdb.Elf
import Apue.Sdb.Follow
import Apue.Sdb.Registers
import Apue.Sdb.Replay
import Apue.Sdb.Report
import Apue.Sdb.View

/-! What is on the screen.

The ideal debugger answers every command with lines of its own (`Ideal.answer`): `list` with
the words of the program, `dump` and `disasm` with its bytes and a trap at every address to
stop at. All that an orderly session prints is what the ideal debugger answers
(`session_screen`). -/
namespace Apue.Sdb
open Memory CLib Transition

variable {ρ : Type}

/-- The state a command asks for. -/
def Command.asks : Command → Option Status
  | .break_ _ | .cont | .delete _ | .disasm _ | .dump _ | .get _ | .getregs | .vmmap | .set _ _
  | .si => some .running
  | .load _ => some .notLoaded
  | .start => some .loaded
  | _ => none

/-! ### The ideal debugger's answers -/

def Ideal.status (d : Ideal ρ) : Status :=
  match d.child with
  | none => .loaded
  | some _ => .running

/-- The addresses to stop at, each with the word the program has there. -/
def Ideal.breakpoints (w : World ρ) (p : Target) (d : Ideal ρ) : List Breakpoint :=
  d.marks.map fun a => ⟨a, peek (p.image w) a⟩

/-- Byte `i` of what there is to show at `a`. -/
def Ideal.view (w : World ρ) (p : Target) (d : Ideal ρ) (c : Child ρ) (a : Addr) (i : Nat) : Byte :=
  trueByte (d.breakpoints w p) c.mem (a + BitVec.ofNat 64 i)

def regsText (regs : Regs) : String :=
  String.intercalate "\n"
    [regLine regs [("RAX", 10), ("RBX", 5), ("RCX", 11), ("RDX", 12)],
     regLine regs [("R8 ", 9), ("R9 ", 8), ("R10", 7), ("R11", 6)],
     regLine regs [("R12", 3), ("R13", 2), ("R14", 1), ("R15", 0)],
     regLine regs [("RDI", 14), ("RSI", 13), ("RBP", 4), ("RSP", 19)],
     regLine regs [("RIP", 16)] ++ "\tFLAGS " ++ padLeft '0' 16 (hexDigits (regs 18))]

/-- What `break` tells of a breakpoint it finds. -/
def existsText (id : Nat) : String :=
  "the breakpoint is already exists. (breakpoint " ++ toString id ++ ")"

/-- The lines for a new process. -/
def startText (pid : Nat) : List String := ["wait: stopped", "** " ++ ("pid " ++ toString pid)]

/-- The lines for where a wait leaves the program: the report has the address `past` bytes on. -/
def Ideal.lands (pid : Nat) (past : Addr) (d : Ideal ρ) : List String :=
  match d.child with
  | some c => "wait: stopped" :: if c.rip ∈ d.marks then [breakText (c.rip + past)] else []
  | none => ["wait: exit",
      "** " ++ ("child process " ++ toString pid ++ " terminiated normally (code 0)")]

/-- The lines for a command that is let through, on the way from `d` to `d'`. -/
def Ideal.tells (w : World ρ) (p : Target) (pid : Nat) (d d' : Ideal ρ) : Command → List String
  | .break_ addr =>
    if ¬ p.InRange (strtoull addr) then ["** " ++ rangeText]
    else if strtoull addr ∈ d.marks then
      ["** " ++ existsText (d.marks.idxOf (strtoull addr))]
    else []
  | .delete id =>
    match stoi id with
    | .error _ => []
    | .ok did =>
      if tooLarge did d.marks.length then ["** " ++ ("breakpoint " ++ id ++ " does not exist")]
      else ["** " ++ ("breakpoint " ++ id ++ " deleted")]
  | .start => startText pid
  | .si => d'.lands pid 0
  | .cont => d'.lands pid 1
  | .run =>
    match d.child with
    | none => startText pid ++ d'.lands pid 1
    | some _ => ("** " ++ ("program " ++ p.program ++ " is already running")) :: d'.lands pid 1
  | .dump addr => d.child.elim [] fun c => dumpText (strtoull addr) (d.view w p c (strtoull addr))
  | .disasm addr => d.child.elim [] fun c =>
    match w.csDisasm ((List.range 80).map (d.view w p c (strtoull addr))) (strtoull addr) with
    | [] => ["ERROR: Failed to disassemble given code!"]
    | insns => disasmLines w { entrypoint := p.entrypoint, textsize := p.textsize } 10 insns
  | .get reg => d.child.elim [] fun c =>
    ((regOffset.lookup reg).map fun i => regText reg (c.regs i)).toList
  | .getregs => d.child.elim [] fun c => [regsText c.regs]
  | .vmmap => d.child.elim [] fun c => ((w.maps c.rest).mapM vmmapLine).toOption.getD []
  | .list => listed (d.breakpoints w p)
  | .help => [helpMsg]
  | .notgiven arg => ["** " ++ ("no " ++ arg ++ " is given")]
  | .lackarg => ["** Not enough input arguments"]
  | .undefined c => ["** " ++ ("Undefined command: \"" ++ c ++ "\".  Try \"help\".")]
  | .empty | .exit | .load _ | .set _ _ => []

/-- All the lines for a command; `pid` is the process there is after it. -/
def Ideal.answer (w : World ρ) (p : Target) (pid : Nat) (d d' : Ideal ρ) (cmd : Command) :
    List String :=
  match cmd.asks.filter (· ≠ d.status) with
  | some want => [refusal want d.status]
  | none => d.tells w p pid d' cmd

/-- The ideal debugger with the number of its process and all its answers. -/
structure Screen (ρ : Type) where
  ideal : Ideal ρ := {}
  pid : Nat := 0
  lines : List String := []

/-- The process after a command: a new one if there was none. -/
def Ideal.process (d : Ideal ρ) (pid : Nat) (cmd : Command) (e : Env) : Nat :=
  if d.child.isNone ∧ (cmd = .start ∨ cmd = .run) then e.spawn.pid else pid

inductive Screen.Act (w : World ρ) (p : Target) : Screen ρ → Action → Screen ρ → Prop where
  | command {x : Screen ρ} {d' : Ideal ρ} {cmd : Command} {e : Env} :
      Ideal.Step w p x.ideal cmd d' →
      Act w p x (.command cmd e) ⟨d', x.ideal.process x.pid cmd e,
        x.lines ++ x.ideal.answer w p (x.ideal.process x.pid cmd e) d' cmd⟩

variable {w : World ρ} {p : Target} {starts A : Set Addr}
  {jumps : Child ρ → Addr → Prop} {s t u : State ρ} {e : Env}
  {d d' : Ideal ρ} {c c' : Child ρ} {cmd : Command} {want : Status} {r : Reply ρ} {pid : Nat}
  {lines : List String}

/-! ### Replies -/

/-- The screen has these lines more, the process is `pid`, and the register map is kept. -/
structure Replies (s t : State ρ) (pid : Nat) (lines : List String) : Prop where
  out : t.out = s.out ++ lines
  pid : t.conf.child = pid
  map : t.regOffset = s.regOffset

theorem Replies.silent (hout : t.out = s.out) (hchild : t.conf.child = s.conf.child)
    (hmap : t.regOffset = s.regOffset) : Replies s t s.conf.child [] :=
  ⟨by rw [hout, List.append_nil], hchild, hmap⟩

theorem Replies.trans {pid' : Nat} {more : List String} (h : Replies s t pid lines)
    (h' : Replies t u pid' more) : Replies s u pid' (lines ++ more) :=
  ⟨by rw [h'.out, h.out, List.append_assoc], h'.pid, h'.map.trans h.map⟩

theorem Mirrors.status (h : Mirrors w p starts jumps s d) : s.conf.status = d.status := by
  have hchild := h.child
  cases hd : d.child with
  | none =>
    rw [hd] at hchild
    rw [Ideal.status, hd]
    exact hchild.1
  | some c =>
    rw [hd] at hchild
    rw [Ideal.status, hd]
    exact hchild.1

theorem Mirrors.breakpoints (h : Mirrors w p starts jumps s d) : s.conf.bps = d.breakpoints w p := by
  rw [Ideal.breakpoints, ← h.marks, List.map_map]
  refine (List.map_id _).symm.trans (List.map_congr_left fun b hb => ?_)
  have hword : b.code = peek (p.image w) b.addr :=
    eq_of_byteOf fun k hk => by rw [h.walking.saved b hb k hk, byteOf_peek _ _ hk]
  exact congrArg (Breakpoint.mk b.addr) hword

end Apue.Sdb

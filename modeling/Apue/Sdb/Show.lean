import Apue.CLib.Words
import Apue.Sdb.Handler
import Apue.Transition.Run

/-! The commands that only show something.

All of them leave the configuration and the child alone (`Shows`), whatever they
print. -/
namespace Apue.Sdb
open Memory CLib Transition

variable {ρ : Type}

/-- `s` with more output. -/
def Shows (s s' : State ρ) : Prop := ∃ lines, s' = { s with out := s.out ++ lines }

theorem Shows.refl (s : State ρ) : Shows s s := ⟨[], by simp⟩

theorem Shows.say {s s' : State ρ} (h : Shows s s') (msg : String) : Shows s (s'.say msg) := by
  obtain ⟨lines, rfl⟩ := h
  exact ⟨lines ++ [msg], by simp [State.say]⟩

def listLine (id : Nat) (b : Breakpoint) : String :=
  padLeft ' ' 3 (toString id) ++ ": " ++ hexDigits b.addr ++ ", 0x" ++ padLeft '0' 16 (hexDigits b.code)

def list (s : State ρ) : Reply ρ :=
  (0, s.conf.bps.zipIdx.foldl (fun s e => s.say (listLine e.2 e.1)) s)

def helpMsg : String :=
  "- break {instruction-address}: add a break point\n" ++
  "- cont: continue execution\n" ++
  "- delete {break-point-id}: remove a break point\n" ++
  "- disasm addr: disassemble instructions in a file or a memory region\n" ++
  "- dump addr: dump memory content\n" ++
  "- exit: terminate the debugger\n" ++
  "- get reg: get a single value from a register\n" ++
  "- getregs: show registers\n" ++
  "- help: show this message\n" ++
  "- list: list break points\n" ++
  "- load {path/to/a/program}: load a program\n" ++
  "- run: run the program\n" ++
  "- vmmap: show memory layout\n" ++
  "- set reg val: get a single value to a register\n" ++
  "- si: step into instruction\n" ++
  "- start: start the program and stop at the first instruction"

def help (s : State ρ) : Reply ρ := (0, s.say helpMsg)

/-- The registers `getregs` prints, line by line, with the width of the last one. -/
def regLine (regs : Regs) (names : List (String × Nat)) : String :=
  String.intercalate "\t" (names.map fun e => e.1 ++ " " ++ hexDigits (regs e.2))

def getregs (s : State ρ) : Except Halt (Reply ρ) :=
  checked "getregs" s <|
    match s.proc with
    | .stopped c =>
      .ok (0, s.say (String.intercalate "\n"
        [regLine c.regs [("RAX", 10), ("RBX", 5), ("RCX", 11), ("RDX", 12)],
         regLine c.regs [("R8 ", 9), ("R9 ", 8), ("R10", 7), ("R11", 6)],
         regLine c.regs [("R12", 3), ("R13", 2), ("R14", 1), ("R15", 0)],
         regLine c.regs [("RDI", 14), ("RSI", 13), ("RBP", 4), ("RSP", 19)],
         regLine c.regs [("RIP", 16)] ++ "\tFLAGS " ++ padLeft '0' 16 (hexDigits (c.regs 18))]))
    | _ => .ok (errNull, s)

/-! ### `dump` -/

/-- The word `dump` and `disasm` show at an address: what is in memory there, with a
trap for every breakpoint. -/
def viewWord (w : World ρ) (s : State ρ) (a : Addr) : Word :=
  alternate s.conf.bps (peektext w s a) a true true

def hexByte (b : Byte) : String := padLeft '0' 2 (hexDigits (b.setWidth 64))

def wordBytes (v : Word) : List Byte := (List.range 8).map (byteOf v)

def dumpLayout (v : Word) : String := String.join ((wordBytes v).map fun b => " " ++ hexByte b)

def dumpAscii (v : Word) : String :=
  String.ofList ((wordBytes v).map fun b =>
    let c := Char.ofNat b.toNat
    if isprint c then c else '.')

/-- Two words a line, `n` lines. -/
def dumpLines (w : World ρ) (s : State ρ) : Nat → Addr → List String
  | 0, _ => []
  | n + 1, a =>
    let v := viewWord w s a
    let v' := viewWord w s (a + 8)
    ("\t" ++ hexify a ++ ":" ++ dumpLayout v ++ dumpLayout v' ++ " |" ++ dumpAscii v ++
      dumpAscii v' ++ "|") :: dumpLines w s n (a + 16)

def dump (w : World ρ) (addr : String) (s : State ρ) : Except Halt (Reply ρ) :=
  checked "dump" s
    (.ok (0, { s with out := s.out ++ dumpLines w s 5 (strtoull addr) }))

/-! ### `disasm` -/

/-- The eighty bytes handed to the disassembler. -/
def disasmCode (w : World ρ) (s : State ρ) (a : Addr) : List Byte :=
  (List.range 10).flatMap fun i => wordBytes (viewWord w s (a + BitVec.ofNat 64 (8 * i)))

/-- How many bytes a line shows: up to the next instruction, or the size of the
library's byte field for the last one. -/
def insnBytes (w : World ρ) (insn : Insn) : List Insn → Nat
  | next :: _ => ((next.address - insn.address).setWidth 32).toInt.toNat
  | [] => w.csBytesSize

def insnLine (w : World ρ) (insn : Insn) (rest : List Insn) : String :=
  let n := insnBytes w insn rest
  "0x" ++ hexDigits insn.address ++ ": " ++
    String.join ((List.range n).map fun i => hexByte (insn.bytes.getD i 0) ++ " ") ++
    String.join (List.replicate (10 - n) "   ") ++ insn.mnemonic ++ "\t" ++ insn.opStr

/-- At most `n` lines, cut at the first instruction outside the text range. -/
def disasmLines (w : World ρ) (conf : Config) : Nat → List Insn → List String
  | 0, _ => []
  | _, [] => []
  | n + 1, insn :: rest =>
    if conf.InRange insn.address then insnLine w insn rest :: disasmLines w conf n rest
    else ["** the address is out of the range of the text segment"]

def disasm (w : World ρ) (addr : String) (s : State ρ) : Except Halt (Reply ρ) :=
  checked "disasm" s <|
    let lladdr := strtoull addr
    match w.csDisasm (disasmCode w s lladdr) lladdr with
    | [] => .ok (0, s.say "ERROR: Failed to disassemble given code!")
    | insns => .ok (0, { s with out := s.out ++ disasmLines w s.conf 10 insns })

/-! ### `vmmap` -/

def tokens (s : String) : List String := (tokensAux s.toList []).map String.ofList

/-- `padzero`: the fill length is unsigned, so a longer string throws. -/
def padzero (s : List Char) : Except Halt (List Char) :=
  if 16 < s.length then .error .abort else .ok (List.replicate (16 - s.length) '0' ++ s)

/-- The two halves of `begin-end`; without a `-` both are the whole text. -/
def splitDash (s : List Char) : List Char × List Char :=
  match s.idxOf? '-' with
  | some i => (s.take i, s.drop (i + 1))
  | none => (s, s)

def vmmapLine (line : String) : Except Halt String := do
  let words := tokens line
  let (fst, snd) := splitDash (words.getD 0 "").toList
  let fst ← padzero fst
  let snd ← padzero snd
  let perms := (words.getD 1 "").toList.dropLast
  let off := strtoull (words.getD 2 "")
  let text := String.ofList fst ++ "-" ++ String.ofList snd ++ " " ++ String.ofList perms ++ " " ++
    padRight 8 (hexDigits off) ++ "\t" ++ words.getD 5 ""
  if 1024 ≤ text.length then .error .undefined else .ok text

def vmmap (w : World ρ) (s : State ρ) : Except Halt (Reply ρ) :=
  checked "vmmap" s do
    let maps := match s.proc with
      | .stopped c => w.maps c.rest
      | _ => []
    let lines ← maps.mapM vmmapLine
    .ok (0, { s with out := s.out ++ lines })

/-! ### Nothing but output -/

theorem Shows.foldl {α : Type} (f : State ρ → α → State ρ) (hf : ∀ s e, Shows s (f s e))
    (l : List α) (s : State ρ) : Shows s (l.foldl f s) := by
  induction l generalizing s with
  | nil => exact Shows.refl s
  | cons e rest ih =>
    obtain ⟨lines, hlines⟩ := hf s e
    obtain ⟨more, hmore⟩ := ih (f s e)
    refine ⟨lines ++ more, ?_⟩
    rw [List.foldl_cons, hmore, hlines, List.append_assoc]

theorem list_shows (s : State ρ) : Shows s (list s).2 :=
  Shows.foldl _ (fun s _ => (Shows.refl s).say _) _ s

theorem reportExisting_shows (a : Addr) (s : State ρ) : Shows s (reportExisting a s) := by
  apply Shows.foldl
  intro s e
  split
  · exact (Shows.refl s).say _
  · exact Shows.refl s

/-- A checked command that shows something when it is let through shows something. -/
theorem checked_shows {command : String} {s : State ρ} {k : Except Halt (Reply ρ)} {r : Reply ρ}
    (h : checked command s k = .ok r) (hk : k = .ok r → Shows s r.2) : Shows s r.2 := by
  unfold checked at h
  split at h
  case isTrue => exact hk h
  case isFalse =>
    rw [← Except.ok.inj h]
    exact (Shows.refl s).say _

theorem getregs_shows {s : State ρ} {r : Reply ρ} (h : getregs s = .ok r) : Shows s r.2 := by
  refine checked_shows h fun h => ?_
  split at h
  case h_1 =>
    rw [← Except.ok.inj h]
    exact (Shows.refl s).say _
  case h_2 =>
    rw [← Except.ok.inj h]
    exact Shows.refl s

theorem getReg_shows {reg : String} {s : State ρ} {r : Reply ρ} (h : getReg reg s = .ok r) :
    Shows s r.2 := by
  refine checked_shows h fun h => ?_
  split at h
  case h_1 =>
    rw [← Except.ok.inj h]
    exact Shows.refl s
  case h_2 =>
    rw [← Except.ok.inj h]
    exact (Shows.refl s).say _

theorem dump_shows {w : World ρ} {addr : String} {s : State ρ} {r : Reply ρ}
    (h : dump w addr s = .ok r) : Shows s r.2 := by
  refine checked_shows h fun h => ?_
  rw [← Except.ok.inj h]
  exact ⟨_, rfl⟩

theorem disasm_shows {w : World ρ} {addr : String} {s : State ρ} {r : Reply ρ}
    (h : disasm w addr s = .ok r) : Shows s r.2 := by
  refine checked_shows h fun h => ?_
  simp only at h
  split at h
  case h_1 =>
    rw [← Except.ok.inj h]
    exact (Shows.refl s).say _
  case h_2 =>
    rw [← Except.ok.inj h]
    exact ⟨_, rfl⟩

theorem vmmap_shows {w : World ρ} {s : State ρ} {r : Reply ρ} (h : vmmap w s = .ok r) :
    Shows s r.2 := by
  refine checked_shows h fun h => ?_
  obtain ⟨lines, -, h⟩ := bind_ok.mp h
  rw [← Except.ok.inj h]
  exact ⟨lines, rfl⟩

end Apue.Sdb

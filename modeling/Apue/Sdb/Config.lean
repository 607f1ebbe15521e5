import Apue.Memory.Bytes
import Mathlib.Data.List.Nodup
import Mathlib.Order.BooleanAlgebra.Set

/-! The debugger's configuration: one global record, as the source has it. -/
namespace Apue.Sdb
open Memory

/-- A breakpoint: its address and the eight bytes of text saved when it was set. -/
structure Breakpoint where
  addr : Addr
  code : Word
  deriving DecidableEq, Repr

inductive Status where
  | notLoaded
  | loaded
  | running
  deriving DecidableEq, Repr

structure Config where
  program : String := ""
  entrypoint : Word := 0
  textsize : Word := 0
  child : Nat := 0
  status : Status := .notLoaded
  /-- Last restored breakpoint, an index into `bps`, or -1. -/
  lid : Int := -1
  bps : List Breakpoint := []
  deriving DecidableEq, Repr

def statusStr : Status → String
  | .notLoaded => "NOT LOADED"
  | .loaded => "LOADED"
  | .running => "RUNNING"

/-- The state each checked command asks for. -/
def statusMap : List (String × Status) :=
  [("break", .running), ("cont", .running), ("delete", .running), ("disasm", .running),
   ("dump", .running), ("get", .running), ("getregs", .running), ("load", .notLoaded),
   ("vmmap", .running), ("set", .running), ("si", .running), ("start", .loaded)]

/-- The index of each register's word in the child's user area. -/
def regOffset : List (String × Nat) :=
  [("r15", 0), ("r14", 1), ("r13", 2), ("r12", 3), ("rbp", 4), ("rbx", 5), ("r11", 6), ("r10", 7),
   ("r9", 8), ("r8", 9), ("rax", 10), ("rcx", 11), ("rdx", 12), ("rsi", 13), ("rdi", 14),
   ("orig_rax", 15), ("rip", 16), ("cs", 17), ("eflags", 18), ("rsp", 19), ("ss", 20),
   ("fs_base", 21), ("gs_base", 22), ("ds", 23), ("es", 24), ("fs", 25), ("gs", 26)]

def errWrongStatus : Int := -1
def errLackArg : Int := -2
def errUndefined : Int := -3
def errBadWait : Int := -4
def errNull : Int := -5
def errBadReg : Int := -6
def errBadBreakpoint : Int := -7
def errNoFile : Int := -8

/-- An address the range check of `break` lets through. -/
def Config.InRange (conf : Config) (a : Addr) : Prop :=
  ¬ (a < conf.entrypoint ∨ conf.entrypoint + conf.textsize - 1 < a)

instance (conf : Config) (a : Addr) : Decidable (conf.InRange a) :=
  inferInstanceAs (Decidable (¬ _))

/-- The addresses of the breakpoints. -/
def addrs (bps : List Breakpoint) : Set Addr := {x | ∃ b ∈ bps, b.addr = x}

theorem mem_addrs {bps : List Breakpoint} {b : Breakpoint} (hb : b ∈ bps) : b.addr ∈ addrs bps :=
  ⟨b, hb, rfl⟩

theorem addrs_nil : addrs [] = ∅ := Set.eq_empty_iff_forall_notMem.mpr fun _ ⟨_, hb, _⟩ => nomatch hb

theorem addrs_cons (b : Breakpoint) (bps : List Breakpoint) :
    addrs (b :: bps) = insert b.addr (addrs bps) := by
  ext x
  simp [addrs, eq_comm]

theorem addrs_append (bps : List Breakpoint) (b : Breakpoint) :
    addrs (bps ++ [b]) = insert b.addr (addrs bps) := by
  induction bps with
  | nil => exact addrs_cons b []
  | cons c rest ih => rw [List.cons_append, addrs_cons, ih, addrs_cons, Set.insert_comm]

/-- Distinct addresses: a breakpoint is known by its address. -/
def Distinct (bps : List Breakpoint) : Prop := (bps.map Breakpoint.addr).Nodup

instance (bps : List Breakpoint) : Decidable (Distinct bps) := inferInstanceAs (Decidable (List.Nodup _))

theorem Distinct.eq {bps : List Breakpoint} (h : Distinct bps) {b c : Breakpoint} (hb : b ∈ bps)
    (hc : c ∈ bps) (he : b.addr = c.addr) : b = c :=
  List.inj_on_of_nodup_map h hb hc he

theorem Distinct.append {bps : List Breakpoint} (h : Distinct bps) {b : Breakpoint}
    (hnew : b.addr ∉ addrs bps) : Distinct (bps ++ [b]) := by
  show ((bps ++ [b]).map Breakpoint.addr).Nodup
  rw [List.map_append, List.map_cons, List.map_nil]
  refine List.nodup_append.mpr ⟨h, by simp, fun x hx y hy he => hnew ?_⟩
  obtain ⟨c, hc, rfl⟩ := List.mem_map.mp hx
  exact ⟨c, hc, he.trans (List.mem_singleton.mp hy)⟩

theorem Distinct.eraseIdx {bps : List Breakpoint} (h : Distinct bps) (did : Nat) :
    Distinct (bps.eraseIdx did) :=
  h.sublist ((List.eraseIdx_sublist bps did).map _)

/-- Erasing a breakpoint frees its address and no other. -/
theorem addrs_eraseIdx {bps : List Breakpoint} (h : Distinct bps) {did : Nat} {b : Breakpoint}
    (hb : bps[did]? = some b) : addrs (bps.eraseIdx did) = addrs bps \ {b.addr} := by
  induction bps generalizing did with
  | nil => cases hb
  | cons c rest ih =>
    obtain ⟨hnew, hrest⟩ := List.nodup_cons.mp h
    have hc : c.addr ∉ addrs rest := fun ⟨d, hd, hda⟩ => hnew (List.mem_map.mpr ⟨d, hd, hda⟩)
    cases did with
    | zero =>
      obtain rfl : c = b := Option.some.inj hb
      rw [List.eraseIdx_cons_zero, addrs_cons, Set.insert_sdiff_self_of_notMem hc]
    | succ did =>
      have hne : c.addr ∉ ({b.addr} : Set Addr) := by
        intro he
        exact hc ⟨b, List.mem_of_getElem? hb, he.symm⟩
      rw [List.eraseIdx_cons_succ, addrs_cons, addrs_cons, ih hrest hb,
        Set.insert_sdiff_of_notMem _ hne]

end Apue.Sdb

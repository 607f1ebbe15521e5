import Apue.Sdb.Intact
import Apue.Sdb.Native

/-! A processor fragment.

`nop`, the short jump, `mov [rdi], al` and `syscall` (taken as an exit), in their
x86-64 encodings, over any image. A store into a protected address faults, as it does
into pages mapped read-only. What the fragment does depends on memory through the
bytes of the instruction at the program counter only (`fragmentExec_local`), and it
never stores into a protected address (`fragmentExec_kept`). -/
namespace Apue.Sdb
open Memory Transition

/-- Where `rdi` and `rax` are in the user area. -/
def rdiIndex : Nat := 14
def raxIndex : Nat := 10

def fragmentExec (protect : Addr → Bool) (m : Mem) (r : Regs) (_ : Unit) : Event Unit :=
  if m r.rip = 0x90 then .next (r.set ripIndex (r.rip + 1)) (fun _ => none) ()
  else if m r.rip = 0xeb then
    .next (r.set ripIndex (r.rip + 2 + (m (r.rip + 1)).signExtend 64)) (fun _ => none) ()
  else if m r.rip = 0x88 ∧ m (r.rip + 1) = 0x07 ∧ protect (r rdiIndex) = false then
    .next (r.set ripIndex (r.rip + 2))
      (fun x => if x = r rdiIndex then some ((r raxIndex).setWidth 8) else none) ()
  else if m r.rip = 0x0f ∧ m (r.rip + 1) = 0x05 then .exit 0
  else .fault

/-- What the kernel lets into the user area: selectors of the user's privilege, null ones
but for `cs` and `ss`, and segment bases below the end of the user's addresses. -/
def userTakes (i : Nat) (v : Word) : Bool :=
  let selector := v.toNat % 2 ^ 16
  if i = 17 ∨ i = 20 then selector % 4 = 3
  else if 23 ≤ i ∧ i ≤ 26 then selector = 0 ∨ selector % 4 = 3
  else if i = 21 ∨ i = 22 then v.toNat < 2 ^ 47 - 2 ^ 12
  else true

/-- `code` at `base`, and zeros elsewhere. -/
def codeAt (base : Addr) (code : List Byte) : Mem := fun x => code.getD (x - base).toNat 0

/-- Registers at the first instruction: only the program counter and `rdi` matter. -/
def entryRegs (base rdi : Addr) : Regs :=
  fun i => if i = ripIndex then base else if i = rdiIndex then rdi else 0

/-- The world of one program, `code` at `base`. Any file name but the empty one opens and
has a header without sections. -/
def fragment (protect : Addr → Bool) (base : Addr) (code : List Byte) (rdi : Addr) :
    World Unit where
  exec := fragmentExec protect
  load := fun _ => ⟨entryRegs base rdi, codeAt base code, ()⟩
  file := fun name => if name = "" then none else some (List.replicate 64 0)
  file_empty := rfl
  mapped := fun a => a.toNat < 2 ^ 63
  mapped_user := fun _ h => of_decide_eq_true h
  takes := userTakes
  takes_rip := fun _ => rfl
  maps := fun _ => []
  csDisasm := fun _ _ => []
  csBytesSize := 16

/-- The text and the seven bytes after it are read-only. -/
def readOnly (base : Addr) (code : List Byte) : Addr → Bool :=
  fun x => (x - base).toNat < code.length + 7

/-- One instruction reads its own bytes only. -/
theorem fragmentExec_local (protect : Addr → Bool) {m m' : Mem} {r : Regs} (u : Unit)
    (h0 : m r.rip = m' r.rip) (h1 : m r.rip ≠ 0x90 → m (r.rip + 1) = m' (r.rip + 1)) :
    fragmentExec protect m r u = fragmentExec protect m' r u := by
  unfold fragmentExec
  rw [← h0]
  by_cases h90 : m r.rip = 0x90
  · rw [if_pos h90, if_pos h90]
  · rw [h1 h90]

/-- No store reaches a protected address. -/
theorem fragmentExec_kept {protect : Addr → Bool} {m : Mem} {r regs : Regs} {u rest : Unit}
    {st : Addr → Option Byte} (h : fragmentExec protect m r u = .next regs st rest) {x : Addr}
    (hx : protect x = true) : st x = none := by
  unfold fragmentExec at h
  split at h
  case isTrue => cases h; rfl
  case isFalse =>
    split at h
    case isTrue => cases h; rfl
    case isFalse =>
      split at h
      case isTrue hstore =>
        cases h
        apply if_neg
        rintro rfl
        rw [hx] at hstore
        simp at hstore
      case isFalse => split at h <;> cases h

/-- The program as a target. -/
def fragmentTarget (base : Addr) (code : List Byte) (hpos : 0 < code.length)
    (hfit : base.toNat + code.length + 7 ≤ 2 ^ 63) : Target where
  program := "a.out"
  entrypoint := base
  textsize := BitVec.ofNat 64 code.length
  text := {x | (x - base).toNat < code.length + 7}
  covers := by
    intro a (ha : ¬ (a < base ∨ base + BitVec.ofNat 64 code.length - 1 < a)) x
      (hx : (x - a).toNat < 8)
    show (x - base).toNat < code.length + 7
    bv_omega

theorem fragment_protects {base : Addr} {code : List Byte} {rdi : Addr} (hpos : 0 < code.length)
    (hfit : base.toNat + code.length + 7 ≤ 2 ^ 63) :
    (fragment (readOnly base code) base code rdi).Protects
      (fragmentTarget base code hpos hfit).text := by
  intro m r u regs st rest hexec x hx
  have hexec' : fragmentExec (readOnly base code) m r u = .next regs st rest := hexec
  have hx' : (x - base).toNat < code.length + 7 := hx
  exact fragmentExec_kept hexec' (decide_eq_true hx')

/-- A check of the stopped child. -/
def Proc.check {ρ : Type} (q : Child ρ → Bool) : Proc ρ → Bool
  | .stopped c => q c
  | _ => false

theorem Proc.stopped_of_check {ρ : Type} {q : Child ρ → Bool} {proc : Proc ρ}
    (h : proc.check q = true) : ∃ c, proc = .stopped c ∧ q c = true := by
  cases proc with
  | stopped c => exact ⟨c, rfl, h⟩
  | gone | zombie => cases h

theorem Proc.checked {ρ : Type} {q : Child ρ → Bool} {proc : Proc ρ} {c : Child ρ}
    (h : proc.check q = true) (hc : proc = .stopped c) : q c = true := by
  rw [hc] at h
  exact h

/-- A jump to the next instruction, fourteen `nop`s and an exit. -/
def walkCode : List Byte := [0xeb, 0x00] ++ List.replicate 14 0x90 ++ [0x0f, 0x05]

def walk : World Unit := fragment (readOnly 0x401000 walkCode) 0x401000 walkCode 0

def walkTarget : Target := fragmentTarget 0x401000 walkCode (by decide) (by decide)

theorem walk_protects : walk.Protects walkTarget.text := fragment_protects (by decide) (by decide)

/-- Its instructions begin everywhere but inside the jump and the exit. -/
def walkStarts : Set Addr := {x | (x - 0x401000).toNat ≤ 16 ∧ (x - 0x401000).toNat ≠ 1}

/-- What its states have in common. -/
structure Walks (c : Child Unit) : Prop where
  bare : c.mem = c.own
  text : ∀ x ∈ walkTarget.text, c.own x = walkTarget.image walk x
  rip : c.rip ∈ walkStarts

theorem walk_byte {c : Child Unit} (h : Walks c) {x : Addr} (hx : (x - 0x401000).toNat < 25) :
    c.mem x = walkCode.getD (x - 0x401000).toNat 0 := by
  rw [h.bare, h.text x hx]
  rfl

/-- At an instruction start there is the jump, a `nop` or the exit. -/
theorem walk_code {c : Child Unit} (h : Walks c) :
    (c.rip = 0x401000 ∧ c.mem c.rip = 0xeb ∧ c.mem (c.rip + 1) = 0) ∨
    (2 ≤ (c.rip - 0x401000).toNat ∧ (c.rip - 0x401000).toNat < 16 ∧ c.mem c.rip = 0x90) ∨
    (c.rip = 0x401010 ∧ c.mem c.rip = 0x0f ∧ c.mem (c.rip + 1) = 0x05) := by
  have hstart : c.rip = 0x401000 ∨
      (2 ≤ (c.rip - 0x401000).toNat ∧ (c.rip - 0x401000).toNat < 16) ∨ c.rip = 0x401010 := by
    have hrip : (c.rip - 0x401000).toNat ≤ 16 ∧ (c.rip - 0x401000).toNat ≠ 1 := h.rip
    bv_omega
  rcases hstart with hrip | ⟨hlow, hhigh⟩ | hrip
  · refine .inl ⟨hrip, ?_, ?_⟩
    all_goals
      rw [hrip, walk_byte h (by decide)]
      rfl
  · refine .inr (.inl ⟨hlow, hhigh, ?_⟩)
    have hnop : ∀ d : Fin 16, 2 ≤ d.val → walkCode.getD d.val 0 = 0x90 := by decide
    rw [walk_byte h (by omega)]
    exact hnop ⟨_, hhigh⟩ hlow
  · refine .inr (.inr ⟨hrip, ?_, ?_⟩)
    all_goals
      rw [hrip, walk_byte h (by decide)]
      rfl

/-- What its instructions do. -/
theorem walk_exec {c : Child Unit} (h : Walks c) :
    (c.rip = 0x401010 ∧ walk.exec c.mem c.regs c.rest = .exit 0) ∨
    ∃ rip ∈ walkStarts, walk.exec c.mem c.regs c.rest =
      .next (c.regs.set ripIndex rip) (fun _ => none) () := by
  have hexec : walk.exec c.mem c.regs c.rest =
      fragmentExec (readOnly 0x401000 walkCode) c.mem c.regs c.rest := rfl
  rw [hexec]
  unfold fragmentExec
  rcases walk_code h with ⟨hrip, h0, h1⟩ | ⟨hlow, hhigh, h0⟩ | ⟨hrip, h0, h1⟩
  · refine .inr ⟨c.rip + 2, by rw [hrip]; exact ⟨by decide, by decide⟩, ?_⟩
    have h0' : c.mem c.regs.rip = 0xeb := h0
    have h1' : c.mem (c.regs.rip + 1) = 0 := h1
    rw [h0', h1', if_neg (by decide), if_pos rfl]
    simp [Child.rip]
  · refine .inr ⟨c.rip + 1, ?_, if_pos h0⟩
    show (c.rip + 1 - 0x401000).toNat ≤ 16 ∧ (c.rip + 1 - 0x401000).toNat ≠ 1
    bv_omega
  · refine .inl ⟨hrip, ?_⟩
    have h0' : c.mem c.regs.rip = 0x0f := h0
    have h1' : c.mem (c.regs.rip + 1) = 0x05 := h1
    rw [h0', h1', if_neg (by decide), if_neg (by decide),
      if_neg (fun hstore => absurd hstore.1 (by decide)), if_pos (by decide)]

theorem walks_native {jumps : Child Unit → Addr → Prop}
    (hjumps : jumps ≤ fun _ a => a ∈ walkStarts) {c : Child Unit}
    (h : Native walk walkTarget.program jumps c) : Walks c := by
  induction h with
  | entry => exact ⟨rfl, fun _ _ => rfl, by decide, by decide⟩
  | @step c c' _ hs ih =>
    obtain ⟨-, regs, st, rest, hexec, rfl⟩ := stepChild_ran hs
    rcases walk_exec ih with ⟨-, hexit⟩ | ⟨rip, hrip, hnext⟩
    · rw [hexit] at hexec
      cases hexec
    · rw [hnext] at hexec
      cases hexec
      refine ⟨congrArg (store · fun _ => none) ih.bare, fun x hx => ?_, ?_⟩
      · exact ih.text x hx
      · show (c.regs.set ripIndex rip).rip ∈ walkStarts
        rw [Regs.rip_set]
        exact hrip
  | @jump c rip _ hrip ih =>
    refine ⟨ih.bare, ih.text, ?_⟩
    rw [Child.at_rip]
    exact hjumps c rip hrip

theorem walk_program {jumps : Child Unit → Addr → Prop} (hjumps : jumps ≤ fun _ a => a ∈ walkStarts) :
    Program walk walkTarget walkStarts jumps where
  trapfree := by
    intro c hn
    rcases walk_code (walks_native hjumps hn) with ⟨-, h0, -⟩ | ⟨-, -, h0⟩ | ⟨-, h0, -⟩
    all_goals
      rw [h0]
      decide
  keeps := fun c regs st rest _ hexec => walk_protects _ _ _ _ _ _ hexec
  reads := by
    intro c m hn hdiff
    have hw := walks_native hjumps hn
    have hsame : ∀ x, x ∉ walkStarts ∨ x = c.rip → m x = c.mem x := by
      intro x hx
      by_contra hne
      obtain ⟨hstart, hrip⟩ := hdiff x hne
      exact hx.elim (fun hout => hout hstart) hrip
    show fragmentExec (readOnly 0x401000 walkCode) m c.regs c.rest =
      fragmentExec (readOnly 0x401000 walkCode) c.mem c.regs c.rest
    refine fragmentExec_local _ _ (hsame c.rip (.inr rfl)) fun h90 => hsame (c.rip + 1) (.inl ?_)
    rw [show m c.regs.rip = c.mem c.rip from hsame c.rip (.inr rfl)] at h90
    rcases walk_code hw with ⟨hrip, -, -⟩ | ⟨-, -, h0⟩ | ⟨hrip, -, -⟩
    · rw [hrip]
      exact fun hx => hx.2 (by decide)
    · exact absurd h0 h90
    · rw [hrip]
      exact fun hx => absurd hx.1 (by decide)

end Apue.Sdb

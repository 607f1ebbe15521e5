import Apue.Sdb.Fragment
import Apue.Sdb.Status

/-! The range `break` accepts and the ELF file it comes from.

`load` looks for a section header with the entry point as its address and keeps the address
and the size of the first one; without one it keeps what was there before, which is zero.
`ranged_iff`: the range check follows the executable section the entry point is in exactly
when there is such a header and the first one ends where that section does. -/
namespace Apue.Sdb
open Memory CLib Transition

variable {ρ : Type}

/-! ### The file -/

/-- What the debugger and the range depend on in a section header. -/
structure Shdr where
  flags : Word
  addr : Word
  size : Word
  deriving DecidableEq

def shdrAt (bytes : List Byte) (off : Nat) : Shdr :=
  ⟨field 8 bytes (off + 8), field 8 bytes (off + 16), field 8 bytes (off + 32)⟩

def eEntry (bytes : List Byte) : Word := field 8 bytes 24
def eShoff (bytes : List Byte) : Nat := (field 8 bytes 40).toNat
def eShentsize (bytes : List Byte) : Nat := (field 2 bytes 58).toNat
def eShnum (bytes : List Byte) : Nat := (field 2 bytes 60).toNat

/-- How many section headers the file has: a number that does not fit the file header is in
the first one. -/
def shCount (bytes : List Byte) : Nat :=
  if eShoff bytes = 0 then 0
  else if eShnum bytes = 0 then (shdrAt bytes (eShoff bytes)).size.toNat
  else eShnum bytes

def sections (bytes : List Byte) : List Shdr :=
  (List.range (shCount bytes)).map fun i => shdrAt bytes (eShoff bytes + i * eShentsize bytes)

/-- The section header table is in the file. -/
structure Readable (bytes : List Byte) : Prop where
  header : 64 ≤ bytes.length
  length : bytes.length < 2 ^ 63
  entsize : 64 ≤ eShentsize bytes
  table : eShoff bytes + shCount bytes * eShentsize bytes ≤ bytes.length

/-- Its address range has the address. -/
def Shdr.Has (h : Shdr) (a : Addr) : Prop :=
  h.addr.toNat ≤ a.toNat ∧ a.toNat < h.addr.toNat + h.size.toNat

instance (h : Shdr) (a : Addr) : Decidable (h.Has a) := inferInstanceAs (Decidable (_ ∧ _))

/-- `SHF_EXECINSTR`. -/
def Shdr.executable (h : Shdr) : Bool := h.flags &&& 4 ≠ 0

/-- `S` is the one executable section that has the entry point. -/
def EntrySection (bytes : List Byte) (S : Shdr) : Prop :=
  ((sections bytes).filter fun h => h.executable && decide (h.Has (eEntry bytes))) = [S]

/-- The headers `elfinfo` looks at: as many as the file header says, one after the other. -/
def looked (bytes : List Byte) : List Shdr :=
  (List.range (eShnum bytes)).map fun i => shdrAt bytes (eShoff bytes + 64 * i)

/-- The first one at the entry point. -/
def firstAtEntry (bytes : List Byte) : Option Shdr :=
  (looked bytes).find? fun h => h.addr = eEntry bytes

/-! ### The range -/

/-- `break` refuses the address as out of range. -/
def Refuses (w : World ρ) (addr : String) (s : State ρ) : Prop :=
  setbreak w addr s =
    .ok (errBadBreakpoint, s.debug "the address is out of the range of the text segment")

/-- After the load at `t` the entry point is the file's, and later, at `s`, the range check
lets no address outside the section through, and every one from the entry point on. -/
structure Ranged (w : World ρ) (bytes : List Byte) (S : Shdr) (t s : State ρ) : Prop where
  entry : t.conf.entrypoint = eEntry bytes
  inside : ∀ addr, ¬ Refuses w addr s → S.Has (strtoull addr)
  accepted : ∀ addr, eEntry bytes ≤ strtoull addr → S.Has (strtoull addr) → ¬ Refuses w addr s

/-! ### Reading the headers -/

theorem field_drop (n off k : Nat) (bytes : List Byte) :
    field n (bytes.drop off) k = field n bytes (off + k) := by
  unfold field
  refine congrArg (ofBytes n) (funext fun i => ?_)
  simp only [List.getD_eq_getElem?_getD, List.getElem?_drop, Nat.add_assoc]

theorem shdrAt_drop (off k : Nat) (bytes : List Byte) :
    shdrAt (bytes.drop off) k = shdrAt bytes (off + k) := by
  simp only [shdrAt, field_drop, Nat.add_assoc]

/-- The loop finds the first header at the entry point. -/
theorem findSection_eq (entry : Word) {n : Nat} {bytes : List Byte} (h : 64 * n ≤ bytes.length) :
    findSection entry n bytes =
      .ok ((((List.range n).map fun i => shdrAt bytes (64 * i)).find? fun h => h.addr = entry).map
        fun h => (h.addr, h.size)) := by
  induction n generalizing bytes with
  | zero => rfl
  | succ n ih =>
    have hheaders : (List.range (n + 1)).map (fun i => shdrAt bytes (64 * i)) =
        shdrAt bytes 0 :: (List.range n).map fun i => shdrAt (bytes.drop 64) (64 * i) := by
      rw [List.range_succ_eq_map, List.map_cons, List.map_map]
      refine congrArg (_ :: ·) (List.map_congr_left fun i _ => ?_)
      rw [shdrAt_drop, Function.comp_apply, Nat.mul_succ, Nat.add_comm]
    have hlong : ¬ bytes.length < 64 := by omega
    rw [findSection, if_neg hlong, hheaders]
    by_cases hat : (field 8 bytes 16 : Word) = entry
    · rw [if_pos hat, List.find?_cons_of_pos]
      · rfl
      · exact decide_eq_true hat
    · rw [if_neg hat, List.find?_cons_of_neg, ih]
      · rw [List.length_drop]
        omega
      · exact fun hdec => hat (of_decide_eq_true hdec)

theorem looked_fit {bytes : List Byte} (h : Readable bytes) (hne : sections bytes ≠ []) :
    eShoff bytes + 64 * eShnum bytes ≤ bytes.length := by
  have hoff : eShoff bytes ≠ 0 := by
    intro hzero
    apply hne
    rw [sections, shCount, if_pos hzero]
    rfl
  by_cases hnum : eShnum bytes = 0
  · have := h.table
    rw [hnum]
    omega
  · have hcount : shCount bytes = eShnum bytes := by rw [shCount, if_neg hoff, if_neg hnum]
    have htable := h.table
    rw [hcount] at htable
    have hmul := Nat.mul_le_mul_left (eShnum bytes) h.entsize
    omega

/-- **What `load` keeps**: the first header at the entry point, or what was there. -/
theorem load_range {w : World ρ} {program : String} {s t : State ρ} {bytes : List Byte}
    (hfile : w.file program = some bytes) (htable : Readable bytes) (hne : sections bytes ≠ [])
    (h : load w program s = .ok (0, t)) : s.conf.status = .notLoaded ∧ t.conf.status = .loaded ∧
    (t.conf.entrypoint, t.conf.textsize) = ((firstAtEntry bytes).map fun h => (h.addr, h.size)).getD
      (s.conf.entrypoint, s.conf.textsize) := by
  have hfit := looked_fit htable hne
  have hseek : seek bytes (field 8 bytes 40) = bytes.drop (eShoff bytes) := by
    apply if_pos
    have := htable.table
    have := htable.length
    show eShoff bytes < 2 ^ 63
    omega
  have hrest : 64 * eShnum bytes ≤ (bytes.drop (eShoff bytes)).length := by
    rw [List.length_drop]
    omega
  have hfound := findSection_eq (eEntry bytes) hrest
  simp only [shdrAt_drop] at hfound
  have hlong : ¬ bytes.length < 64 := Nat.not_lt.mpr htable.header
  have hhead : findSection (field 8 bytes 24) (field 2 bytes 60).toNat (bytes.drop (eShoff bytes)) =
      .ok ((firstAtEntry bytes).map fun h => (h.addr, h.size)) := hfound
  unfold load checked at h
  split at h
  case isFalse =>
    have hret : errWrongStatus = 0 := congrArg Prod.fst (Except.ok.inj h)
    exact absurd hret (by decide)
  case isTrue hcheck =>
    have hstatus := (checks_iff notLoaded_load).mp hcheck
    simp only [elfinfo, hfile, if_neg hlong, hseek, hhead] at h
    cases hfirst : firstAtEntry bytes with
    | none =>
      simp only [hfirst] at h
      cases h
      exact ⟨hstatus, rfl, rfl⟩
    | some hd =>
      simp only [hfirst] at h
      cases h
      exact ⟨hstatus, rfl, rfl⟩

/-! ### The range of a session -/

/-- The same range, and no program unloaded. -/
structure SameRange (s t : State ρ) : Prop where
  entrypoint : t.conf.entrypoint = s.conf.entrypoint
  textsize : t.conf.textsize = s.conf.textsize
  loaded : s.conf.status ≠ .notLoaded → t.conf.status ≠ .notLoaded

section
variable {w : World ρ} {s t u : State ρ} {r : Reply ρ} {e : Env}

theorem SameRange.refl (s : State ρ) : SameRange s s := ⟨rfl, rfl, id⟩

theorem SameRange.trans (h : SameRange s t) (h' : SameRange t u) : SameRange s u :=
  ⟨h'.entrypoint.trans h.entrypoint, h'.textsize.trans h.textsize, fun hs => h'.loaded (h.loaded hs)⟩

theorem Keeps.sameRange (h : Keeps s t) : SameRange s t := ⟨h.entrypoint, h.textsize, h.loaded⟩

/-- **Only `load` changes the range, and only where nothing is loaded.** -/
theorem act_range {x : Action} (h : act w x s = .ok t) :
    SameRange s t ∨ s.conf.status = .notLoaded ∧ t.conf.status = .loaded := by
  cases act_moves h with
  | keeps hk => exact .inl hk.sameRange
  | loads hnot hloaded _ => exact .inr ⟨hnot, hloaded⟩
  | sets _ _ ht | erases _ _ ht => exact .inl ⟨by rw [ht], by rw [ht], by rw [ht]; exact id⟩

/-- Once a program is loaded the range stays as it is. -/
theorem path_range {l : List (Edge (State ρ) Action)} (h : Path (act w) s l t)
    (hs : s.conf.status ≠ .notLoaded) : SameRange s t := by
  induction h with
  | nil => exact .refl _
  | cons hstep _ ih =>
    rcases act_range hstep with hsame | ⟨hnot, -⟩
    · exact hsame.trans (ih (hsame.loaded hs))
    · exact absurd hnot hs

/-- And until then it is zero. -/
theorem path_unranged {l : List (Edge (State ρ) Action)} (h : Path (act w) s l t)
    (hs : s.conf.status = .notLoaded → s.conf.entrypoint = 0 ∧ s.conf.textsize = 0)
    (ht : t.conf.status = .notLoaded) : t.conf.entrypoint = 0 ∧ t.conf.textsize = 0 := by
  induction h with
  | nil => exact hs ht
  | cons hstep _ ih =>
    refine ih (fun hu => ?_) ht
    rcases act_range hstep with hsame | ⟨-, hloaded⟩
    · rw [hsame.entrypoint, hsame.textsize]
      exact hs (by_contra fun hne => hsame.loaded hne hu)
    · rw [hloaded] at hu
      cases hu

end

/-! ### The check -/

def rangeText : String := "the address is out of the range of the text segment"

theorem existing_ne_range (n : Nat) :
    "** " ++ ("the breakpoint is already exists. (breakpoint " ++ toString n ++ ")") ≠ "** " ++ rangeText := by
  intro h
  have hlist := congrArg String.toList h
  simp only [String.toList_append] at hlist
  have hword : some 'b' = some 'a' := congrArg (fun text : List Char => text[7]?) hlist
  exact absurd hword (by decide)

/-- The report on a breakpoint that is there already is not the refusal. -/
theorem reportExisting_ne (a : Addr) (s : State ρ) : reportExisting a s ≠ s.debug rangeText := by
  have hlines : ∃ lines, reportExisting a s = { s with out := s.out ++ lines } ∧
      ∀ line ∈ lines, line ≠ "** " ++ rangeText := by
    unfold reportExisting
    generalize s.conf.bps.zipIdx = l
    induction l generalizing s with
    | nil => exact ⟨[], by simp, nofun⟩
    | cons e l ih =>
      rw [List.foldl_cons]
      split
      case isFalse => exact ih s
      case isTrue =>
        obtain ⟨lines, hout, hne⟩ := ih (s.debug
          ("the breakpoint is already exists. (breakpoint " ++ toString e.2 ++ ")"))
        refine ⟨_ :: lines, ?_, List.forall_mem_cons.mpr ⟨existing_ne_range e.2, hne⟩⟩
        rw [hout]
        simp [State.debug, State.say]
  intro h
  obtain ⟨lines, hout, hne⟩ := hlines
  have hlist : s.out ++ lines = s.out ++ ["** " ++ rangeText] :=
    congrArg State.out (hout.symm.trans h)
  have hmem := hne ("** " ++ rangeText)
  rw [List.append_cancel_left hlist] at hmem
  exact hmem (List.mem_singleton.mpr rfl) rfl

/-- **`break` refuses an address as out of range exactly when the check says so.** -/
theorem refuses_iff {w : World ρ} {addr : String} {s : State ρ} (hs : s.conf.status = .running) :
    Refuses w addr s ↔ ¬ s.conf.InRange (strtoull addr) := by
  rw [Refuses, setbreak, checked_running running_break hs]
  simp only
  by_cases hin : s.conf.InRange (strtoull addr)
  · refine iff_of_false ?_ (not_not.mpr hin)
    rw [if_neg (not_not.mpr hin)]
    split
    · intro h
      exact reportExisting_ne _ s (congrArg Prod.snd (Except.ok.inj h))
    · intro h
      obtain ⟨u, -, h⟩ := bind_ok.mp h
      have hret : (0 : Int) = errBadBreakpoint := congrArg Prod.fst (Except.ok.inj h)
      exact absurd hret (by decide)
  · rw [if_pos hin]
    exact iff_of_true rfl hin

/-- The check is the part of a section from an address in it on exactly when it ends there. -/
theorem inRange_iff_has {conf : Config} {S : Shdr} (hentry : S.Has conf.entrypoint) :
    ((∀ a, conf.InRange a → S.Has a) ∧ ∀ a, conf.entrypoint ≤ a → S.Has a → conf.InRange a) ↔
      conf.entrypoint.toNat + conf.textsize.toNat = min (S.addr.toNat + S.size.toNat) (2 ^ 64) := by
  have hsize := S.size.isLt
  have hlt := conf.entrypoint.isLt
  have hlt' := conf.textsize.isLt
  have hlast : (conf.entrypoint + conf.textsize - 1).toNat =
      (conf.entrypoint.toNat + conf.textsize.toNat + (2 ^ 64 - 1)) % 2 ^ 64 := by bv_omega
  have hrange : ∀ a, conf.InRange a ↔
      conf.entrypoint.toNat ≤ a.toNat ∧ a.toNat ≤ (conf.entrypoint + conf.textsize - 1).toNat := by
    intro a
    unfold Config.InRange
    bv_omega
  unfold Shdr.Has at hentry
  constructor
  · rintro ⟨hinside, haccepted⟩
    have hfirst := (hrange _).mp (haccepted conf.entrypoint (BitVec.le_refl _) hentry)
    have hend := hinside _ ((hrange (conf.entrypoint + conf.textsize - 1)).mpr ⟨hfirst.2, Nat.le_refl _⟩)
    have hnext : ¬ (conf.entrypoint + conf.textsize - 1).toNat + 1 <
        min (S.addr.toNat + S.size.toNat) (2 ^ 64) := by
      intro hmore
      have hnat : (conf.entrypoint + conf.textsize - 1 + 1).toNat =
          (conf.entrypoint + conf.textsize - 1).toNat + 1 := by
        have hone : (1 : Addr).toNat = 1 := rfl
        rw [BitVec.toNat_add, hone]
        exact Nat.mod_eq_of_lt (by omega)
      have hacc := haccepted (conf.entrypoint + conf.textsize - 1 + 1)
        (BitVec.le_def.mpr (by omega)) ⟨by omega, by omega⟩
      have := ((hrange _).mp hacc).2
      omega
    unfold Shdr.Has at hend
    omega
  · intro hsame
    have hlast' : (conf.entrypoint + conf.textsize - 1).toNat =
        conf.entrypoint.toNat + conf.textsize.toNat - 1 := by omega
    constructor
    · intro a ha
      have := (hrange a).mp ha
      exact ⟨by omega, by omega⟩
    · intro a hle ha
      unfold Shdr.Has at ha
      have hle' := BitVec.le_def.mp hle
      exact (hrange a).mpr ⟨hle', by omega⟩

/-- What is ranged, by the check. -/
theorem ranged_iff_check {w : World ρ} {bytes : List Byte} {S : Shdr} {t u : State ρ}
    (hsame : SameRange t u) (hrun : u.conf.status = .running) (hhas : S.Has (eEntry bytes)) :
    Ranged w bytes S t u ↔ t.conf.entrypoint = eEntry bytes ∧
      (eEntry bytes).toNat + t.conf.textsize.toNat = min (S.addr.toNat + S.size.toNat) (2 ^ 64) := by
  have hcheck : t.conf.entrypoint = eEntry bytes →
      (((∀ a, u.conf.InRange a → S.Has a) ∧ ∀ a, eEntry bytes ≤ a → S.Has a → u.conf.InRange a) ↔
      (eEntry bytes).toNat + t.conf.textsize.toNat = min (S.addr.toNat + S.size.toNat) (2 ^ 64)) := by
    intro hentry
    have hu := hsame.entrypoint.trans hentry
    rw [← hu] at hhas ⊢
    rw [← hsame.textsize]
    exact inRange_iff_has hhas
  have haccepts : ∀ addr, ¬ Refuses w addr u ↔ u.conf.InRange (strtoull addr) := by
    intro addr
    rw [refuses_iff hrun, not_not]
  constructor
  · intro h
    refine ⟨h.entry, (hcheck h.entry).mp ⟨fun a ha => ?_, fun a hle ha => ?_⟩⟩
    · rw [← strtoull_hexDigits a] at ha ⊢
      exact h.inside _ ((haccepts _).mpr ha)
    · rw [← strtoull_hexDigits a] at hle ha ⊢
      exact (haccepts _).mp (h.accepted _ hle ha)
  · rintro ⟨hentry, hsum⟩
    obtain ⟨hinside, haccepted⟩ := (hcheck hentry).mpr hsum
    exact ⟨hentry, fun addr h => hinside _ ((haccepts addr).mp h),
      fun addr hle h => (haccepts addr).mpr (haccepted _ hle h)⟩

theorem EntrySection.spec {bytes : List Byte} {S : Shdr} (h : EntrySection bytes S) :
    S ∈ sections bytes ∧ S.Has (eEntry bytes) := by
  have hmem : S ∈ (sections bytes).filter fun h => h.executable && decide (h.Has (eEntry bytes)) := by
    rw [show _ = [S] from h]
    exact List.mem_singleton.mpr rfl
  obtain ⟨hsection, hboth⟩ := List.mem_filter.mp hmem
  exact ⟨hsection, of_decide_eq_true ((Bool.and_eq_true _ _).mp hboth).2⟩

/-- **After a load the range check follows the executable section of the entry point exactly
when a header looked at has the entry point as its address and the first such one ends where
the section does.** -/
theorem ranged_iff {w : World ρ} {program : String} {bytes : List Byte} {S : Shdr} {s t u : State ρ}
    {l l' : List (Edge (State ρ) Action)} (hfile : w.file program = some bytes)
    (htable : Readable bytes) (hS : EntrySection bytes S) (hs : Path (act w) {} l s)
    (hload : load w program s = .ok (0, t)) (hu : Path (act w) t l' u)
    (hrun : u.conf.status = .running) :
    Ranged w bytes S t u ↔ ∃ h, firstAtEntry bytes = some h ∧
      (eEntry bytes).toNat + h.size.toNat = min (S.addr.toNat + S.size.toNat) (2 ^ 64) := by
  obtain ⟨hmem, hhas⟩ := hS.spec
  obtain ⟨hnot, hloaded, hconf⟩ := load_range hfile htable (List.ne_nil_of_mem hmem) hload
  have hzero := path_unranged hs (fun _ => ⟨rfl, rfl⟩) hnot
  rw [hzero.1, hzero.2] at hconf
  have hsame := path_range hu (by rw [hloaded]; decide)
  rw [ranged_iff_check hsame hrun hhas]
  obtain ⟨hentry, hsize⟩ := Prod.mk.inj hconf
  cases hfirst : firstAtEntry bytes with
  | none =>
    rw [hfirst] at hentry hsize
    refine iff_of_false ?_ nofun
    rintro ⟨hzero, hsum⟩
    have hzero' : (eEntry bytes).toNat = 0 := congrArg BitVec.toNat (hzero.symm.trans hentry)
    have hsize' : t.conf.textsize.toNat = 0 := congrArg BitVec.toNat hsize
    unfold Shdr.Has at hhas
    omega
  | some h =>
    rw [hfirst] at hentry hsize
    have hat : h.addr = eEntry bytes := by
      have hfound : (looked bytes).find? (fun h => h.addr = eEntry bytes) = some h := hfirst
      simpa using List.find?_some hfound
    have hentry' : t.conf.entrypoint = eEntry bytes := hentry.trans hat
    have hsize' : t.conf.textsize = h.size := hsize
    rw [hsize']
    constructor
    · exact fun hsum => ⟨h, rfl, hsum.2⟩
    · rintro ⟨h', heq, hsum⟩
      rw [Option.some.inj heq]
      exact ⟨hentry', hsum⟩

/-! ### Two files -/

/-- The first `n` bytes of a word, as a file has them. -/
def fileBytes (n : Nat) (v : Word) : List Byte := (List.range n).map (byteOf v)

/-- A file of a header and section headers. -/
def elfFile (entry : Word) (headers : List Shdr) : List Byte :=
  List.replicate 24 0 ++ fileBytes 8 entry ++ fileBytes 8 0 ++ fileBytes 8 64 ++ fileBytes 4 0 ++
    fileBytes 2 64 ++ fileBytes 2 0 ++ fileBytes 2 0 ++ fileBytes 2 64 ++
    fileBytes 2 (BitVec.ofNat 64 headers.length) ++ fileBytes 2 0 ++
    headers.flatMap fun h => fileBytes 8 0 ++ fileBytes 8 h.flags ++ fileBytes 8 h.addr ++
      fileBytes 8 0 ++ fileBytes 8 h.size ++ fileBytes 8 0 ++ fileBytes 8 0 ++ fileBytes 8 0

/-- The text of the walk, after the empty header every table begins with. -/
def walkText : Shdr := ⟨6, 0x401000, 18⟩

def walkFile (entry : Word) : List Byte := elfFile entry [⟨0, 0, 0⟩, walkText]

def filed (bytes : List Byte) : World Unit :=
  { walk with
    file := fun name => if name = "a.out" then some bytes else none
    file_empty := rfl }

/-- A load and a start, with a check of the states after each. -/
def loadStart (bytes : List Byte) (check : State Unit → State Unit → Bool) : Bool :=
  match load (filed bytes) "a.out" {} with
  | .ok (ret, t) => decide (ret = 0) &&
      (follow (act (filed bytes)) [.command .start {}] t).any fun p => check t p.2
  | .error _ => false

theorem of_loadStart {bytes : List Byte} {check : State Unit → State Unit → Bool}
    (h : loadStart bytes check = true) : ∃ t l u, load (filed bytes) "a.out" {} = .ok (0, t) ∧
      Path (act (filed bytes)) t l u ∧ check t u = true := by
  unfold loadStart at h
  split at h
  case h_1 ret t hload =>
    obtain ⟨hret, hfollow⟩ := (Bool.and_eq_true _ _).mp h
    obtain ⟨l, u, hpath, -, hcheck⟩ := exists_path (fun _ u => check t u) hfollow
    rw [of_decide_eq_true hret] at hload
    exact ⟨t, l, u, hload, hpath, hcheck⟩
  case h_2 => cases h

theorem walkFile_readable {entry : Word} (h : entry = 0x401000 ∨ entry = 0x401002) :
    Readable (walkFile entry) ∧ EntrySection (walkFile entry) walkText := by
  unfold EntrySection
  rcases h with rfl | rfl
  all_goals
    refine ⟨⟨?_, ?_, ?_, ?_⟩, ?_⟩
    all_goals decide +kernel

theorem filed_file (bytes : List Byte) : (filed bytes).file "a.out" = some bytes :=
  show (if "a.out" = "a.out" then some bytes else none) = some bytes from if_pos rfl

/-- An entry point at the start of the text. -/
theorem ranged_start : ∃ t l u, load (filed (walkFile 0x401000)) "a.out" {} = .ok (0, t) ∧
    Path (act (filed (walkFile 0x401000))) t l u ∧ u.conf.status = .running ∧
    Ranged (filed (walkFile 0x401000)) (walkFile 0x401000) walkText t u := by
  have hran : loadStart (walkFile 0x401000) (fun _ u => decide (u.conf.status = .running)) = true := by
    decide +kernel
  obtain ⟨t, l, u, hload, hpath, hrun⟩ := of_loadStart hran
  obtain ⟨htable, hS⟩ := walkFile_readable (.inl rfl)
  have hfirst : firstAtEntry (walkFile 0x401000) = some walkText := by decide +kernel
  have hentry : (eEntry (walkFile 0x401000)).toNat + walkText.size.toNat =
      min (walkText.addr.toNat + walkText.size.toNat) (2 ^ 64) := by decide +kernel
  exact ⟨t, l, u, hload, hpath, of_decide_eq_true hrun,
    (ranged_iff (filed_file _) htable hS .nil hload hpath (of_decide_eq_true hrun)).mpr
      ⟨walkText, hfirst, hentry⟩⟩

/-- An entry point inside the text: no header is found, and every address is accepted. -/
theorem ranged_inside : ∃ t l u, (filed (walkFile 0x401002)).file "a.out" = some (walkFile 0x401002) ∧
    Readable (walkFile 0x401002) ∧ EntrySection (walkFile 0x401002) walkText ∧
    load (filed (walkFile 0x401002)) "a.out" {} = .ok (0, t) ∧
    Path (act (filed (walkFile 0x401002))) t l u ∧ u.conf.status = .running ∧
    t.conf.entrypoint = 0 ∧ ¬ Refuses (filed (walkFile 0x401002)) "0" u ∧
    ¬ Ranged (filed (walkFile 0x401002)) (walkFile 0x401002) walkText t u := by
  have hran : loadStart (walkFile 0x401002) (fun t u => decide (u.conf.status = .running) &&
      decide (t.conf.entrypoint = 0) && decide (u.conf.InRange (strtoull "0"))) = true := by
    decide +kernel
  obtain ⟨t, l, u, hload, hpath, hcheck⟩ := of_loadStart hran
  simp only [Bool.and_eq_true, decide_eq_true_eq] at hcheck
  obtain ⟨⟨hrun, hentry⟩, hin⟩ := hcheck
  obtain ⟨htable, hS⟩ := walkFile_readable (.inr rfl)
  refine ⟨t, l, u, filed_file _, htable, hS, hload, hpath, hrun, hentry, ?_, fun h => ?_⟩
  · rw [refuses_iff hrun]
    exact not_not.mpr hin
  · have hzero : eEntry (walkFile 0x401002) = 0 := h.entry.symm.trans hentry
    exact absurd hzero (by decide +kernel)

end Apue.Sdb

import Apue.Libmini.Wrappers
import Apue.Memory.CString
import Mathlib.Data.List.Forall2
import Mathlib.Data.List.GetD

/-! `perror`.

It saves `errno`, writes the prefix, and asks `errno` again where it means the saved value. A
`write` has changed it by then, so that `perror_iff`: the right message is printed exactly when
there is no prefix, or the last write of the prefix leaves an `errno` that is in the table as
the saved one is, or out of it as the saved one is. -/
namespace Apue.Libmini
open Memory X86

/-! ### The function -/

def perrmsgMin : Int := 0
def perrmsgMax : Int := 34

def errmsg : List String :=
  ["Success", "Operation not permitted", "No such file or directory", "No such process",
   "Interrupted system call", "I/O error", "No such device or address", "Argument list too long",
   "Exec format error", "Bad file number", "No child processes", "Try again", "Out of memory",
   "Permission denied", "Bad address", "Block device required", "Device or resource busy",
   "File exists", "Cross-device link", "No such device", "Not a directory", "Is a directory",
   "Invalid argument", "File table overflow", "Too many open files", "Not a typewriter",
   "Text file busy", "File too large", "No space left on device", "Illegal seek",
   "Read-only file system", "Too many links", "Broken pipe",
   "Math argument out of domain of func", "Math result not representable"]

/-- Where the linker has put the texts. `table` has what is in `errmsg`, the pointers. -/
structure Texts where
  unknown : Addr
  colon : Addr
  newline : Addr
  table : List Addr

/-- How `perror` does not return. -/
inductive Fault where
  /-- `errmsg` has no such place. -/
  | beyond (index : Word)
  | endless
  deriving DecidableEq, Repr

def strlenLoop (m : Mem) : Nat → Addr → Word → Except Fault Word
  | 0, _, _ => .error .endless
  | n + 1, s, count => if m s = 0 then .ok count else strlenLoop m n (s + 1) (count + 1)

/-- Where no place of the whole memory is zero, the loop does not end. -/
def strlen (m : Mem) (s : Addr) : Except Fault Word := strlenLoop m (2 ^ 64) s 0

variable {κ : Type} (lib : Library) (sys : Kernel κ) (texts : Texts)

/-- The texts that have been given to `write`, and the machine. -/
abbrev Printed (κ : Type) := List (List Byte) × State κ

/-- `write(2, buf, count)`, whose result is ignored. -/
def writeErr (buf : Addr) (count : Word) (p : Printed κ) : Except Fault (Printed κ) :=
  match (write lib sys 2 buf count).perform p.2 with
  | some (_, s) => .ok (p.1 ++ [bytesAt p.2.mem count.toNat buf], s)
  | none => .error .endless

/-- `write(2, s, strlen(s))`. -/
def writeString (s : Addr) (p : Printed κ) : Except Fault (Printed κ) := do
  let n ← strlen p.2.mem s
  writeErr lib sys s n p

/-- What the range check lets through. -/
def InTable (e : Word) : Prop := ¬ (e.toInt < perrmsgMin ∨ e.toInt > perrmsgMax)

instance (e : Word) : Decidable (InTable e) := inferInstanceAs (Decidable (¬ _))

def writePrefix (prefix_ : Addr) (p : Printed κ) : Except Fault (Printed κ) :=
  if prefix_ ≠ 0 then do
    let p ← writeString lib sys prefix_ p
    writeErr lib sys texts.colon 2 p
  else .ok p

/-- The check is on the `errno` of now. -/
def writeMessage (backup : Word) (p : Printed κ) : Except Fault (Printed κ) :=
  if ¬ InTable (errnoOf lib p.2) then writeString lib sys texts.unknown p
  else
    match texts.table[backup.toNat]? with
    | some msg => writeString lib sys msg p
    | none => .error (.beyond backup)

def perror (prefix_ : Addr) (s : State κ) : Except Fault (Printed κ) := do
  let backup := errnoOf lib s
  let p ← writePrefix lib sys texts prefix_ ([], s)
  let p ← writeMessage lib sys texts backup p
  writeErr lib sys texts.newline 1 p

/-! ### What it should print -/

def textBytes (s : String) : List Byte := s.toList.map fun c => BitVec.ofNat 8 c.toNat

/-- The text of an error number. -/
def message (e : Word) : String := if 0 ≤ e.toInt ∧ e.toInt ≤ 34 then errmsg.getD e.toNat "" else "Unknown"

/-- The string `bs` is at `a`, apart from `errno`. -/
structure TextAt (lib : Library) (m : Mem) (a : Addr) (bs : List Byte) : Prop where
  ends : Ends (mapped m) a bs
  apart : ∀ i ≤ bs.length, ¬ (a + BitVec.ofNat 64 i - lib.errno).toNat < 8

/-- The linker has put the texts where they are looked for. -/
structure Texts.Placed (texts : Texts) (lib : Library) (m : Mem) : Prop where
  unknown : TextAt lib m texts.unknown (textBytes "Unknown")
  colon : TextAt lib m texts.colon (textBytes ": ")
  newline : TextAt lib m texts.newline (textBytes "\n")
  table : List.Forall₂ (TextAt lib m) texts.table (errmsg.map textBytes)

/-- What a prefix is to put before the message: nothing for the null pointer. -/
inductive Fronts (m : Mem) : Addr → List (List Byte) → Prop where
  | null : Fronts m 0 []
  | string {a : Addr} {bs : List Byte} : a ≠ 0 → Ends (mapped m) a bs → Fronts m a [bs, textBytes ": "]

/-- `perror` prints the message of the `errno` that it was called with, after the prefix. -/
def Prints (front : List (List Byte)) (prefix_ : Addr) (s : State κ) : Prop :=
  ∃ t, perror lib sys texts prefix_ s =
    .ok (front ++ [textBytes (message (errnoOf lib s)), textBytes "\n"], t)

/-- A write leaves the program's memory alone. -/
def WritesOut (sys : Kernel κ) : Prop := ∀ (r : Request) m k, r.number = 1 → (sys r m k).mem = m

/-- The kernel's answer to the write of `": "`. -/
def colonAnswer (prefix_ : Addr) (p : Printed κ) : Word :=
  match writeString lib sys prefix_ p with
  | .ok p => ((write lib sys 2 texts.colon 2).call p.2).1
  | .error _ => 0

variable {lib sys texts} {m : Mem} {a : Addr} {bs : List Byte} {p : Printed κ}

/-! ### One write -/

theorem strlenLoop_ends {n : Nat} (h : Ends (mapped m) a bs) (hn : bs.length < n) (count : Word) :
    strlenLoop m n a count = .ok (count + BitVec.ofNat 64 bs.length) := by
  induction n generalizing a bs count with
  | zero => exact absurd hn (Nat.not_lt_zero _)
  | succ n ih =>
    cases bs with
    | nil =>
      rw [strlenLoop, if_pos (Option.some.inj h)]
      simp
    | cons b bs =>
      obtain ⟨hb, hne, hrest⟩ := h
      have hb' : ¬ m a = 0 := by rwa [Option.some.inj hb]
      rw [strlenLoop, if_neg hb', ih hrest (Nat.lt_of_succ_lt_succ hn), BitVec.add_assoc,
        List.length_cons, Nat.add_comm bs.length, BitVec.ofNat_add]
      rfl

theorem strlen_ends (h : Ends (mapped m) a bs) : strlen m a = .ok (BitVec.ofNat 64 bs.length) := by
  rw [strlen, strlenLoop_ends h h.length_lt]
  exact congrArg Except.ok (BitVec.zero_add _)

/-- What `errno` is after a system call. -/
def errnoAfter (r : Word) : Word := if r.toInt < 0 then -r else 0

theorem inTable_errnoAfter {r : Word} : InTable (errnoAfter r) ↔ -34 ≤ r.toInt := by
  have hlow := BitVec.le_toInt (x := r)
  have hhigh := BitVec.toInt_lt (x := r)
  unfold InTable errnoAfter perrmsgMin perrmsgMax
  split
  · rw [BitVec.toInt_neg, Int.bmod_def]
    omega
  · have hzero : (0 : Word).toInt = 0 := rfl
    omega

/-- The machine after a write: what matters of it is `errno`. -/
structure Wrote (lib : Library) (r : Word) (s t : State κ) : Prop where
  errno : errnoOf lib t = errnoAfter r
  mem : ∀ x, ¬ (x - lib.errno).toNat < 8 → t.mem x = s.mem x

theorem wrote_retVal (lib : Library) (r : Word) (s : State κ) :
    Wrote lib r s (wrapperRetVal lib ssizeT ssizeT r s).2 := by
  unfold wrapperRetVal
  dsimp only
  split
  case isTrue hneg =>
    refine ⟨?_, fun x hx => ?_⟩
    · rw [errnoOf_setErrno, errnoAfter, if_pos hneg]
    · exact (poke_outside _ _ _ hx).trans (poke_outside _ _ _ hx)
  case isFalse hneg =>
    refine ⟨?_, fun x hx => poke_outside _ _ _ hx⟩
    rw [errnoOf_setErrno, errnoAfter, if_neg hneg]

/-- **A write** of a text. -/
theorem writeErr_ends (lib : Library) (hsys : WritesOut sys) (h : Ends (mapped p.2.mem) a bs) :
    ∃ t, writeErr lib sys a (BitVec.ofNat 64 bs.length) p = .ok (p.1 ++ [bs], t) ∧
      Wrote lib ((write lib sys 2 a (BitVec.ofNat 64 bs.length)).call p.2).1 p.2 t := by
  have hlen : (BitVec.ofNat 64 bs.length).toNat = bs.length := Nat.mod_eq_of_lt h.length_lt
  have hmem : ((write lib sys 2 a (BitVec.ofNat 64 bs.length)).call p.2).2.mem = p.2.mem :=
    hsys _ _ _ rfl
  obtain ⟨herrno, hkept⟩ := wrote_retVal lib ((write lib sys 2 a (BitVec.ofNat 64 bs.length)).call p.2).1
    ((write lib sys 2 a (BitVec.ofNat 64 bs.length)).call p.2).2
  refine ⟨_, ?_, herrno, fun x hx => (hkept x hx).trans (congrFun hmem x)⟩
  show Except.ok (p.1 ++ [bytesAt p.2.mem (BitVec.ofNat 64 bs.length).toNat a], _) = _
  rw [hlen, h.bytesAt]
  rfl

theorem writeString_ends (lib : Library) (hsys : WritesOut sys) (h : Ends (mapped p.2.mem) a bs) :
    ∃ t r, writeString lib sys a p = .ok (p.1 ++ [bs], t) ∧ Wrote lib r p.2 t := by
  obtain ⟨t, ht, hwrote⟩ := writeErr_ends lib hsys h
  refine ⟨t, _, ?_, hwrote⟩
  rw [writeString, strlen_ends h]
  exact ht

/-- A text stays where it is. -/
theorem TextAt.wrote {s t : State κ} {r : Word} (h : TextAt lib s.mem a bs) (hw : Wrote lib r s t) :
    TextAt lib t.mem a bs :=
  ⟨h.ends.congr fun i hi => congrArg some (hw.mem _ (h.apart i (Nat.le_of_lt_succ hi))), h.apart⟩

theorem Texts.Placed.wrote {s t : State κ} {r : Word} (h : texts.Placed lib s.mem)
    (hw : Wrote lib r s t) : texts.Placed lib t.mem :=
  ⟨h.unknown.wrote hw, h.colon.wrote hw, h.newline.wrote hw, h.table.imp fun _ _ ht => ht.wrote hw⟩

/-! ### The message -/

theorem inTable_iff {e : Word} : InTable e ↔ e.toNat < errmsg.length := by
  have hlen : errmsg.length = 35 := rfl
  unfold InTable perrmsgMin perrmsgMax
  rw [hlen, BitVec.toInt_eq_toNat_cond]
  split <;> omega

theorem message_inTable {e : Word} (h : InTable e) : message e = errmsg.getD e.toNat "" := by
  unfold InTable perrmsgMin perrmsgMax at h
  exact if_pos (by omega)

theorem message_unknown {e : Word} (h : ¬ InTable e) : message e = "Unknown" := by
  unfold InTable perrmsgMin perrmsgMax at h
  exact if_neg (by omega)

/-- **What is written for the message**: the right text where the saved `errno` and the one of now
are both in the table or both out of it. -/
theorem writeMessage_eq (hsys : WritesOut sys) (hp : texts.Placed lib p.2.mem) {backup : Word}
    (hsame : InTable backup ↔ InTable (errnoOf lib p.2)) :
    ∃ t r, writeMessage lib sys texts backup p = .ok (p.1 ++ [textBytes (message backup)], t) ∧
      Wrote lib r p.2 t := by
  unfold writeMessage
  by_cases hnow : InTable (errnoOf lib p.2)
  case neg =>
    rw [if_pos hnow, message_unknown (mt hsame.mp hnow)]
    exact writeString_ends lib hsys hp.unknown.ends
  case pos =>
    have hbackup := hsame.mpr hnow
    have hlen := inTable_iff.mp hbackup
    have htable : backup.toNat < texts.table.length := by
      rw [hp.table.length_eq, List.length_map]
      exact hlen
    have htext := hp.table.get htable (by rwa [List.length_map])
    rw [if_neg (not_not.mpr hnow), List.getElem?_eq_getElem htable, message_inTable hbackup,
      List.getD_eq_getElem _ _ hlen]
    rw [List.get_eq_getElem, List.get_eq_getElem, List.getElem_map] at htext
    exact writeString_ends lib hsys htext.ends

/-- Elsewhere it is another text, or a place that `errmsg` does not have. -/
theorem writeMessage_ne (hsys : WritesOut sys) (hp : texts.Placed lib p.2.mem) {backup : Word}
    (hother : ¬ (InTable backup ↔ InTable (errnoOf lib p.2))) :
    (writeMessage lib sys texts backup p = .error (.beyond backup)) ∨
      InTable backup ∧ ∃ t r, writeMessage lib sys texts backup p = .ok (p.1 ++ [textBytes "Unknown"], t) ∧
        Wrote lib r p.2 t := by
  unfold writeMessage
  by_cases hnow : InTable (errnoOf lib p.2)
  case pos =>
    have hbackup : ¬ InTable backup := fun hb => hother (iff_of_true hb hnow)
    have htable : texts.table.length ≤ backup.toNat := by
      rw [hp.table.length_eq, List.length_map]
      exact Nat.le_of_not_lt (mt inTable_iff.mpr hbackup)
    rw [if_neg (not_not.mpr hnow), List.getElem?_eq_none htable]
    exact .inl rfl
  case neg =>
    have hbackup : InTable backup := by
      by_contra hb
      exact hother (iff_of_false hb hnow)
    rw [if_pos hnow]
    exact .inr ⟨hbackup, writeString_ends lib hsys hp.unknown.ends⟩

/-! ### The whole -/

/-- The `errno` that the check looks at is the saved one, or what the write of `": "` has left. -/
theorem writePrefix_eq (hsys : WritesOut sys) {s : State κ} (hp : texts.Placed lib s.mem)
    {front : List (List Byte)} (hfront : Fronts s.mem a front) :
    ∃ t, writePrefix lib sys texts a ([], s) = .ok (front, t) ∧ texts.Placed lib t.mem ∧
      errnoOf lib t = if a = 0 then errnoOf lib s else errnoAfter (colonAnswer lib sys texts a ([], s)) := by
  cases hfront with
  | null => exact ⟨s, rfl, hp, rfl⟩
  | @string a bs hne hbs =>
    obtain ⟨t, r, ht, hwrote⟩ := writeString_ends (p := ([], s)) lib hsys hbs
    have hp' : texts.Placed lib t.mem := hp.wrote hwrote
    obtain ⟨u, hu, hwrote'⟩ := writeErr_ends (p := ([bs], t)) lib hsys hp'.colon.ends
    have hcolon : colonAnswer lib sys texts a ([], s) =
        ((write lib sys 2 texts.colon 2).call t).1 := by
      rw [colonAnswer, ht]
    refine ⟨u, ?_, hp'.wrote hwrote', ?_⟩
    · rw [writePrefix, if_pos hne, ht]
      exact hu
    · rw [if_neg hne, hcolon]
      exact hwrote'.errno

theorem message_ne {e : Word} (h : InTable e) : textBytes "Unknown" ≠ textBytes (message e) := by
  have hall : ∀ msg ∈ errmsg, textBytes "Unknown" ≠ textBytes msg := by decide +kernel
  rw [message_inTable h, List.getD_eq_getElem _ _ (inTable_iff.mp h)]
  exact hall _ (List.getElem_mem _)

/-- The prefix, the message and the newline. -/
theorem perror_eq (hsys : WritesOut sys) {s t u : State κ} {front : List (List Byte)} {msg : List Byte}
    (ht : writePrefix lib sys texts a ([], s) = .ok (front, t))
    (hm : writeMessage lib sys texts (errnoOf lib s) (front, t) = .ok (front ++ [msg], u))
    (hp : texts.Placed lib u.mem) :
    ∃ v, perror lib sys texts a s = .ok (front ++ [msg, textBytes "\n"], v) := by
  obtain ⟨v, hv, -⟩ := writeErr_ends (p := (front ++ [msg], u)) lib hsys hp.newline.ends
  refine ⟨v, ?_⟩
  have hperror : perror lib sys texts a s = writeErr lib sys texts.newline 1 (front ++ [msg], u) := by
    rw [perror, ht]
    show (writeMessage lib sys texts (errnoOf lib s) (front, t)).bind _ = _
    rw [hm]
    rfl
  rw [hperror, List.append_cons front msg [textBytes "\n"]]
  exact hv

/-- What decides is the `errno` after the prefix. -/
theorem prints_iff (hsys : WritesOut sys) {s t : State κ} {front : List (List Byte)}
    (ht : writePrefix lib sys texts a ([], s) = .ok (front, t)) (hp : texts.Placed lib t.mem) :
    Prints lib sys texts front a s ↔ (InTable (errnoOf lib s) ↔ InTable (errnoOf lib t)) := by
  constructor
  · rintro ⟨u, hu⟩
    by_contra hother
    rcases writeMessage_ne (p := (front, t)) hsys hp hother with hm | ⟨hin, v, r, hm, hwrote⟩
    · have hfault : perror lib sys texts a s = .error (.beyond (errnoOf lib s)) := by
        rw [perror, ht]
        show (writeMessage lib sys texts (errnoOf lib s) (front, t)).bind _ = _
        rw [hm]
        rfl
      cases hfault.symm.trans hu
    · obtain ⟨w, hw⟩ := perror_eq hsys ht hm (hp.wrote hwrote)
      have htexts := congrArg Prod.fst (Except.ok.inj (hw.symm.trans hu))
      exact message_ne hin (List.cons.inj (List.append_cancel_left htexts)).1
  · intro hiff
    obtain ⟨v, r, hm, hwrote⟩ := writeMessage_eq (p := (front, t)) hsys hp hiff
    exact perror_eq hsys ht hm (hp.wrote hwrote)

/-- **`perror` prints the message of its `errno` exactly when** there is no prefix, or the write of
`": "` succeeds or fails with a number of the table just where the `errno` is in the table. -/
theorem perror_iff (hsys : WritesOut sys) {s : State κ} (hp : texts.Placed lib s.mem)
    {front : List (List Byte)} (hfront : Fronts s.mem a front) :
    Prints lib sys texts front a s ↔
      a = 0 ∨ (InTable (errnoOf lib s) ↔ -34 ≤ (colonAnswer lib sys texts a ([], s)).toInt) := by
  obtain ⟨t, ht, hp', herrno⟩ := writePrefix_eq hsys hp hfront
  rw [prints_iff hsys ht hp', herrno]
  by_cases ha : a = 0
  · rw [if_pos ha]
    exact iff_of_true Iff.rfl (.inl ha)
  · rw [if_neg ha, inTable_errnoAfter]
    exact (or_iff_right ha).symm

/-! ### Two errors -/

/-- The texts, and a prefix. -/
def rodata : List String := "Unknown" :: ": " :: "\n" :: "open" :: errmsg

def textAddr (i : Nat) : Addr := 0x8000 + BitVec.ofNat 64 (64 * i)

/-- A memory with the texts, 64 bytes each, and an `errno`. -/
def textMem (e : Word) : Mem :=
  poke (fun x => ((rodata.map textBytes).getD ((x - 0x8000).toNat / 64) []).getD ((x - 0x8000).toNat % 64) 0)
    0x4010 e

def linked : Texts where
  unknown := textAddr 0
  colon := textAddr 1
  newline := textAddr 2
  table := (List.range 35).map fun i => textAddr (i + 4)

def erring (e : Word) : State Unit := { caller with mem := textMem e }

/-- Short, and without a zero. -/
def fits (bs : List Byte) : Bool := decide (bs.length < 64) && bs.all (· != 0)

theorem rodata_fits : (rodata.all fun text => fits (textBytes text)) = true := by decide +kernel

theorem textAddr_offset {i j : Nat} (hi : i < 64) (hj : j < 64) :
    (textAddr i + BitVec.ofNat 64 j - 0x8000).toNat = 64 * i + j ∧
      ¬ (textAddr i + BitVec.ofNat 64 j - 0x4010).toNat < 8 := by
  unfold textAddr
  constructor <;> bv_omega

theorem rodata_text {i : Nat} {text : String} (e : Word) (h : rodata[i]? = some text) :
    TextAt library (textMem e) (textAddr i) (textBytes text) := by
  obtain ⟨hlen, hnonzero⟩ : (textBytes text).length < 64 ∧ ∀ b ∈ textBytes text, b ≠ 0 := by
    simpa [fits] using List.all_eq_true.mp rodata_fits text (List.mem_of_getElem? h)
  have hi : i < 64 := Nat.lt_trans (List.getElem?_eq_some_iff.mp h).1 (by decide)
  have hplace : ∀ j < 64, textMem e (textAddr i + BitVec.ofNat 64 j) = (textBytes text).getD j 0 := by
    intro j hj
    obtain ⟨hoff, hout⟩ := textAddr_offset hi hj
    have hdiv : (64 * i + j) / 64 = i := by omega
    have hmod : (64 * i + j) % 64 = j := by omega
    rw [textMem, poke_outside _ _ _ hout, hoff, hdiv, hmod, List.getD_eq_getElem?_getD (i := i),
      List.getElem?_map, h]
    rfl
  refine ⟨ends_of_getElem (fun j hj => ?_) hnonzero ?_, fun j hj => ?_⟩
  · rw [hplace j (by omega), List.getD_eq_getElem _ _ hj]
  · rw [hplace _ hlen, List.getD_eq_default _ _ (Nat.le_refl _)]
  · exact (textAddr_offset hi (by omega)).2

theorem linked_placed (e : Word) : linked.Placed library (textMem e) where
  unknown := rodata_text e (i := 0) rfl
  colon := rodata_text e (i := 1) rfl
  newline := rodata_text e (i := 2) rfl
  table := by
    have hcount : linked.table.length = (errmsg.map textBytes).length := by
      rw [List.length_map]
      rfl
    refine List.forall₂_iff_get.mpr ⟨hcount, fun i hi hi' => ?_⟩
    have htable : linked.table.get ⟨i, hi⟩ = textAddr (i + 4) := by simp [linked]
    have hlen : i < errmsg.length := by simpa using hi'
    rw [htable, List.get_eq_getElem, List.getElem_map]
    exact rodata_text e (List.getElem?_eq_getElem hlen : errmsg[i]? = some errmsg[i])

/-- A kernel that writes everything. -/
def writing : Kernel Unit := fun r m k => ⟨r.rdx, 0, 0, m, k⟩

theorem erring_errno (e : Word) : errnoOf library (erring e) = e := peek_poke _ _ _

theorem open_fronts (e : Word) :
    Fronts (erring e).mem (textAddr 3) [textBytes "open", textBytes ": "] :=
  .string (by decide) (rodata_text e (i := 3) rfl).ends

/-- The kernel writes both bytes of `": "`. -/
theorem colon_written (e : Word) : colonAnswer library writing linked (textAddr 3) ([], erring e) = 2 := by
  have hsys : WritesOut writing := fun _ _ _ _ => rfl
  obtain ⟨u, r, hu, -⟩ := writeString_ends (p := ([], erring e)) library hsys
    (@rodata_text 3 "open" e rfl).ends
  rw [colonAnswer, hu]
  rfl

/-- A file that is not there, with a prefix. -/
theorem perror_enoent :
    Prints library writing linked [textBytes "open", textBytes ": "] (textAddr 3) (erring 2) := by
  have hsys : WritesOut writing := fun _ _ _ _ => rfl
  refine (perror_iff hsys (linked_placed 2) (open_fronts 2)).mpr (.inr ?_)
  rw [erring_errno, colon_written]
  decide

/-- An error of a system call that libmini has not, with a prefix: `errmsg` has no such place. -/
theorem perror_enosys : WritesOut writing ∧ linked.Placed library (erring 38).mem ∧
    Fronts (erring 38).mem (textAddr 3) [textBytes "open", textBytes ": "] ∧
    ¬ Prints library writing linked [textBytes "open", textBytes ": "] (textAddr 3) (erring 38) := by
  have hsys : WritesOut writing := fun _ _ _ _ => rfl
  obtain ⟨t, ht, hp, herrno⟩ := writePrefix_eq hsys (linked_placed 38) (open_fronts 38)
  refine ⟨hsys, linked_placed 38, open_fronts 38, fun hprints => ?_⟩
  have hiff := (prints_iff hsys ht hp).mp hprints
  rw [herrno, if_neg (by decide), inTable_errnoAfter, colon_written, erring_errno] at hiff
  exact absurd (hiff.mpr (by decide)) (by decide)

end Apue.Libmini

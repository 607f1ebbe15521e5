import Apue.Lsof.Scan

/-! The user id of a process.

`getUid` reads the number with `stoi`, which throws for the upper half of the ids, and takes any
line that begins with `Uid`, so that `decodes_iff`: a status is decoded exactly when its id is not
there and no other such line has a number. -/
namespace Apue.Lsof
open CLib

def beginsUid (line : Text) : Bool := "Uid".toList.isPrefixOf line

/-- The number that digits denote. -/
def number (w : Text) : Nat := value 10 (digits 10 w)

/-- A line `Uid:` with numbers, of which `first` is the first. -/
structure UidLine (line first : Text) : Prop where
  label : "Uid:".toList <+: line
  numbers : ∃ rest, words line = "Uid:".toList :: first :: rest ∧ ∀ w ∈ first :: rest, isNumber w = true

/-- Such a line comes after lines that do not begin with `Uid`. -/
def Formatted (content first : Text) : Prop :=
  ∃ line, (lines content).find? beginsUid = some line ∧ UidLine line first

/-- The id is returned, and an error where there is none. -/
structure Decodes (sys : Sys) (pidPath content : Text) : Prop where
  id : ∀ first, Formatted content first → number first < 2 ^ 32 →
    getUid sys pidPath = .ok (number first, 0)
  missing : (∀ first, ¬ Formatted content first) → ∃ uid, getUid sys pidPath = .ok (uid, 1)

/-- The first line that begins with `Uid`, if there is one, has no word of digits. -/
def NoNumber (content : Text) : Prop :=
  ∀ line, (lines content).find? beginsUid = some line → ∀ w ∈ words line, isNumber w = false

/-! ### Numbers -/

theorem isNumber_cons {c : Char} {w : Text} : isNumber (c :: w) = true ↔ isdigit c = true ∧ isNumber w = true := by
  rw [isNumber, List.all_cons, Bool.and_eq_true_iff, isNumber]

theorem digit_of_isdigit {c : Char} (h : isdigit c = true) : ∃ v, digit 10 c = some v := by
  have hc : '0' ≤ c ∧ c ≤ '9' := of_decide_eq_true h
  have hv : c.toNat - '0'.toNat < 10 := by
    have hle : c.toNat ≤ '9'.toNat := hc.2
    have hnine : '9'.toNat = 57 := rfl
    have hzero : '0'.toNat = 48 := rfl
    omega
  refine ⟨c.toNat - '0'.toNat, ?_⟩
  simp only [digit, if_pos hc, if_pos hv]

theorem length_digits {w : Text} (h : isNumber w = true) : (digits 10 w).length = w.length := by
  induction w with
  | nil => rfl
  | cons c w ih =>
    obtain ⟨hc, hw⟩ := isNumber_cons.mp h
    obtain ⟨v, hv⟩ := digit_of_isdigit hc
    rw [digits, hv, List.length_cons, List.length_cons, ih hw]

/-- Digits have no sign. -/
theorem sign_number {w : Text} (h : isNumber w = true) : sign w = (false, w) := by
  unfold sign
  split
  · exact absurd (isNumber_cons.mp h).1 (by decide)
  · exact absurd (isNumber_cons.mp h).1 (by decide)
  · rfl

theorem denotes_number {w : Text} (h : isNumber w = true) (hne : w ≠ []) :
    denotes (String.ofList w) = some (number w) := by
  have hlen := length_digits h
  have hds : digits 10 w ≠ [] := by
    intro hnil
    rw [hnil] at hlen
    exact hne (List.eq_nil_of_length_eq_zero hlen.symm)
  simp only [denotes, String.toList_ofList, sign_number h]
  rw [if_pos ⟨hds, hlen⟩]
  rfl

/-- `stoi` reads a number that an `int` can hold. -/
theorem stoi_number {w : Text} (h : isNumber w = true) (hne : w ≠ []) :
    stoi (String.ofList w) = if number w < 2 ^ 31 then .ok (number w : Int) else .error .outOfRange := by
  rw [stoi_of_denotes (denotes_number h hne)]
  by_cases hsmall : number w < 2 ^ 31
  · rw [if_pos hsmall, if_neg (by omega)]
  · rw [if_neg hsmall, if_pos (by omega)]

/-! ### The line -/

theorem take_eq_iff (line : Text) : line.take 3 = "Uid".toList ↔ beginsUid line = true := by
  rw [beginsUid, List.isPrefixOf_iff_prefix, List.prefix_iff_eq_take]
  exact eq_comm

theorem uidOf_eq (ls : List Text) :
    uidOf ls = (ls.find? beginsUid).bind fun line => (words line).find? isNumber := by
  induction ls with
  | nil => rfl
  | cons line rest ih =>
    rw [uidOf, List.find?_cons]
    by_cases h : beginsUid line = true
    · rw [if_pos ((take_eq_iff line).mpr h), h]
      rfl
    · rw [if_neg (mt (take_eq_iff line).mp h), ih, Bool.eq_false_of_not_eq_true h]

variable {sys : Sys} {pidPath content first line : Text}

theorem UidLine.find? (h : UidLine line first) : (words line).find? isNumber = some first := by
  obtain ⟨rest, hwords, hnumbers⟩ := h.numbers
  have hlabel : isNumber "Uid:".toList = false := by decide
  rw [hwords, List.find?_cons, hlabel, List.find?_cons, hnumbers first List.mem_cons_self]

theorem Formatted.uidOf (h : Formatted content first) : uidOf (lines content) = some first := by
  obtain ⟨line, hline, huid⟩ := h
  rw [uidOf_eq, hline]
  exact huid.find?

/-- **A formatted status is read with `stoi`.** -/
theorem getUid_formatted (hread : sys.read (pidPath ++ "/status".toList) = some content)
    (h : Formatted content first) :
    getUid sys pidPath = if number first < 2 ^ 31 then .ok (number first, 0) else .error .outOfRange := by
  have hbuf := h.uidOf
  obtain ⟨line, hline, huid⟩ := h
  obtain ⟨rest, hwords, hnumbers⟩ := huid.numbers
  have hmem : first ∈ words line := by simp [hwords]
  have hfirst : isNumber first = true := hnumbers first List.mem_cons_self
  rw [getUid, hread]
  simp only [hbuf, stoi_number hfirst (isWord_of_mem hmem).nonempty]
  split
  · next hsmall =>
    have hmod : ((number first : Int) % 2 ^ 32).toNat = number first := by omega
    simp only [Except.map, hmod]
  · rfl

/-- What a status has that is not formatted. -/
theorem getUid_unformatted (hread : sys.read (pidPath ++ "/status".toList) = some content) :
    (∃ uid, getUid sys pidPath = .ok (uid, 1)) ↔ NoNumber content := by
  have hnone : uidOf (lines content) = none ↔ NoNumber content := by
    rw [uidOf_eq, NoNumber]
    cases (lines content).find? beginsUid with
    | none => simp
    | some line => simp
  rw [getUid, hread, ← hnone]
  cases hbuf : uidOf (lines content) with
  | none => simp [hbuf]
  | some buf =>
    simp only [hbuf, reduceCtorEq, iff_false, not_exists]
    intro uid heq
    cases hstoi : stoi (String.ofList buf) with
    | error e => simp [hstoi, Except.map] at heq
    | ok n => simp [hstoi, Except.map] at heq

/-- **A status is decoded exactly when its id is not in the upper half**, or it has none and no
line begins with `Uid` and has a number. -/
theorem decodes_iff (hread : sys.read (pidPath ++ "/status".toList) = some content) :
    Decodes sys pidPath content ↔
      (∀ first, Formatted content first → number first < 2 ^ 31 ∨ 2 ^ 32 ≤ number first) ∧
      ((∀ first, ¬ Formatted content first) → NoNumber content) := by
  constructor
  · intro h
    refine ⟨fun first hfirst => ?_, fun hnone => (getUid_unformatted hread).mp (h.missing hnone)⟩
    by_contra hupper
    obtain ⟨hlarge, hid⟩ := not_or.mp hupper
    have heq := h.id first hfirst (Nat.not_le.mp hid)
    rw [getUid_formatted hread hfirst, if_neg hlarge] at heq
    cases heq
  · intro ⟨hids, hnone⟩
    refine ⟨fun first hfirst hid => ?_, fun hmissing => (getUid_unformatted hread).mpr (hnone hmissing)⟩
    have hsmall : number first < 2 ^ 31 := (hids first hfirst).resolve_right (Nat.not_le.mpr hid)
    rw [getUid_formatted hread hfirst, if_pos hsmall]

/-! ### Two ids -/

def statusSys (content : Text) : Sys where
  read path := if path = "/proc/1/status".toList then some content else none
  readlink _ := .error eacces
  stat _ _ _ := .error eacces
  getpwuid _ := none
  readdir _ := none

def statusOf (id : Text) : Text := "Name:\tcat\nUid:\t".toList ++ id ++ "\t0\t0\t0\nGid:\t0\n".toList

theorem decodes_user : Decodes (statusSys (statusOf "1000".toList)) "/proc/1".toList (statusOf "1000".toList) := by
  refine (decodes_iff rfl).mpr ⟨fun first hfirst => ?_, fun hnone => ?_⟩
  · have hbuf : uidOf (lines (statusOf "1000".toList)) = some "1000".toList := by decide +kernel
    rw [hfirst.uidOf] at hbuf
    rw [Option.some.inj hbuf]
    exact .inl (by decide)
  · refine absurd ⟨"Uid:\t1000\t0\t0\t0".toList, by decide +kernel, ?_⟩ (hnone "1000".toList)
    exact ⟨by decide, ["0".toList, "0".toList, "0".toList], by decide +kernel⟩

/-- The exception ends the whole listing. -/
theorem decodes_nobody : Formatted (statusOf "4294967294".toList) "4294967294".toList ∧
    number "4294967294".toList = 4294967294 ∧
    ¬ Decodes (statusSys (statusOf "4294967294".toList)) "/proc/1".toList (statusOf "4294967294".toList) := by
  have hformatted : Formatted (statusOf "4294967294".toList) "4294967294".toList := by
    refine ⟨"Uid:\t4294967294\t0\t0\t0".toList, by decide +kernel, ?_⟩
    exact ⟨by decide, ["0".toList, "0".toList, "0".toList], by decide +kernel⟩
  refine ⟨hformatted, by decide, fun h => ?_⟩
  have hid := h.id _ hformatted (by decide)
  rw [getUid_formatted rfl hformatted, if_neg (by decide)] at hid
  cases hid

end Apue.Lsof

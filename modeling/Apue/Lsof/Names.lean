import Apue.Lsof.Entries
import Mathlib.Data.List.TakeWhile

/-! The names of links.

A name should be the target without the mark of a deleted file, and the path with a note where the
link may not be read. `clearDeleted` takes the first word instead, so that `shows_iff`: a name
is what it should be exactly when it has no blank, and never where the link may not be read. -/
namespace Apue.Lsof
open CLib

def deletedMark : Text := " (deleted)".toList

/-- A target without one mark at its end. -/
def undeleted (target : Text) : Text :=
  if deletedMark <:+ target then target.take (target.length - deletedMark.length) else target

/-- The name that a link at `path` should have. -/
def Shows (path : Text) (answer : Except Errno Text) (name : Text) : Prop :=
  match answer with
  | .ok target => target.length < bufSize → name = undeleted target
  | .error errno => errno = eacces → name = path ++ " (Permission denied)".toList

/-- The name has nothing that ends it early. -/
def Plain : Except Errno Text → Prop
  | .ok target => target.length < bufSize →
      (∀ c ∈ undeleted target, isspace c = false ∧ c ≠ '\x00') ∧ target ≠ deletedMark
  | .error errno => errno ≠ eacces

/-! ### Targets -/

theorem undeleted_append (t : Text) : undeleted (t ++ deletedMark) = t := by
  rw [undeleted, if_pos (List.suffix_append t deletedMark), List.length_append, Nat.add_sub_cancel,
    List.take_left]

theorem undeleted_of_not {t : Text} (h : ¬ deletedMark <:+ t) : undeleted t = t := if_neg h

/-- What a link is read as, up to a zero byte, has the words of the target. -/
theorem clearDeleted_plain {t : Text} (h : ∀ c ∈ t, isspace c = false ∧ c ≠ '\x00') :
    clearDeleted (t.takeWhile (· != '\x00')) = t := by
  have hall : t.takeWhile (· != '\x00') = t :=
    List.takeWhile_eq_self_iff.mpr (by simpa using fun c hc => (h c hc).2)
  rw [hall, clearDeleted, headD_words_iff]
  exact fun c hc => (h c hc).1

theorem clearDeleted_mark {t : Text} (h : ∀ c ∈ t, isspace c = false ∧ c ≠ '\x00') (hne : t ≠ []) :
    clearDeleted ((t ++ deletedMark).takeWhile (· != '\x00')) = t := by
  have hall : (t ++ deletedMark).takeWhile (· != '\x00') = t ++ deletedMark := by
    rw [List.takeWhile_append_of_pos (by simpa using fun c hc => (h c hc).2)]
    rfl
  rw [hall, clearDeleted]
  have hwords : words (t ++ deletedMark) = t :: words "(deleted)".toList :=
    words_cons ⟨hne, fun c hc => (h c hc).1⟩ (by decide) _
  rw [hwords]
  rfl

/-- The first word up to a zero byte has neither blanks nor zero bytes. -/
theorem clearDeleted_chars {t : Text} : ∀ c ∈ clearDeleted (t.takeWhile (· != '\x00')),
    isspace c = false ∧ c ≠ '\x00' := by
  intro c hc
  rw [clearDeleted] at hc
  cases hw : words (t.takeWhile (· != '\x00')) with
  | nil =>
    rw [hw] at hc
    cases hc
  | cons w ws =>
    rw [hw] at hc
    have hmem : w ∈ words (t.takeWhile (· != '\x00')) := hw ▸ List.mem_cons_self
    have hkept := List.mem_takeWhile_imp ((infix_of_mem_words hmem).subset hc)
    exact ⟨(isWord_of_mem hmem).solid c hc, by simpa using hkept⟩

/-- **A target is shown** exactly when what it leaves without its mark ends nothing. -/
theorem clearDeleted_iff {t : Text} : clearDeleted (t.takeWhile (· != '\x00')) = undeleted t ↔
    (∀ c ∈ undeleted t, isspace c = false ∧ c ≠ '\x00') ∧ t ≠ deletedMark := by
  constructor
  · intro h
    refine ⟨h ▸ clearDeleted_chars, ?_⟩
    rintro rfl
    exact absurd h (by decide)
  · intro ⟨hplain, hne⟩
    by_cases hmark : deletedMark <:+ t
    case pos =>
      obtain ⟨u, rfl⟩ := hmark
      rw [undeleted_append] at hplain ⊢
      exact clearDeleted_mark hplain fun hnil => hne (by rw [hnil, List.nil_append])
    case neg =>
      rw [undeleted_of_not hmark] at hplain ⊢
      exact clearDeleted_plain hplain

/-! ### Links -/

variable {sys : Sys} {path : Text}

/-- The name of an entry. -/
theorem entry_shows (sys : Sys) (path fd : Text) :
    Shows path (sys.readlink path) (entry sys path fd).name ↔ Plain (sys.readlink path) := by
  show Shows path _ (clearDeleted (safeReadlink sys path).1) ↔ _
  cases h : sys.readlink path with
  | ok target =>
    refine forall_congr' fun hlen => ?_
    have htake : target.take (bufSize - 1) = target := List.take_of_length_le (Nat.le_sub_one_of_lt hlen)
    rw [safeReadlink, h]
    show clearDeleted ((target.take (bufSize - 1)).takeWhile _) = _ ↔ _
    rw [htake]
    exact clearDeleted_iff
  | error errno =>
    refine ⟨fun hshows herr => ?_, fun hne herr => absurd herr hne⟩
    have hname := hshows herr
    rw [safeReadlink, h] at hname
    simp only [if_pos herr] at hname
    exact absurd (headD_words_iff.mp hname ' ' (by simp)) (by decide)

/-- **The names of links are what they should be exactly when they are plain.** -/
theorem shows_iff (sys : Sys) (pool : List Text) (path fd fdPath : Text) {names : List Text}
    (hnames : sys.readdir fdPath = some names) :
    (Shows path (sys.readlink path) (getSpecialFile sys pool path fd).1.name ↔ Plain (sys.readlink path)) ∧
      ∀ (i : Nat) link file, (numeric names)[i]? = some link → (iterateFd sys fdPath).1[i]? = some file →
        (Shows (fdLink fdPath link) (sys.readlink (fdLink fdPath link)) file.name ↔
          Plain (sys.readlink (fdLink fdPath link))) := by
  constructor
  · cases h : vanished sys path with
    | true =>
      rw [getSpecialFile_vanished pool fd h]
      unfold vanished at h
      cases hlink : sys.readlink path with
      | ok target => simp [hlink] at h
      | error errno =>
        have hne : errno ≠ eacces := by simpa [hlink] using h
        exact iff_of_true (fun herr => absurd herr hne) hne
    | false =>
      obtain ⟨err, -, heq⟩ := getSpecialFile_entry pool fd h
      rw [heq]
      exact entry_shows sys path fd
  · intro i link file hlink hfile
    rw [iterateFd_eq hnames] at hfile
    split at hfile
    · cases hfile
    · rw [List.getElem?_map, hlink] at hfile
      rw [← Option.some.inj hfile]
      exact entry_shows sys _ _

/-! ### Targets of a system -/

/-- Each link of the system is `answer`. -/
def linkSys (answer : Except Errno Text) : Sys where
  read _ := none
  readlink _ := answer
  stat _ _ _ := .ok ⟨0o100644, 10⟩
  getpwuid _ := none
  readdir _ := some ["0".toList]

theorem shows_deleted :
    Shows "/proc/1/exe".toList (.ok "/bin/cat (deleted)".toList) (getSpecialFile
        (linkSys (.ok "/bin/cat (deleted)".toList)) [] "/proc/1/exe".toList "txt".toList).1.name ∧
      ∀ file, (iterateFd (linkSys (.ok "/bin/cat (deleted)".toList)) "/proc/1/fd".toList).1[0]? = some file →
        Shows "/proc/1/fd/0".toList (.ok "/bin/cat (deleted)".toList) file.name := by
  have hchars : (undeleted "/bin/cat (deleted)".toList).all (fun c => !isspace c && c != '\x00') = true := by
    decide
  have hplain : Plain (.ok "/bin/cat (deleted)".toList) := by
    refine fun _ => ⟨fun c hc => ?_, by decide⟩
    simpa using List.all_eq_true.mp hchars c hc
  obtain ⟨hspecial, hfd⟩ := shows_iff (linkSys (.ok "/bin/cat (deleted)".toList)) [] "/proc/1/exe".toList
    "txt".toList "/proc/1/fd".toList rfl
  exact ⟨hspecial.mpr hplain, fun file hfile => (hfd 0 "0".toList file rfl hfile).mpr hplain⟩

/-- A blank ends the name. -/
theorem shows_blank :
    (getSpecialFile (linkSys (.ok "/tmp/my file".toList)) [] "/proc/1/cwd".toList "cwd".toList).1.name =
        "/tmp/my".toList ∧
      ¬ Shows "/proc/1/cwd".toList (.ok "/tmp/my file".toList) (getSpecialFile
        (linkSys (.ok "/tmp/my file".toList)) [] "/proc/1/cwd".toList "cwd".toList).1.name := by
  have hname : (getSpecialFile (linkSys (.ok "/tmp/my file".toList)) [] "/proc/1/cwd".toList
      "cwd".toList).1.name = "/tmp/my".toList := by decide +kernel
  refine ⟨hname, fun hshows => ?_⟩
  rw [hname] at hshows
  exact absurd (hshows (by decide)) (by decide +kernel)

end Apue.Lsof

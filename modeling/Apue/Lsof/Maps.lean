import Apue.Keyed.Firsts
import Apue.Lsof.Entries

/-! The mapped files of a process.

A file is a device and an inode, and each should be listed once. `getMaps` knows a file by the
inode alone and reads a path up to its first blank, so that `lists_iff`: a process is listed as
it should be exactly when no inode number stands for files on different devices and no path to
list has a blank. -/
namespace Apue.Lsof
open CLib Keyed

/-! ### Lines of `maps` -/

/-- A line of `maps`. -/
structure MapLine where
  range : Text
  perms : Text
  offset : Text
  dev : Text
  inode : Nat
  /-- The blanks before the path, but for one. -/
  blanks : Nat
  path : Text
  deleted : Bool
  isWords : ∀ w ∈ [range, perms, offset, dev], IsWord w
  path_line : '\n' ∉ path
  named : deleted = true → path ≠ []

namespace MapLine

def tail (l : MapLine) : Text := l.path ++ if l.deleted then " (deleted)".toList else []

def text (l : MapLine) : Text :=
  l.range ++ ' ' :: (l.perms ++ ' ' :: (l.offset ++ ' ' :: (l.dev ++ ' ' ::
    (decimal l.inode ++ ' ' :: (List.replicate l.blanks ' ' ++ l.tail)))))

/-- The file, as a device and an inode. -/
def id (l : MapLine) : Text × Nat := (l.dev, l.inode)

/-- What the source knows a file by. -/
def node (l : MapLine) : Text := decimal l.inode

end MapLine

/-- The content of `maps`. -/
def mapsText (ls : List MapLine) : Text := ls.flatMap fun l => l.text ++ ['\n']

/-- The lines that map a file. -/
def mapped (ls : List MapLine) : List MapLine := ls.filter fun l => decide (l.inode ≠ 0)

/-! ### What should be listed -/

/-- What a row says about a mapped file. -/
structure Listed where
  node : Text
  name : Text
  deleted : Bool
  deriving DecidableEq, Repr

def File.listed (f : File) : Listed := ⟨f.node, f.name, decide (f.type = "DEL".toList)⟩

def MapLine.listed (l : MapLine) : Listed := ⟨l.node, l.path, l.deleted⟩

/-- The lines to list: the first of each file, without the executable. -/
def listing (exe : Text × Nat) (ls : List MapLine) : List MapLine := firsts MapLine.id [exe] (mapped ls)

/-- Every mapped file but the executable is to be listed, once. -/
theorem listing_ids (exe : Text × Nat) (ls : List MapLine) : ((listing exe ls).map MapLine.id).Nodup ∧
    ∀ f, f ∈ (listing exe ls).map MapLine.id ↔ f ∈ (mapped ls).map MapLine.id ∧ f ≠ exe := by
  refine ⟨nodup_firsts _ _ _, fun f => ?_⟩
  rw [listing, mem_firsts_key, List.mem_singleton]

/-- The mapped files of `p` are listed once each, in order, as their lines say. -/
def Lists (p : Process) (exe : Text × Nat) (ls : List MapLine) : Prop :=
  (p.files.filter fun f => decide (f.fd = "mem".toList)).map File.listed = (listing exe ls).map MapLine.listed

/-- No inode number stands for files on different devices. -/
def Unmixed (exe : Text × Nat) (ls : List MapLine) : Prop :=
  ∀ a ∈ exe :: (mapped ls).map MapLine.id, ∀ b ∈ exe :: (mapped ls).map MapLine.id, a.2 = b.2 → a = b

instance (exe : Text × Nat) (ls : List MapLine) : Decidable (Unmixed exe ls) :=
  inferInstanceAs (Decidable (∀ _ ∈ _, ∀ _ ∈ _, _ → _))

/-- Without blanks. -/
def Solid (path : Text) : Prop := ∀ c ∈ path, isspace c = false

instance (path : Text) : Decidable (Solid path) :=
  inferInstanceAs (Decidable (∀ c ∈ path, isspace c = false))

/-! ### Reading a line -/

theorem isWord_newline {w : Text} (h : IsWord w) : '\n' ∉ w := fun hmem =>
  absurd (h.solid _ hmem) (by decide)

theorem newline_blank {w cs : Text} (hw : '\n' ∉ w) (hcs : '\n' ∉ cs) : '\n' ∉ w ++ ' ' :: cs := by
  rw [List.mem_append, List.mem_cons]
  exact not_or.mpr ⟨hw, not_or.mpr ⟨by decide, hcs⟩⟩

theorem MapLine.text_line (l : MapLine) : '\n' ∉ l.text := by
  have hwords : ∀ w ∈ [l.range, l.perms, l.offset, l.dev], '\n' ∉ w := fun w hw =>
    isWord_newline (l.isWords w hw)
  simp only [List.forall_mem_cons] at hwords
  obtain ⟨hrange, hperms, hoffset, hdev, -⟩ := hwords
  have htail : '\n' ∉ l.tail := by
    rw [MapLine.tail, List.mem_append]
    refine not_or.mpr ⟨l.path_line, ?_⟩
    cases l.deleted <;> decide
  have hpath : '\n' ∉ List.replicate l.blanks ' ' ++ l.tail := by
    rw [List.mem_append]
    exact not_or.mpr ⟨fun h => absurd (List.eq_of_mem_replicate h) (by decide), htail⟩
  exact newline_blank hrange (newline_blank hperms (newline_blank hoffset (newline_blank hdev
    (newline_blank (isWord_newline (decimal_isWord _)) hpath))))

theorem MapLine.words_text (l : MapLine) : words l.text =
    l.range :: l.perms :: l.offset :: l.dev :: decimal l.inode :: words l.tail := by
  have hwords := l.isWords
  simp only [List.forall_mem_cons] at hwords
  obtain ⟨hrange, hperms, hoffset, hdev, -⟩ := hwords
  rw [MapLine.text, words_cons hrange rfl, words_cons hperms rfl, words_cons hoffset rfl,
    words_cons hdev rfl, words_cons (decimal_isWord _) rfl, words_blanks]

/-! The step at each word: the words before the inode and after the mark change nothing. -/

section Next
variable {m : MapWords} (w : Text)

theorem next_other (h4 : m.i ≠ 4) (h5 : m.i ≠ 5) (h6 : m.i ≠ 6) : m.next w = { m with i := m.i + 1 } := by
  rw [MapWords.next, if_neg (fun h => h4 h.1), if_neg h5, if_neg (fun h => h6 h.1)]

theorem next_inode (h4 : m.i = 4) : m.next w =
    if w ≠ "0".toList then { m with i := 5, isFile := true, node := w } else { m with i := 5 } := by
  by_cases hw : w = "0".toList
  · rw [MapWords.next, if_neg (fun h => h.2 hw), if_neg (by omega), if_neg (fun h => by omega),
      if_neg (fun h => h hw), h4]
  · rw [MapWords.next, if_pos ⟨h4, hw⟩, if_pos hw, h4]

theorem next_name (h5 : m.i = 5) : m.next w = { m with i := 6, name := w } := by
  rw [MapWords.next, if_neg (fun h => by omega), if_pos h5, h5]

theorem next_mark (h6 : m.i = 6) : m.next w =
    if w = "(deleted)".toList then { m with i := 7, isDeleted := true } else { m with i := 7 } := by
  by_cases hw : w = "(deleted)".toList
  · rw [MapWords.next, if_neg (fun h => by omega), if_neg (by omega), if_pos ⟨h6, hw⟩, if_pos hw, h6]
  · rw [MapWords.next, if_neg (fun h => by omega), if_neg (by omega), if_neg (fun h => hw h.2),
      if_neg hw, h6]

end Next

theorem foldl_next_late (ws : List Text) {m : MapWords} (h : 7 ≤ m.i) :
    ws.foldl MapWords.next m = { m with i := m.i + ws.length } := by
  induction ws generalizing m with
  | nil => rfl
  | cons w ws ih =>
    rw [List.foldl_cons, next_other w (by omega) (by omega) (by omega), ih (Nat.le_succ_of_le h),
      List.length_cons]
    simp only [Nat.add_right_comm, Nat.add_assoc]

/-- What the loop has found before the path. -/
def beforePath (l : MapLine) : MapWords :=
  if l.inode ≠ 0 then { i := 5, isFile := true, node := decimal l.inode } else { i := 5 }

theorem mapWords_text (l : MapLine) :
    mapWords l.text = (words l.tail).foldl MapWords.next (beforePath l) := by
  have hzero : decimal l.inode ≠ "0".toList ↔ l.inode ≠ 0 := decimal_ne_zero
  rw [mapWords, l.words_text]
  simp only [List.foldl_cons]
  rw [next_other l.range (by decide) (by decide) (by decide),
    next_other l.perms (by decide) (by decide) (by decide),
    next_other l.offset (by decide) (by decide) (by decide),
    next_other l.dev (by decide) (by decide) (by decide), next_inode _ rfl, beforePath]
  simp only [hzero]

/-- What the words of the path and the mark are taken for. -/
theorem foldl_next_path (ws : List Text) (isFile : Bool) (node : Text) :
    ∃ n, ws.foldl MapWords.next { i := 5, isFile, node } =
      { i := n, isFile, node, name := ws.headD [],
        isDeleted := decide (ws[1]? = some "(deleted)".toList) } := by
  rcases ws with _ | ⟨v, _ | ⟨w, ws⟩⟩
  · exact ⟨5, rfl⟩
  · refine ⟨6, ?_⟩
    rw [List.foldl_cons, next_name v rfl]
    rfl
  · refine ⟨7 + ws.length, ?_⟩
    have hmark : decide ((v :: w :: ws)[1]? = some "(deleted)".toList) = decide (w = "(deleted)".toList) :=
      decide_eq_decide.mpr Option.some_inj
    rw [List.foldl_cons, List.foldl_cons, next_name v rfl, next_mark w rfl, hmark]
    by_cases hw : w = "(deleted)".toList
    · rw [if_pos hw, foldl_next_late ws (Nat.le_refl 7), decide_eq_true hw]
      rfl
    · rw [if_neg hw, foldl_next_late ws (Nat.le_refl 7), decide_eq_false hw]
      rfl

theorem mapWords_file {l : MapLine} (h : l.inode ≠ 0) : ∃ n, mapWords l.text =
    { i := n, isFile := true, node := decimal l.inode, name := (words l.tail).headD [],
      isDeleted := decide ((words l.tail)[1]? = some "(deleted)".toList) } := by
  rw [mapWords_text, beforePath, if_pos h]
  exact foldl_next_path _ _ _

theorem mapWords_noFile {l : MapLine} (h : l.inode = 0) : (mapWords l.text).isFile = false := by
  rw [mapWords_text, beforePath, if_neg (not_not.mpr h)]
  obtain ⟨n, hn⟩ := foldl_next_path (words l.tail) false []
  rw [hn]

/-- A path without blanks is read whole, and its mark is seen. -/
theorem words_tail_solid {l : MapLine} (h : Solid l.path) : (words l.tail).headD [] = l.path ∧
    (((words l.tail)[1]? = some "(deleted)".toList) ↔ l.deleted = true) := by
  have hmark : IsWord "(deleted)".toList := by decide
  by_cases hpath : l.path = []
  case pos =>
    have hdeleted : l.deleted = false := Bool.eq_false_iff.mpr fun hd => l.named hd hpath
    rw [MapLine.tail, hpath, hdeleted]
    exact ⟨rfl, iff_of_false nofun nofun⟩
  case neg =>
    have hword : IsWord l.path := ⟨hpath, h⟩
    cases hdeleted : l.deleted with
    | false =>
      have htail : l.tail = l.path := by
        rw [MapLine.tail, hdeleted]
        exact List.append_nil _
      rw [htail, words_self hword]
      exact ⟨rfl, iff_of_false nofun nofun⟩
    | true =>
      have htail : l.tail = l.path ++ ' ' :: "(deleted)".toList := by
        rw [MapLine.tail, hdeleted]
        rfl
      rw [htail, words_cons hword rfl, words_self hmark]
      exact ⟨rfl, iff_of_true rfl rfl⟩

/-- A path with a blank is not read whole. -/
theorem headD_words_ne {path : Text} (h : ¬ Solid path) (cs : Text) : (words cs).headD [] ≠ path := by
  rintro rfl
  refine h ?_
  cases hw : words cs with
  | nil => exact nofun
  | cons w ws => exact (isWord_of_mem (hw ▸ List.mem_cons_self)).solid

/-! ### The loop -/

theorem getFromStat_type {sys : Sys} {path : Text} {through : Bool} {err : Int} :
    (getFromStat sys path .type through err).1 ≠ "DEL".toList := by
  unfold getFromStat
  split
  · exact show "unknown".toList ≠ "DEL".toList by decide
  · show typeOf _ ≠ _
    unfold typeOf
    repeat' split
    all_goals decide

/-- The file that is listed for a line. -/
def mapFile (sys : Sys) (line : Text) : File :=
  let m := mapWords line
  { fd := "mem".toList
    type := if m.isDeleted then "DEL".toList else (getFromStat sys m.name .type false 0).1
    node := m.node
    name := m.name }

/-- A line that maps a file, which no error of `stat` ends the loop at. -/
theorem getMapsLoop_file {sys : Sys} {line : Text} {rest : List Text} {files : List File} {err : Int}
    {pool : List Text} (hfile : (mapWords line).isFile = true) (herr : err ≠ 1) :
    ∃ err', err' ≠ 1 ∧ getMapsLoop sys (line :: rest) files err pool =
      if (mapWords line).node ∈ pool then getMapsLoop sys rest files err' pool
      else getMapsLoop sys rest (files ++ [mapFile sys line]) err' ((mapWords line).node :: pool) := by
  rw [getMapsLoop, mapFile]
  generalize mapWords line = m at hfile ⊢
  cases hdeleted : m.isDeleted with
  | true =>
    refine ⟨err, herr, ?_⟩
    simp [hfile]
  | false =>
    have herr' : (getFromStat sys m.name .type false err).2 ≠ 1 := getFromStat_err herr
    have htype := getFromStat_fst sys m.name .type false err 0
    refine ⟨_, herr', ?_⟩
    rw [if_neg (not_not.mpr hfile), if_neg Bool.false_ne_true, if_neg Bool.false_ne_true, ← htype]
    exact if_neg fun h => herr' h.2

/-- The loop keeps the first line of each inode that is not in the pool. -/
theorem getMapsLoop_firsts (sys : Sys) (ls : List MapLine) (files : List File) {err : Int}
    (herr : err ≠ 1) (pool : List Text) :
    ∃ err' pool', err' ≠ 1 ∧ getMapsLoop sys (ls.map MapLine.text) files err pool =
      (files ++ (firsts MapLine.node pool (mapped ls)).map (fun l => mapFile sys l.text),
        err', pool') := by
  induction ls generalizing files err pool with
  | nil => exact ⟨err, pool, herr, by simp [getMapsLoop, mapped, firsts]⟩
  | cons l ls ih =>
    by_cases hinode : l.inode = 0
    case pos =>
      have hmapped : mapped (l :: ls) = mapped ls := List.filter_cons_of_neg (by simp [hinode])
      rw [List.map_cons, getMapsLoop, hmapped, mapWords_noFile hinode]
      exact ih files herr pool
    case neg =>
      have hmapped : mapped (l :: ls) = l :: mapped ls := List.filter_cons_of_pos (by simp [hinode])
      obtain ⟨n, hm⟩ := mapWords_file hinode
      have hfile : (mapWords l.text).isFile = true := by rw [hm]
      have hnode : (mapWords l.text).node = l.node := by
        rw [hm]
        rfl
      obtain ⟨err', herr', hloop⟩ := getMapsLoop_file hfile herr
      rw [List.map_cons, hloop, hnode, hmapped]
      by_cases hpool : l.node ∈ pool
      · rw [if_pos hpool, firsts_cons_mem hpool]
        exact ih files herr' pool
      · rw [if_neg hpool, firsts_cons_notMem hpool, List.map_cons]
        obtain ⟨err'', pool', herr'', hih⟩ := ih (files ++ [mapFile sys l.text]) herr' (l.node :: pool)
        exact ⟨err'', pool', herr'', by rw [hih, List.append_assoc]; rfl⟩

theorem getMaps_firsts {sys : Sys} {path : Text} {ls : List MapLine} (h : sys.read path = some (mapsText ls))
    (pool : List Text) : ∃ err' pool', err' ≠ 1 ∧ getMaps sys pool path =
      ((firsts MapLine.node pool (mapped ls)).map (fun l => mapFile sys l.text), err', pool') := by
  have hlines : lines (mapsText ls) = ls.map MapLine.text := by
    have hflat : mapsText ls = (ls.map MapLine.text).flatMap (· ++ ['\n']) := by
      rw [List.flatMap_map]
      rfl
    rw [hflat, lines_flatMap]
    intro t ht
    obtain ⟨l, -, rfl⟩ := List.mem_map.mp ht
    exact l.text_line
  rw [getMaps, h]
  simp only [hlines]
  exact getMapsLoop_firsts sys ls [] (by decide) pool

/-! ### The other files -/

/-- Where the link can be read, or may not be. -/
theorem getSpecialFile_file {sys : Sys} {path : Text} (fd : Text) (pool : List Text)
    (hlink : ∀ errno, sys.readlink path = .error errno → errno = eacces) :
    (getSpecialFile sys pool path fd).1.fd = fd ∧ (getSpecialFile sys pool path fd).2.1 ≠ 1 ∧
      (getSpecialFile sys pool path fd).2.2 =
        if fd = "txt".toList then (getFromStat sys path .node true 0).1 :: pool else pool := by
  have hvanished : vanished sys path = false := by
    unfold vanished
    split
    · rfl
    · next errno h => simp [hlink errno h]
  obtain ⟨err, herr, heq⟩ := getSpecialFile_entry pool fd hvanished
  rw [heq]
  exact ⟨rfl, herr, rfl⟩

/-- What a scan of `pidPath` is promised up to its mapped files: the executable is `exe`, and
`maps` has the lines `ls`. -/
structure Scanned (sys : Sys) (pidPath : Text) (exe : Text × Nat) (ls : List MapLine) : Prop where
  command : ∃ content, sys.read (pidPath ++ "/comm".toList) = some content
  user : ∃ user, getUser sys pidPath = .ok (user, 0)
  links : ∀ p ∈ specialFds, ∀ errno,
    sys.readlink (pidPath ++ "/".toList ++ p.2) = .error errno → errno = eacces
  exe : ∃ st, sys.stat .node true (pidPath ++ "/".toList ++ "exe".toList) = .ok st ∧
    st.st_ino.toNat = exe.2
  maps : sys.read (pidPath ++ "/maps".toList) = some (mapsText ls)

variable {sys : Sys} {pidPath : Text} {exe : Text × Nat} {ls : List MapLine}

theorem specialLoop_cons {filename fd : Text} {rest : List (Text × Text)} {files : List File} {err : Int}
    {pool : List Text}
    (h : (getSpecialFile sys pool (pidPath ++ "/".toList ++ filename) fd).2.1 ≠ 1) :
    specialLoop sys pidPath ((fd, filename) :: rest) files err pool =
      specialLoop sys pidPath rest
        (files ++ [(getSpecialFile sys pool (pidPath ++ "/".toList ++ filename) fd).1])
        (getSpecialFile sys pool (pidPath ++ "/".toList ++ filename) fd).2.1
        (getSpecialFile sys pool (pidPath ++ "/".toList ++ filename) fd).2.2 := by
  rw [specialLoop]
  exact if_neg h

theorem specialLoop_files (h : Scanned sys pidPath exe ls) (err : Int) :
    ∃ files err', err' ≠ 1 ∧ files.map File.fd = specialFds.map Prod.fst ∧
      specialLoop sys pidPath specialFds [] err [] = (files, err', [decimal exe.2]) := by
  have hlinks := h.links
  simp only [specialFds, List.forall_mem_cons] at hlinks
  obtain ⟨hcwd, hroot, hexe, -⟩ := hlinks
  obtain ⟨st, hstat, hino⟩ := h.exe
  have hnode : (getFromStat sys (pidPath ++ "/".toList ++ "exe".toList) .node true 0).1 = decimal exe.2 := by
    rw [getFromStat, hstat, ← hino]
  obtain ⟨hfd₁, herr₁, hpool₁⟩ := getSpecialFile_file "cwd".toList [] hcwd
  rw [if_neg (by decide)] at hpool₁
  obtain ⟨hfd₂, herr₂, hpool₂⟩ := getSpecialFile_file "rtd".toList [] hroot
  rw [if_neg (by decide)] at hpool₂
  obtain ⟨hfd₃, herr₃, hpool₃⟩ := getSpecialFile_file "txt".toList [] hexe
  rw [if_pos rfl, hnode] at hpool₃
  rw [specialFds, specialLoop_cons herr₁, hpool₁, specialLoop_cons herr₂, hpool₂,
    specialLoop_cons herr₃, hpool₃, specialLoop]
  refine ⟨_, _, herr₃, ?_, rfl⟩
  simp only [List.map_append, List.map_cons, List.map_nil, hfd₁, hfd₂, hfd₃]
  rfl

theorem iterateFd_fd (sys : Sys) (fdPath : Text) : ∀ f ∈ (iterateFd sys fdPath).1, f.fd ≠ "mem".toList := by
  intro f hf
  obtain ⟨link, hlink, rfl⟩ := mem_iterateFd hf
  exact fdEntry_fd_ne hlink (by decide) (by decide)

/-! ### The listing -/

/-- A scan that is promised what it needs lists the first line of each inode. -/
theorem iteratePid_mem (pool : List Text) (pid : Text) (h : Scanned sys pidPath exe ls) :
    ∃ p pool', iteratePid sys pool pidPath { pid } = .ok (0, p, pool') ∧
      (p.files.filter fun f => decide (f.fd = "mem".toList)) =
        (firsts MapLine.node [decimal exe.2] (mapped ls)).map fun l => mapFile sys l.text := by
  obtain ⟨content, hcommand⟩ := h.command
  obtain ⟨user, huser⟩ := h.user
  obtain ⟨specials, err, herr, hspecials, hspecial⟩ := specialLoop_files h 0
  obtain ⟨err', pool', herr', hmaps⟩ := getMaps_firsts h.maps [decimal exe.2]
  have hnone : ∀ {files : List File}, (∀ f ∈ files, f.fd ≠ "mem".toList) →
      (files.filter fun f => decide (f.fd = "mem".toList)) = [] := fun hfiles =>
    List.filter_eq_nil_iff.mpr fun f hf => by simpa using hfiles f hf
  have hspecials' : ∀ f ∈ specials, f.fd ≠ "mem".toList := by
    intro f hf
    have hmem : f.fd ∈ specialFds.map Prod.fst := hspecials ▸ List.mem_map_of_mem hf
    revert hmem
    generalize f.fd = fd
    revert fd
    decide
  have hscan : iteratePid sys pool pidPath { pid } = .ok (0,
      { command := (lines content).headD [], pid, user, files := specials ++
          (firsts MapLine.node [decimal exe.2] (mapped ls)).map (fun l => mapFile sys l.text) ++
          (iterateFd sys (pidPath ++ "/fd".toList)).1 }, pool') := by
    have hcomm : getCommand sys pidPath = ((lines content).headD [], 0) := by rw [getCommand, hcommand]
    have hzero : ¬ (0 : Int) = 1 := by decide
    rw [iteratePid, hcomm, huser]
    simp only [bind, Except.bind, pure, Except.pure, if_neg hzero, hspecial, if_neg herr, hmaps, if_neg herr']
  refine ⟨_, pool', hscan, ?_⟩
  rw [List.filter_append, List.filter_append, hnone hspecials', hnone (iterateFd_fd _ _),
    List.nil_append, List.append_nil, List.filter_eq_self]
  intro f hf
  obtain ⟨l, -, rfl⟩ := List.mem_map.mp hf
  exact decide_eq_true rfl

theorem mapFile_listed (sys : Sys) {l : MapLine} (h : l.inode ≠ 0) : (mapFile sys l.text).listed =
    ⟨l.node, (words l.tail).headD [], decide ((words l.tail)[1]? = some "(deleted)".toList)⟩ := by
  obtain ⟨n, hm⟩ := mapWords_file h
  rw [File.listed, mapFile, hm]
  generalize decide ((words l.tail)[1]? = some "(deleted)".toList) = deleted
  cases deleted with
  | true => rfl
  | false => exact congrArg (Listed.mk l.node _) (decide_eq_false getFromStat_type)

/-- A line is listed as it should be exactly when its path has no blank. -/
theorem mapFile_listed_iff (sys : Sys) {l : MapLine} (h : l.inode ≠ 0) :
    (mapFile sys l.text).listed = l.listed ↔ Solid l.path := by
  rw [mapFile_listed sys h]
  constructor
  · intro heq
    by_contra hsolid
    exact headD_words_ne hsolid l.tail (congrArg Listed.name heq)
  · intro hsolid
    obtain ⟨hname, hdeleted⟩ := words_tail_solid hsolid
    have hmark : decide ((words l.tail)[1]? = some "(deleted)".toList) = l.deleted := by
      simp only [hdeleted, Bool.decide_eq_true]
    rw [MapLine.listed, hname, hmark]

theorem unmixed_iff : Unmixed exe ls ↔
    Set.InjOn (fun id : Text × Nat => decimal id.2) {b | b ∈ [exe] ∨ b ∈ (mapped ls).map MapLine.id} := by
  have hmem : ∀ b, b ∈ exe :: (mapped ls).map MapLine.id ↔
      b ∈ [exe] ∨ b ∈ (mapped ls).map MapLine.id := fun b => List.mem_append (s := [exe])
  constructor
  · intro h a ha b hb heq
    exact h a ((hmem a).mpr ha) b ((hmem b).mpr hb) (decimal_inj.mp heq)
  · intro h a ha b hb heq
    exact h ((hmem a).mp ha) ((hmem b).mp hb) (congrArg decimal heq)

/-- **Each mapped file is listed once, as its line says**, exactly when no inode number stands for
files on different devices and no path to list has a blank. -/
theorem lists_iff (pool : List Text) (pid : Text) (h : Scanned sys pidPath exe ls) :
    ∃ p pool', iteratePid sys pool pidPath { pid } = .ok (0, p, pool') ∧
      (Lists p exe ls ↔ Unmixed exe ls ∧ ∀ l ∈ listing exe ls, Solid l.path) := by
  obtain ⟨p, pool', hscan, hmem⟩ := iteratePid_mem pool pid h
  refine ⟨p, pool', hscan, ?_⟩
  have hinode : ∀ {β : Type} [DecidableEq β] {key : MapLine → β} {seen : List β} {l : MapLine},
      l ∈ firsts key seen (mapped ls) → l.inode ≠ 0 := fun hl =>
    of_decide_eq_true (List.mem_filter.mp ((firsts_sublist _ _ _).subset hl)).2
  have hseen : Set.InjOn (fun id : Text × Nat => decimal id.2) {b | b ∈ [exe]} := by
    intro a ha b hb _
    exact (List.mem_singleton.mp ha).trans (List.mem_singleton.mp hb).symm
  have hsame : Unmixed exe ls → firsts MapLine.node [decimal exe.2] (mapped ls) = listing exe ls :=
    fun hunmixed => firsts_of_injOn (unmixed_iff.mp hunmixed)
  have hlists : Lists p exe ls ↔ (firsts MapLine.node [decimal exe.2] (mapped ls)).map
      (fun l => (mapFile sys l.text).listed) = (listing exe ls).map MapLine.listed := by
    rw [Lists, hmem, List.map_map]
    rfl
  have hall : (∀ l ∈ listing exe ls, (mapFile sys l.text).listed = l.listed) ↔
      ∀ l ∈ listing exe ls, Solid l.path :=
    forall₂_congr fun l hl => mapFile_listed_iff sys (hinode hl)
  rw [hlists]
  constructor
  · intro heq
    have hunmixed : Unmixed exe ls := by
      have hnodes := congrArg (List.map Listed.node) heq
      rw [List.map_map, List.map_map] at hnodes
      rw [unmixed_iff, ← firsts_coarse hseen]
      refine Eq.trans (List.map_congr_left fun l hl => ?_) hnodes
      rw [Function.comp_apply, Function.comp_apply, mapFile_listed sys (hinode hl)]
      rfl
    rw [hsame hunmixed] at heq
    exact ⟨hunmixed, hall.mp (List.map_inj_left.mp heq)⟩
  · rintro ⟨hunmixed, hsolid⟩
    rw [hsame hunmixed]
    exact List.map_inj_left.mpr (hall.mpr hsolid)

/-! ### Two scans -/

/-- A process that can be scanned. -/
def sampleSys (ls : List MapLine) : Sys where
  read path :=
    if path = "/proc/1/comm".toList then some "cat\n".toList
    else if path = "/proc/1/status".toList then some "Name:\tcat\nUid:\t0\n".toList
    else if path = "/proc/1/maps".toList then some (mapsText ls)
    else none
  readlink _ := .ok "/bin/cat".toList
  stat _ _ _ := .ok ⟨0o100644, 10⟩
  getpwuid _ := some "root".toList
  readdir _ := none

theorem sampleSys_scanned (ls : List MapLine) :
    Scanned (sampleSys ls) "/proc/1".toList ("08:01".toList, 10) ls where
  command := ⟨_, rfl⟩
  user := ⟨"root".toList, rfl⟩
  links _ _ _ h := nomatch h
  exe := ⟨_, rfl, rfl⟩
  maps := rfl

def libLine : MapLine where
  range := "7f0000000000-7f0000001000".toList
  perms := "r-xp".toList
  offset := "00000000".toList
  dev := "08:01".toList
  inode := 5
  blanks := 20
  path := "/lib/libc.so".toList
  deleted := false
  isWords := by decide
  path_line := by decide
  named := nofun

/-- Inode 5 of another device. -/
def mntLine : MapLine :=
  { libLine with
    dev := "08:02".toList
    path := "/mnt/data".toList
    isWords := by decide
    path_line := by decide
    named := by decide }

theorem lists_libc : ∃ p pool', iteratePid (sampleSys [libLine, libLine]) [] "/proc/1".toList
    { pid := ['1'] } = .ok (0, p, pool') ∧ Lists p ("08:01".toList, 10) [libLine, libLine] := by
  obtain ⟨p, pool', hscan, hlists⟩ := lists_iff [] ['1'] (sampleSys_scanned [libLine, libLine])
  exact ⟨p, pool', hscan, hlists.mpr (by decide +kernel)⟩

/-- The file on the other device is lost. -/
theorem lists_lost : ∃ p pool', iteratePid (sampleSys [libLine, mntLine]) [] "/proc/1".toList
    { pid := ['1'] } = .ok (0, p, pool') ∧ ¬ Lists p ("08:01".toList, 10) [libLine, mntLine] := by
  obtain ⟨p, pool', hscan, hmem⟩ := iteratePid_mem [] ['1'] (sampleSys_scanned [libLine, mntLine])
  refine ⟨p, pool', hscan, ?_⟩
  rw [Lists, hmem]
  decide +kernel

end Apue.Lsof

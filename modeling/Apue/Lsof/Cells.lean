import Apue.Lsof.Scan

/-! What a scan puts into the cells of the table.

Where names and lines are short, each cell is one line and short enough for an `int`. -/
namespace Apue.Lsof
open CLib

/-- What the system promises of its texts. -/
structure Bounded (sys : Sys) : Prop where
  lines : ∀ path content, sys.read path = some content → ∀ l ∈ lines content, l.length < 2 ^ 29
  names : ∀ path names, sys.readdir path = some names → ∀ name ∈ names, name.length < 256
  users : ∀ uid name, sys.getpwuid uid = some name → name.length < 2 ^ 29 ∧ '\n' ∉ name

structure Cell (t : Text) : Prop where
  short : t.length + 2 < 2 ^ 31
  line : '\n' ∉ t

structure FileCells (f : File) : Prop where
  fd : Cell f.fd
  type : Cell f.type
  node : Cell f.node
  name : Cell f.name

structure ProcessCells (p : Process) : Prop where
  command : Cell p.command
  pid : Cell p.pid
  user : Cell p.user
  files : ∀ f ∈ p.files, FileCells f

theorem cell_nil : Cell [] := ⟨by decide, nofun⟩

theorem cell_of_length {t : Text} {n : Nat} (hn : n ≤ 2 ^ 30) (h : t.length ≤ n) (hline : '\n' ∉ t) : Cell t :=
  ⟨by omega, hline⟩

theorem fileCells_default : FileCells {} := ⟨cell_nil, cell_nil, cell_nil, cell_nil⟩

theorem cell_word {w : Text} (h : IsWord w) (hlen : w.length ≤ 2 ^ 30) : Cell w :=
  cell_of_length (Nat.le_refl _) hlen fun hmem => absurd (h.solid _ hmem) (by decide)

/-- The first words of a short text. -/
theorem cell_words {cs : Text} (h : cs.length ≤ 2 ^ 30) {w : Text} (hw : w ∈ words cs) : Cell w :=
  cell_word (isWord_of_mem hw) (Nat.le_trans (infix_of_mem_words hw).length_le h)

theorem cell_headD {ls : List Text} (h : ∀ l ∈ ls, Cell l) : Cell (ls.headD []) := by
  cases ls with
  | nil => exact cell_nil
  | cons l ls => exact h l List.mem_cons_self

theorem clearDeleted_cell {t : Text} (h : t.length ≤ 2 ^ 30) : Cell (clearDeleted t) :=
  cell_headD fun _ hw => cell_words h hw

variable {sys : Sys} {path fd pidPath : Text} {err : Int}

theorem getCommand_cell (hsys : Bounded sys) : Cell (getCommand sys pidPath).1 := by
  unfold getCommand
  split
  · exact cell_nil
  · next content hread =>
    exact cell_headD fun l hl =>
      cell_of_length (by decide) (Nat.le_of_lt (hsys.lines _ _ hread l hl)) (newline_of_mem_lines hl)

theorem getUser_cell (hsys : Bounded sys) {user : Text} (h : getUser sys pidPath = .ok (user, err)) :
    Cell user := by
  unfold getUser at h
  cases hu : getUid sys pidPath with
  | error e => simp [hu, bind, Except.bind] at h
  | ok p =>
    obtain ⟨uid, err'⟩ := p
    simp only [hu, bind, Except.bind] at h
    split at h
    · cases h
      exact cell_nil
    · split at h
      · cases h
        exact cell_nil
      · next name hname =>
        cases h
        obtain ⟨hlen, hline⟩ := hsys.users _ _ hname
        exact cell_of_length (by decide) (Nat.le_of_lt hlen) hline

theorem typeOf_cell (mode : Nat) : Cell (typeOf mode) := by
  unfold typeOf
  repeat' split
  all_goals exact cell_of_length (by decide) (show _ ≤ 8 by decide) (by decide)

theorem modeOf_length (mode : Nat) : (modeOf mode).length ≤ 1 := by
  unfold modeOf
  repeat' split
  all_goals decide

theorem modeOf_line (mode : Nat) : '\n' ∉ modeOf mode := by
  unfold modeOf
  repeat' split
  all_goals decide

theorem decimal_cell (v : BitVec 64) : Cell (decimal v.toNat) := by
  refine cell_word (decimal_isWord _) ?_
  have hlen : (decimal v.toNat).length ≤ 20 :=
    (Nat.length_toDigits_le_iff (by decide) (by decide)).mpr (Nat.lt_trans v.isLt (by decide))
  omega

theorem getFromStat_cell (target : Target) (through : Bool) :
    Cell (getFromStat sys path target through err).1 := by
  unfold getFromStat
  split
  · cases target <;> exact cell_of_length (by decide) (show _ ≤ 8 by decide) (by decide)
  · next buf _ =>
    cases target with
    | type => exact typeOf_cell _
    | node => exact decimal_cell _
    | mode => exact cell_of_length (by decide) (modeOf_length _) (modeOf_line _)

theorem getFromStat_mode_length (sys : Sys) (path : Text) (through : Bool) (err : Int) :
    (getFromStat sys path .mode through err).1.length ≤ 1 := by
  unfold getFromStat
  split
  · exact show ([] : Text).length ≤ 1 by decide
  · exact modeOf_length _

theorem safeReadlink_length (sys : Sys) (path : Text) :
    (safeReadlink sys path).1.length ≤ path.length + 1024 := by
  unfold safeReadlink
  split
  · next target _ =>
    have htake : ((target.take (bufSize - 1)).takeWhile (· != '\x00')).length ≤ _ :=
      (List.takeWhile_sublist _).length_le
    have hlen := List.length_take_le (bufSize - 1) target
    have hsize : bufSize = 1024 := rfl
    show ((target.take (bufSize - 1)).takeWhile (· != '\x00')).length ≤ _
    omega
  · split
    · rw [List.length_append]
      exact Nat.add_le_add_left (by decide) _
    · exact Nat.zero_le _

theorem getSpecialFile_cells {pool : List Text} (hpath : path.length ≤ 2 ^ 30 - 1024) (hfd : Cell fd) :
    FileCells (getSpecialFile sys pool path fd).1 := by
  have hname : Cell (clearDeleted (safeReadlink sys path).1) := by
    have hlen := safeReadlink_length sys path
    exact clearDeleted_cell (by omega)
  simp only [getSpecialFile]
  split
  · exact fileCells_default
  split
  · exact fileCells_default
  split
  · exact fileCells_default
  · exact ⟨hfd, getFromStat_cell _ _, getFromStat_cell _ _, hname⟩

theorem specialLoop_cells {ps : List (Text × Text)} {files : List File} {pool : List Text}
    (hps : ∀ p ∈ ps, Cell p.1 ∧ pidPath.length + p.2.length ≤ 2 ^ 30 - 1025)
    (hfiles : ∀ f ∈ files, FileCells f) :
    ∀ f ∈ (specialLoop sys pidPath ps files err pool).1, FileCells f := by
  induction ps generalizing files err pool with
  | nil => exact hfiles
  | cons p ps ih =>
    obtain ⟨fd, filename⟩ := p
    obtain ⟨⟨hfd, hlen⟩, hps'⟩ := List.forall_mem_cons.mp hps
    have hpath : (pidPath ++ "/".toList ++ filename).length ≤ 2 ^ 30 - 1024 := by
      rw [List.length_append, List.length_append]
      have hslash : "/".toList.length = 1 := rfl
      simp only at hlen
      omega
    have hfiles' : ∀ f ∈ files ++ [(getSpecialFile sys pool (pidPath ++ "/".toList ++ filename) fd).1],
        FileCells f := by
      intro f hf
      rcases List.mem_append.mp hf with hf | hf
      · exact hfiles f hf
      · rw [List.mem_singleton.mp hf]
        exact getSpecialFile_cells hpath hfd
    simp only [specialLoop]
    split
    · exact hfiles'
    · exact ih hps' hfiles'

/-! ### Mapped files -/

theorem foldl_next_cells {ws : List Text} {m : MapWords} (hws : ∀ w ∈ ws, Cell w)
    (hm : Cell m.node ∧ Cell m.name) :
    Cell (ws.foldl MapWords.next m).node ∧ Cell (ws.foldl MapWords.next m).name := by
  induction ws generalizing m with
  | nil => exact hm
  | cons w ws ih =>
    obtain ⟨hw, hws'⟩ := List.forall_mem_cons.mp hws
    refine ih hws' ?_
    unfold MapWords.next
    dsimp only
    split
    · exact ⟨hw, hm.2⟩
    split
    · exact ⟨hm.1, hw⟩
    split
    · exact hm
    · exact hm

theorem getMapsLoop_cells {ls : List Text} {files : List File} {pool : List Text}
    (hls : ∀ l ∈ ls, l.length ≤ 2 ^ 30) (hfiles : ∀ f ∈ files, FileCells f) :
    ∀ f ∈ (getMapsLoop sys ls files err pool).1, FileCells f := by
  induction ls generalizing files err pool with
  | nil => exact hfiles
  | cons l ls ih =>
    obtain ⟨hl, hls'⟩ := List.forall_mem_cons.mp hls
    obtain ⟨hnode, hname⟩ : Cell (mapWords l).node ∧ Cell (mapWords l).name :=
      foldl_next_cells (fun w hw => cell_words hl hw) ⟨cell_nil, cell_nil⟩
    have hmem : Cell "mem".toList := cell_of_length (by decide) (show _ ≤ 8 by decide) (by decide)
    have hdel : Cell "DEL".toList := cell_of_length (by decide) (show _ ≤ 8 by decide) (by decide)
    have htype : Cell (if (mapWords l).isDeleted then ("DEL".toList, err)
        else getFromStat sys (mapWords l).name .type false err).1 := by
      split
      · exact hdel
      · exact getFromStat_cell _ _
    rw [getMapsLoop]
    generalize (if (mapWords l).isDeleted then ("DEL".toList, err)
      else getFromStat sys (mapWords l).name .type false err) = p at htype ⊢
    dsimp only
    split
    · exact ih hls' hfiles
    split
    · exact nofun
    split
    · exact ih hls' hfiles
    · refine ih hls' fun f hf => ?_
      rcases List.mem_append.mp hf with hf | hf
      · exact hfiles f hf
      · rw [List.mem_singleton.mp hf]
        exact ⟨hmem, htype, hnode, hname⟩

theorem getMaps_cells {pool : List Text} (hsys : Bounded sys) :
    ∀ f ∈ (getMaps sys pool path).1, FileCells f := by
  unfold getMaps
  split
  · exact nofun
  · next content hread =>
    exact getMapsLoop_cells (fun l hl => by
      have hlen := hsys.lines _ _ hread l hl
      omega) nofun

/-! ### Descriptors -/

theorem digit_line {link : Text} (h : isNumber link = true) : '\n' ∉ link := fun hmem =>
  absurd (List.all_eq_true.mp h _ hmem) (by decide)

theorem fdFile_cells {link : Text} {file : File} (hlink : isNumber link = true)
    (hpath : path.length ≤ 2 ^ 30 - 1024) (hlen : link.length < 256)
    (h : (fdFile sys path link err).1 = some file) : FileCells file := by
  have hmode : Cell (link ++ (getFromStat sys path .mode false err).1) := by
    refine cell_of_length (Nat.le_refl _) ?_ ?_
    · have hone := getFromStat_mode_length sys path false err
      rw [List.length_append]
      omega
    · rw [List.mem_append]
      exact not_or.mpr ⟨digit_line hlink, (getFromStat_cell _ _).line⟩
  have hname : Cell (clearDeleted (safeReadlink sys path).1) := by
    have hlen := safeReadlink_length sys path
    exact clearDeleted_cell (by omega)
  simp only [fdFile] at h
  repeat' split at h
  all_goals first | (cases h; done) | skip
  rw [← Option.some.inj h]
  exact ⟨hmode, getFromStat_cell _ _, getFromStat_cell _ _, hname⟩

theorem iterateFdLoop_cells {fdPath : Text} {names : List Text} {files : List File}
    (hnames : ∀ name ∈ names, name.length < 256) (hpath : fdPath.length ≤ 2 ^ 29 - 1025)
    (hfiles : ∀ f ∈ files, FileCells f) :
    ∀ f ∈ (iterateFdLoop sys fdPath names files err).1, FileCells f := by
  induction names generalizing files err with
  | nil => exact hfiles
  | cons link rest ih =>
    obtain ⟨hlen, hrest⟩ := List.forall_mem_cons.mp hnames
    rw [iterateFdLoop]
    by_cases hlink : isNumber link = true
    case neg =>
      rw [if_neg hlink]
      exact ih hrest hfiles
    case pos =>
      rw [if_pos hlink]
      split
      · exact nofun
      · next file err' heq =>
        refine ih hrest fun f hf => ?_
        rcases List.mem_append.mp hf with hf | hf
        · exact hfiles f hf
        · rw [List.mem_singleton.mp hf]
          have hlink' : (fdPath ++ "/".toList ++ link).length ≤ 2 ^ 30 - 1024 := by
            rw [List.length_append, List.length_append]
            have hslash : "/".toList.length = 1 := rfl
            omega
          have hfile : (fdFile sys (fdPath ++ "/".toList ++ link) link err).1 = some file := by rw [heq]
          exact fdFile_cells hlink hlink' hlen hfile

theorem iterateFd_cells {fdPath : Text} (hsys : Bounded sys) (hpath : fdPath.length ≤ 2 ^ 29 - 1025) :
    ∀ f ∈ (iterateFd sys fdPath).1, FileCells f := by
  unfold iterateFd
  split
  · exact nofun
  · next names hnames => exact iterateFdLoop_cells (hsys.names _ _ hnames) hpath nofun

/-! ### Processes -/

/-- **A scan fills cells**, also where it fails. -/
theorem iteratePid_cells {pool pool' : List Text} {pid : Text} {p : Process} (hsys : Bounded sys)
    (hpid : Cell pid) (hpath : pidPath.length ≤ 2 ^ 29 - 2048)
    (h : iteratePid sys pool pidPath { pid } = .ok (err, p, pool')) : ProcessCells p := by
  have hcommand : Cell (getCommand sys pidPath).1 := getCommand_cell hsys
  have hspecials : ∀ err pool, ∀ f ∈ (specialLoop sys pidPath specialFds [] err pool).1, FileCells f := by
    intro err pool
    refine specialLoop_cells ?_ nofun
    have hall : ∀ p ∈ specialFds, p.1.length ≤ 4 ∧ '\n' ∉ p.1 ∧ p.2.length ≤ 4 := by decide
    intro p hp
    obtain ⟨hfd, hline, hname⟩ := hall p hp
    exact ⟨cell_of_length (by decide) hfd hline, by omega⟩
  have hmaps : ∀ pool, ∀ f ∈ (getMaps sys pool (pidPath ++ "/maps".toList)).1, FileCells f :=
    fun pool => getMaps_cells hsys
  have hfds : ∀ f ∈ (iterateFd sys (pidPath ++ "/fd".toList)).1, FileCells f := by
    refine iterateFd_cells hsys ?_
    rw [List.length_append]
    have hfd : "/fd".toList.length = 3 := rfl
    omega
  simp only [iteratePid, bind, Except.bind, pure, Except.pure] at h
  split at h
  · cases h
    exact ⟨hcommand, hpid, cell_nil, nofun⟩
  split at h
  · cases h
  next _ r huser =>
  have huser' : Cell r.1 := getUser_cell hsys huser
  split at h
  · cases h
    exact ⟨hcommand, hpid, huser', nofun⟩
  split at h
  · cases h
    exact ⟨hcommand, hpid, huser', hspecials _ _⟩
  split at h
  · cases h
    exact ⟨hcommand, hpid, huser', hspecials _ _⟩
  · cases h
    refine ⟨hcommand, hpid, huser', fun f hf => ?_⟩
    rcases List.mem_append.mp hf with hf | hf
    · rcases List.mem_append.mp hf with hf | hf
      · exact hspecials _ _ f hf
      · exact hmaps _ f hf
    · exact hfds f hf

end Apue.Lsof

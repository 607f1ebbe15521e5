import Apue.Layout.Columns
import Apue.Lsof.Cells

/-! The table of `lsof`.

`maxlen` has the width of each column. `iterateProc` widens it for the rows that pass the
filter, in one traversal, and `output` prints those rows in another. -/
namespace Apue.Lsof
open CLib Layout

/-! ### The filter -/

/-- A regular expression: whether it is found in a text, and whether it matches it whole. -/
structure Regex where
  search : Text → Bool
  full : Text → Bool

structure Filter where
  command : Regex
  filename : Regex
  type : Regex

def Filter.filt (f : Filter) (command filename type : Text) : Bool :=
  f.command.search command && f.filename.search filename && f.type.full type

/-! ### Widths -/

abbrev Maxlen := Text → Int

def columns : List Text :=
  ["COMMAND".toList, "PID".toList, "USER".toList, "FD".toList, "TYPE".toList, "NODE".toList,
   "NAME".toList]

/-- Conversion of a size to `int`. -/
def intOf (size : Nat) : Int := (size : Int).bmod (2 ^ 32)

def initMaxlen (maxlen : Maxlen) : Maxlen :=
  columns.foldl (fun maxlen column => Function.update maxlen column (intOf column.length)) maxlen

/-- The cells of a row. -/
def cols (process : Process) (file : File) : List Text :=
  [process.command, process.pid, process.user, file.fd, file.type, file.node, file.name]

def updateMaxlen (f : Filter) (process : Process) (maxlen : Maxlen) : Maxlen :=
  process.files.foldl (fun maxlen file =>
    if f.filt process.command file.name file.type then
      (columns.zip ((cols process file).map fun cell => intOf cell.length)).foldl widen maxlen
    else maxlen) maxlen

/-! ### The processes -/

/-- How the program ends before its output. -/
inductive Halt where
  | exit (code : Int)
  | uncaught (e : StoiError)
  deriving DecidableEq, Repr

/-- What the loop over `/proc` changes. -/
structure Collected where
  processes : List Process := []
  maxlen : Maxlen
  pool : List Text := []

def iterateProcStep (sys : Sys) (f : Filter) (procPath : Text) (s : Collected) (pid : Text) :
    Except Halt Collected :=
  if isNumber pid then
    match iteratePid sys s.pool (procPath ++ "/".toList ++ pid) { pid } with
    | .error e => .error (.uncaught e)
    | .ok (err, process, pool) =>
      if err ≠ 1 then
        .ok ⟨s.processes ++ [process], updateMaxlen f process s.maxlen, pool⟩
      else .ok { s with pool }
  else .ok s

def iterateProc (sys : Sys) (f : Filter) (procPath : Text) (s : Collected) : Except Halt Collected :=
  match sys.readdir procPath with
  | none => .error (.exit 1)
  | some names => names.foldlM (iterateProcStep sys f procPath) s

/-! ### The output -/

/-- `setw(width) << left << s`. -/
def setw (width : Int) (s : Text) : Text := s ++ List.replicate (width - s.length).toNat ' '

def printCells (maxlen : Maxlen) (cells : List Text) : Text :=
  (List.zipWith (fun column cell => setw (maxlen column + 2) cell) columns cells).flatten ++ ['\n']

def output (processes : List Process) (f : Filter) (maxlen : Maxlen) : Text :=
  printCells maxlen columns ++
    processes.flatMap fun process =>
      process.files.flatMap fun file =>
        if f.filt process.command file.name file.type then printCells maxlen (cols process file) else []

/-- `main`, from where the options have become a filter. -/
def main (sys : Sys) (f : Filter) : Except Halt Text := do
  let s ← iterateProc sys f "/proc".toList { maxlen := initMaxlen fun _ => 0 }
  return output s.processes f s.maxlen

/-! ### What is printed -/

/-- The rows that pass the filter, in the order of the processes and their files. -/
def rows (f : Filter) (processes : List Process) : List (List Text) :=
  processes.flatMap fun process =>
    (process.files.filter fun file => f.filt process.command file.name file.type).map (cols process)

/-- `text` is the lines of a table whose columns stand at common offsets, two blanks apart. -/
def Aligned (table : List (List Text)) (text : Text) : Prop :=
  ∃ (at_ : Nat → Nat) (ls : List Text), text = ls.flatMap (· ++ ['\n']) ∧ (∀ l ∈ ls, '\n' ∉ l) ∧
    List.Forall₂ (Laid ' ' 2 at_) table ls

theorem flatMap_filter {α β : Type} (p : α → Bool) (g : α → List β) (as : List α) :
    (as.flatMap fun a => if p a then g a else []) = (as.filter p).flatMap g := by
  induction as with
  | nil => rfl
  | cons a as ih =>
    rw [List.flatMap_cons, ih]
    cases hp : p a with
    | true => rw [List.filter_cons_of_pos hp, List.flatMap_cons, if_pos rfl]
    | false => rw [List.filter_cons_of_neg (by simp [hp]), if_neg Bool.false_ne_true, List.nil_append]

/-- The second traversal prints the header and the rows. -/
theorem output_eq (processes : List Process) (f : Filter) (maxlen : Maxlen) :
    output processes f maxlen = (columns :: rows f processes).flatMap (printCells maxlen) := by
  rw [List.flatMap_cons, output, rows, List.flatMap_assoc]
  refine congrArg (printCells maxlen columns ++ ·) (congrArg (List.flatMap · processes) ?_)
  funext process
  rw [flatMap_filter, List.flatMap_map]

/-- The widths that are printed. -/
def widths (maxlen : Maxlen) : List Nat := columns.map fun column => (maxlen column + 2).toNat

theorem printCells_eq (maxlen : Maxlen) (cells : List Text) :
    printCells maxlen cells = row ' ' (widths maxlen) cells ++ ['\n'] := by
  have hsetw : ∀ (column : Text) (cell : Text),
      setw (maxlen column + 2) cell = pad ' ' (maxlen column + 2).toNat cell := by
    intro column cell
    rw [setw, pad]
    congr 2
    omega
  rw [printCells, row, widths, List.zipWith_map_left]
  simp only [hsetw]

/-! ### Widths that cover the rows -/

/-- A row fits the widths. -/
def Fits (maxlen : Maxlen) (cells : List Text) : Prop :=
  ∀ q ∈ columns.zip cells, (q.2.length : Int) ≤ maxlen q.1

theorem Fits.mono {maxlen maxlen' : Maxlen} {cells : List Text} (h : Fits maxlen cells)
    (hle : ∀ c, maxlen c ≤ maxlen' c) : Fits maxlen' cells := fun q hq =>
  Int.le_trans (h q hq) (hle q.1)

theorem intOf_short {n : Nat} (h : n + 2 < 2 ^ 31) : intOf n = n :=
  Int.bmod_eq_of_le (by omega) (by omega)

variable {f : Filter} {p : Process} {file : File} {maxlen : Maxlen}

theorem cols_cells (hp : ProcessCells p) (hfile : file ∈ p.files) : ∀ c ∈ cols p file, Cell c := by
  have hf := hp.files file hfile
  simp only [cols, List.forall_mem_cons]
  exact ⟨hp.command, hp.pid, hp.user, hf.fd, hf.type, hf.node, hf.name, nofun⟩

/-- What a process does to the widths for one of its files. -/
def widenFile (f : Filter) (process : Process) (maxlen : Maxlen) (file : File) : Maxlen :=
  if f.filt process.command file.name file.type then
    (columns.zip ((cols process file).map fun cell => intOf cell.length)).foldl widen maxlen
  else maxlen

theorem le_widenFile (f : Filter) (p : Process) (maxlen : Maxlen) (file : File) (c : Text) :
    maxlen c ≤ widenFile f p maxlen file c := by
  unfold widenFile
  split
  · exact le_foldl_widen _ _ _
  · exact Int.le_refl _

theorem le_foldl_widenFile (f : Filter) (p : Process) (files : List File) (maxlen : Maxlen) (c : Text) :
    maxlen c ≤ files.foldl (widenFile f p) maxlen c := by
  induction files generalizing maxlen with
  | nil => exact Int.le_refl _
  | cons file files ih => exact Int.le_trans (le_widenFile f p maxlen file c) (ih _)

/-- The row of a file that passes fits the widths it has widened. -/
theorem widenFile_fits (hp : ProcessCells p) (hfile : file ∈ p.files)
    (hpass : f.filt p.command file.name file.type = true) : Fits (widenFile f p maxlen file) (cols p file) := by
  rintro ⟨column, cell⟩ hq
  have hcell : Cell cell := cols_cells hp hfile cell (List.of_mem_zip hq).2
  have hmem : (column, intOf cell.length) ∈
      columns.zip ((cols p file).map fun cell => intOf cell.length) := by
    rw [List.zip_map_right]
    exact List.mem_map_of_mem hq
  have hle := le_foldl_widen_mem maxlen hmem
  rw [intOf_short hcell.short] at hle
  rw [widenFile, if_pos hpass]
  exact hle

theorem foldl_widenFile_fits {files : List File} (hp : ProcessCells p) (hfiles : ∀ file ∈ files, file ∈ p.files) :
    ∀ file ∈ files, f.filt p.command file.name file.type = true →
      Fits (files.foldl (widenFile f p) maxlen) (cols p file) := by
  induction files generalizing maxlen with
  | nil => exact nofun
  | cons g files ih =>
    obtain ⟨hg, hfiles'⟩ := List.forall_mem_cons.mp hfiles
    refine List.forall_mem_cons.mpr ⟨fun hpass => ?_, ih hfiles'⟩
    exact (widenFile_fits hp hg hpass).mono (le_foldl_widenFile f p files _)

theorem le_updateMaxlen (f : Filter) (p : Process) (maxlen : Maxlen) (c : Text) :
    maxlen c ≤ updateMaxlen f p maxlen c := le_foldl_widenFile f p p.files maxlen c

theorem updateMaxlen_fits (hp : ProcessCells p) : ∀ file ∈ p.files,
    f.filt p.command file.name file.type = true → Fits (updateMaxlen f p maxlen) (cols p file) :=
  foldl_widenFile_fits hp fun _ h => h

/-- The widths cover the header and every row of the processes collected. -/
structure Covers (f : Filter) (s : Collected) : Prop where
  header : Fits s.maxlen columns
  cells : ∀ p ∈ s.processes, ProcessCells p
  rows : ∀ p ∈ s.processes, ∀ file ∈ p.files, f.filt p.command file.name file.type = true →
    Fits s.maxlen (cols p file)

theorem covers_initial (f : Filter) (pool : List Text) :
    Covers f { maxlen := initMaxlen fun _ => 0, pool } := by
  have hheader : ∀ q ∈ columns.zip columns, (q.2.length : Int) ≤ initMaxlen (fun _ => 0) q.1 := by decide
  exact ⟨hheader, nofun, nofun⟩

variable {sys : Sys} {s t : Collected}

/-- **A process that is collected is covered**, and those before stay covered. -/
theorem covers_step {procPath pid : Text} (hsys : Bounded sys) (hpath : procPath.length ≤ 2 ^ 20)
    (hpid : pid.length < 256) (h : Covers f s) (hstep : iterateProcStep sys f procPath s pid = .ok t) :
    Covers f t := by
  unfold iterateProcStep at hstep
  by_cases hnumber : isNumber pid = true
  case neg =>
    rw [if_neg hnumber] at hstep
    exact Except.ok.inj hstep ▸ h
  case pos =>
    rw [if_pos hnumber] at hstep
    split at hstep
    · cases hstep
    · next err process pool hscan =>
      split at hstep
      · have hcell : Cell pid := cell_of_length (by decide) (Nat.le_of_lt hpid) (digit_line hnumber)
        have hp : ProcessCells process := by
          refine iteratePid_cells hsys hcell ?_ hscan
          rw [List.length_append, List.length_append]
          have hslash : "/".toList.length = 1 := rfl
          omega
        rw [← Except.ok.inj hstep]
        have hle := le_updateMaxlen f process s.maxlen
        refine ⟨h.header.mono hle, fun p hmem => ?_, fun p hmem => ?_⟩
        · rcases List.mem_append.mp hmem with hmem | hmem
          · exact h.cells p hmem
          · rw [List.mem_singleton.mp hmem]
            exact hp
        · rcases List.mem_append.mp hmem with hmem | hmem
          · exact fun file hfile hpass => (h.rows p hmem file hfile hpass).mono hle
          · rw [List.mem_singleton.mp hmem]
            exact updateMaxlen_fits hp
      · rw [← Except.ok.inj hstep]
        exact ⟨h.header, h.cells, h.rows⟩

theorem covers_iterateProc {procPath : Text} (hsys : Bounded sys) (hpath : procPath.length ≤ 2 ^ 20)
    (h : Covers f s) (hrun : iterateProc sys f procPath s = .ok t) : Covers f t := by
  unfold iterateProc at hrun
  split at hrun
  · cases hrun
  · next names hdir =>
    have hnames := hsys.names _ _ hdir
    clear hdir
    induction names generalizing s with
    | nil => exact Except.ok.inj hrun ▸ h
    | cons pid names ih =>
      obtain ⟨hpid, hnames'⟩ := List.forall_mem_cons.mp hnames
      rw [List.foldlM_cons] at hrun
      cases hstep : iterateProcStep sys f procPath s pid with
      | error e => simp [hstep, bind, Except.bind] at hrun
      | ok s' =>
        rw [hstep] at hrun
        exact ih (covers_step hsys hpath hpid h hstep) hrun hnames'

/-! ### The table -/

theorem pad_line {width : Nat} {cell : Text} (h : '\n' ∉ cell) : '\n' ∉ pad ' ' width cell := by
  rw [pad, List.mem_append]
  exact not_or.mpr ⟨h, fun hblank => absurd (List.eq_of_mem_replicate hblank) (by decide)⟩

theorem row_line {widths : List Nat} {cells : List Text} (h : ∀ c ∈ cells, '\n' ∉ c) :
    '\n' ∉ row ' ' widths cells := by
  induction widths generalizing cells with
  | nil => exact List.not_mem_nil
  | cons w ws ih =>
    cases cells with
    | nil => exact List.not_mem_nil
    | cons c cs =>
      obtain ⟨hc, hcs⟩ := List.forall_mem_cons.mp h
      rw [row, List.zipWith_cons_cons, List.flatten_cons, List.mem_append]
      exact not_or.mpr ⟨pad_line hc, ih hcs⟩

/-- A row that fits is laid out at the printed widths. -/
theorem row_widths_laid {cells : List Text} (hlen : cells.length = columns.length)
    (hfits : Fits maxlen cells) :
    Laid ' ' 2 (offset (widths maxlen)) cells (row ' ' (widths maxlen) cells) := by
  refine row_laid (hlen.trans (List.length_map _).symm) fun q hq => ?_
  rw [widths, List.zip_map_left] at hq
  obtain ⟨⟨column, cell⟩, hmem, rfl⟩ := List.mem_map.mp hq
  have hle := hfits _ hmem
  simp only [Prod.map_apply, id_eq] at hle ⊢
  omega

/-- **The table is aligned and complete**: the header and exactly the rows that pass the filter, in
order, at common offsets. -/
theorem output_aligned (hsys : Bounded sys)
    (h : iterateProc sys f "/proc".toList { maxlen := initMaxlen fun _ => 0 } = .ok s) :
    Aligned (columns :: rows f s.processes) (output s.processes f s.maxlen) := by
  have hcovers : Covers f s := covers_iterateProc hsys (by decide) (covers_initial f []) h
  have hrows : ∀ cells ∈ columns :: rows f s.processes,
      cells.length = columns.length ∧ Fits s.maxlen cells ∧ ∀ c ∈ cells, '\n' ∉ c := by
    refine List.forall_mem_cons.mpr ⟨⟨rfl, hcovers.header, by decide⟩, fun cells hcells => ?_⟩
    obtain ⟨p, hp, hcells⟩ := List.mem_flatMap.mp hcells
    obtain ⟨file, hfile, rfl⟩ := List.mem_map.mp hcells
    obtain ⟨hmem, hpass⟩ := List.mem_filter.mp hfile
    exact ⟨rfl, hcovers.rows p hp file hmem hpass, fun c hc =>
      (cols_cells (hcovers.cells p hp) hmem c hc).line⟩
  refine ⟨offset (widths s.maxlen), (columns :: rows f s.processes).map (row ' ' (widths s.maxlen)),
    ?_, ?_, ?_⟩
  · rw [output_eq, List.flatMap_map]
    exact congrArg (List.flatMap · _) (funext (printCells_eq s.maxlen))
  · intro l hl
    obtain ⟨cells, hcells, rfl⟩ := List.mem_map.mp hl
    exact row_line (hrows cells hcells).2.2
  · rw [List.forall₂_map_right_iff, List.forall₂_same]
    exact fun cells hcells => row_widths_laid (hrows cells hcells).1 (hrows cells hcells).2.1

/-- A system with one process. -/
def procSys : Sys where
  read path :=
    if path = "/proc/1/comm".toList then some "init\n".toList
    else if path = "/proc/1/status".toList then some "Uid:\t0\n".toList
    else if path = "/proc/1/maps".toList then some []
    else none
  readlink _ := .ok "/sbin/init".toList
  stat _ _ _ := .ok ⟨0o100644, 10⟩
  getpwuid _ := some "root".toList
  readdir path := if path = "/proc".toList then some ["1".toList, "self".toList] else none

theorem procSys_bounded : Bounded procSys where
  lines path content h l hl := by
    unfold procSys at h
    dsimp only at h
    have hcontent : content ∈ ["init\n".toList, "Uid:\t0\n".toList, []] := by
      repeat' split at h
      all_goals first | (cases h; done) | (rw [← Option.some.inj h]; decide)
    have hall : ∀ content ∈ ["init\n".toList, "Uid:\t0\n".toList, []], ∀ l ∈ lines content,
        l.length < 2 ^ 29 := by decide
    exact hall content hcontent l hl
  names path names h name hname := by
    unfold procSys at h
    dsimp only at h
    split at h
    · have hall : ∀ name ∈ ["1".toList, "self".toList], name.length < 256 := by decide
      exact hall name (Option.some.inj h ▸ hname)
    · cases h
  users uid name h := by
    rw [← show "root".toList = name from Option.some.inj h]
    decide

/-- A filter that passes everything. -/
def anything : Filter := ⟨⟨fun _ => true, fun _ => true⟩, ⟨fun _ => true, fun _ => true⟩, ⟨fun _ => true, fun _ => true⟩⟩

theorem output_aligned_init : ∃ s, iterateProc procSys anything "/proc".toList
    { maxlen := initMaxlen fun _ => 0 } = .ok s ∧ (rows anything s.processes).length = 3 ∧
      Aligned (columns :: rows anything s.processes) (output s.processes anything s.maxlen) := by
  have hok : (iterateProc procSys anything "/proc".toList { maxlen := initMaxlen fun _ => 0 }).map
      (fun s => (rows anything s.processes).length) = .ok 3 := by decide +kernel
  cases h : iterateProc procSys anything "/proc".toList { maxlen := initMaxlen fun _ => 0 } with
  | error e => rw [h] at hok; cases hok
  | ok s =>
    rw [h] at hok
    exact ⟨s, rfl, Except.ok.inj hok, output_aligned procSys_bounded h⟩

end Apue.Lsof

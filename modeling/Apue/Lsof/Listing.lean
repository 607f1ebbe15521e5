import Apue.Layout.Ruler
import Apue.Lsof.Options
import Apue.Lsof.Unknown

/-! The program as a whole.

`main` collects widths and processes in one pass and prints in another. `printout` says what comes
out: the rows of everything that is there, those that pass the filter, and a table whose columns
are as wide as their widest cells. `listing_spec`: from its arguments on, the program is that. -/
namespace Apue.Lsof
open CLib Layout

/-! ### The purpose -/

/-- Columns as wide as their widest cells. -/
def widest (table : List (List Text)) : List Nat := table.foldl fitRow (columns.map List.length)

/-- The header and the rows, each column two blanks wider than its widest cell. -/
def tableText (table : List (List Text)) : Text :=
  (columns :: table).flatMap fun cells => row ' ' ((widest table).map (· + 2)) cells ++ ['\n']

/-- A row passes the filter by its cells of COMMAND, NAME and TYPE. -/
def Filter.passes (f : Filter) : List Text → Bool
  | [command, _, _, _, type, _, name] => f.filt command name type
  | _ => false

def processRows (p : Process) : List (List Text) := p.files.map (cols p)

/-- The rows of all processes. -/
def everything (sys : Sys) (procPath : Text) (names : List Text) : List (List Text) :=
  ((numeric names).filterMap (scanned sys procPath)).flatMap processRows

/-- The exception that a scan throws. -/
def thrown (sys : Sys) (procPath pid : Text) : Option StoiError :=
  match iteratePid sys [] (procPath ++ "/".toList ++ pid) { pid } with
  | .ok _ => none
  | .error e => some e

def printout (sys : Sys) (f : Filter) : Except Halt Text :=
  match sys.readdir "/proc".toList with
  | none => .error (.exit 1)
  | some names =>
    match (numeric names).findSome? (thrown sys "/proc".toList) with
    | some e => .error (.uncaught e)
    | none => .ok (tableText ((everything sys "/proc".toList names).filter f.passes))

/-! ### The arguments -/

inductive Ending where
  | options (stop : Stop)
  | scan (halt : Halt)
  deriving DecidableEq, Repr

/-- `main`, with its arguments. -/
def mainArgs (sys : Sys) (compile : Text → Option Regex) (argv : List Text) : Except Ending Text := do
  let f ← (newFilter compile argv).mapError .options
  (main sys f).mapError .scan

/-! ### The collection -/

variable {sys : Sys} {f : Filter} {procPath : Text}

theorem rows_eq (f : Filter) (ps : List Process) :
    rows f ps = (ps.flatMap processRows).filter f.passes := by
  rw [rows, List.filter_flatMap]
  refine congrArg (List.flatMap · ps) (funext fun p => ?_)
  rw [processRows, List.filter_map]
  rfl

/-- What a row does to the widths. -/
def widenRow (maxlen : Maxlen) (cells : List Text) : Maxlen :=
  (columns.zip (cells.map fun cell => intOf cell.length)).foldl widen maxlen

theorem updateMaxlen_eq (f : Filter) (p : Process) (maxlen : Maxlen) :
    updateMaxlen f p maxlen = ((processRows p).filter f.passes).foldl widenRow maxlen := by
  rw [updateMaxlen, processRows, List.filter_map, List.foldl_map, List.foldl_filter]
  rfl

/-- What one process adds. -/
theorem iterateProcStep_eq (sys : Sys) (f : Filter) (procPath : Text) {pid : Text}
    (hpid : isNumber pid = true) (s : Collected) :
    match thrown sys procPath pid with
    | some e => iterateProcStep sys f procPath s pid = .error (.uncaught e)
    | none => ∃ pool, iterateProcStep sys f procPath s pid =
        .ok ⟨s.processes ++ (scanned sys procPath pid).toList,
          (((scanned sys procPath pid).toList.flatMap processRows).filter f.passes).foldl widenRow s.maxlen,
          pool⟩ := by
  have hpool : iteratePid sys s.pool (procPath ++ "/".toList ++ pid) { pid } =
      iteratePid sys [] (procPath ++ "/".toList ++ pid) { pid } := rfl
  rw [iterateProcStep, if_pos hpid, hpool, thrown, scanned]
  cases hscan : iteratePid sys [] (procPath ++ "/".toList ++ pid) { pid } with
  | error e => rfl
  | ok r =>
    obtain ⟨err, p, pool⟩ := r
    refine ⟨pool, ?_⟩
    dsimp only
    by_cases herr : err ≠ 1
    · rw [if_pos herr, if_pos herr, updateMaxlen_eq, Option.toList_some, List.flatMap_singleton]
    · rw [if_neg herr, if_neg herr, Option.toList_none, List.append_nil]
      rfl

/-- What is collected, as far as no scan throws. -/
theorem foldlM_iterateProcStep (sys : Sys) (f : Filter) (procPath : Text) (names : List Text)
    (s : Collected) :
    match (numeric names).findSome? (thrown sys procPath) with
    | some e => names.foldlM (iterateProcStep sys f procPath) s = .error (.uncaught e)
    | none => ∃ pool, names.foldlM (iterateProcStep sys f procPath) s =
        .ok ⟨s.processes ++ (numeric names).filterMap (scanned sys procPath),
          ((everything sys procPath names).filter f.passes).foldl widenRow s.maxlen, pool⟩ := by
  unfold everything numeric
  induction names generalizing s with
  | nil => exact ⟨s.pool, by rw [List.filter_nil, List.filterMap_nil, List.append_nil]; rfl⟩
  | cons pid names ih =>
    rw [List.foldlM_cons]
    by_cases hpid : isNumber pid = true
    case neg =>
      have hstep : iterateProcStep sys f procPath s pid = .ok s := if_neg hpid
      rw [List.filter_cons_of_neg hpid, hstep]
      exact ih s
    case pos =>
      have hstep := iterateProcStep_eq sys f procPath hpid s
      rw [List.filter_cons_of_pos hpid, List.findSome?_cons, List.filterMap_cons]
      cases hthrown : thrown sys procPath pid with
      | some e =>
        rw [hthrown] at hstep
        rw [hstep]
        rfl
      | none =>
        rw [hthrown] at hstep
        obtain ⟨pool, hstep⟩ := hstep
        rw [hstep]
        have hrest := ih ⟨s.processes ++ (scanned sys procPath pid).toList,
          (((scanned sys procPath pid).toList.flatMap processRows).filter f.passes).foldl widenRow s.maxlen,
          pool⟩
        cases hlater : (names.filter isNumber).findSome? (thrown sys procPath) with
        | some e =>
          rw [hlater] at hrest
          exact hrest
        | none =>
          rw [hlater] at hrest
          obtain ⟨pool', hrest⟩ := hrest
          refine ⟨pool', hrest.trans ?_⟩
          cases scanned sys procPath pid with
          | none =>
            rw [Option.toList_none, List.append_nil]
            rfl
          | some p =>
            simp only [Option.toList_some, List.append_assoc, List.singleton_append, List.flatMap_cons,
              List.flatMap_nil, List.append_nil, List.filter_append, List.foldl_append]

/-! ### The widths -/

/-- The rows of a process that is kept have a cell for each column. -/
theorem length_cols (p : Process) (file : File) : (cols p file).length = columns.length := rfl

/-- Widths of columns as numbers. -/
theorem map_widenRow {maxlen : Maxlen} {widths : List Nat} {cells : List Text}
    (hlen : cells.length = columns.length) (hcells : ∀ c ∈ cells, Cell c)
    (h : columns.map maxlen = widths.map Nat.cast) :
    columns.map (widenRow maxlen cells) = (fitRow widths cells).map Nat.cast := by
  have hsizes : cells.map (fun cell => intOf cell.length) =
      cells.map fun cell => ((cell.length : Nat) : Int) :=
    List.map_congr_left fun c hc => intOf_short (hcells c hc).short
  rw [widenRow, hsizes, map_foldl_widen (by decide) ((List.length_map _).trans hlen), h, fitRow,
    List.map_zipWith, List.zipWith_map]
  refine congrArg (List.zipWith · widths cells) (funext fun width => funext fun cell => ?_)
  omega

theorem map_foldl_widenRow {table : List (List Text)} {maxlen : Maxlen} {widths : List Nat}
    (htable : ∀ cells ∈ table, cells.length = columns.length ∧ ∀ c ∈ cells, Cell c)
    (h : columns.map maxlen = widths.map Nat.cast) :
    columns.map (table.foldl widenRow maxlen) = (table.foldl fitRow widths).map Nat.cast := by
  induction table generalizing maxlen widths with
  | nil => exact h
  | cons cells table ih =>
    obtain ⟨⟨hlen, hcells⟩, hrest⟩ := List.forall_mem_cons.mp htable
    exact ih hrest (map_widenRow hlen hcells h)

/-- The widths that are printed are those of the widest cells. -/
theorem widths_eq {table : List (List Text)}
    (htable : ∀ cells ∈ table, cells.length = columns.length ∧ ∀ c ∈ cells, Cell c) :
    widths (table.foldl widenRow (initMaxlen fun _ => 0)) = (widest table).map (· + 2) := by
  have hinit : columns.map (initMaxlen fun _ => 0) = (columns.map List.length).map Nat.cast := by decide
  have hmap := map_foldl_widenRow htable hinit
  have hwidths : ∀ maxlen : Maxlen, widths maxlen = (columns.map maxlen).map fun w => (w + 2).toNat :=
    fun maxlen => by
      rw [widths, List.map_map]
      rfl
  rw [hwidths, hmap, List.map_map]
  rfl

/-! ### The program -/

/-- The rows of a process that is kept. -/
theorem scanned_cells {pid : Text} {p : Process} (hsys : Bounded sys) (hpid : isNumber pid = true)
    (hlen : pid.length < 256) (hscan : scanned sys "/proc".toList pid = some p) : ProcessCells p := by
  unfold scanned at hscan
  split at hscan
  · next err q pool heq =>
    split at hscan
    · cases hscan
      refine iteratePid_cells hsys (cell_of_length (by decide) (Nat.le_of_lt hlen) (digit_line hpid)) ?_ heq
      have hproc : "/proc".toList.length = 5 := rfl
      have hslash : "/".toList.length = 1 := rfl
      rw [List.length_append, List.length_append]
      omega
    · cases hscan
  · cases hscan

theorem everything_cells {names : List Text} (hsys : Bounded sys)
    (hdir : sys.readdir "/proc".toList = some names) :
    ∀ cells ∈ everything sys "/proc".toList names, cells.length = columns.length ∧ ∀ c ∈ cells, Cell c := by
  intro cells hcells
  obtain ⟨p, hp, hcells⟩ := List.mem_flatMap.mp hcells
  obtain ⟨pid, hpid, hscan⟩ := List.mem_filterMap.mp hp
  obtain ⟨hmem, hnumber⟩ := List.mem_filter.mp hpid
  obtain ⟨file, hfile, rfl⟩ := List.mem_map.mp hcells
  exact ⟨length_cols p file,
    cols_cells (scanned_cells hsys hnumber (hsys.names _ _ hdir pid hmem) hscan) hfile⟩

/-- The lines of a table. -/
theorem lines_tableText {table : List (List Text)} (h : ∀ cells ∈ table, ∀ c ∈ cells, '\n' ∉ c) :
    lines (tableText table) = (columns :: table).map (row ' ' ((widest table).map (· + 2))) := by
  have htext : tableText table =
      ((columns :: table).map (row ' ' ((widest table).map (· + 2)))).flatMap (· ++ ['\n']) := by
    rw [tableText, List.flatMap_map]
  have hheader : ∀ c ∈ columns, '\n' ∉ c := by decide
  rw [htext]
  refine lines_flatMap fun l hl => ?_
  obtain ⟨cells, hcells, rfl⟩ := List.mem_map.mp hl
  exact row_line (List.forall_mem_cons.mpr ⟨hheader, h⟩ cells hcells)

theorem printout_eq_ok {text : Text} : printout sys f = .ok text ↔ ∃ names,
    sys.readdir "/proc".toList = some names ∧
      (∀ pid ∈ numeric names, thrown sys "/proc".toList pid = none) ∧
      text = tableText ((everything sys "/proc".toList names).filter f.passes) := by
  constructor
  · intro h
    unfold printout at h
    split at h
    · cases h
    · next names hdir =>
      split at h
      · cases h
      · next hthrown =>
        cases h
        exact ⟨names, hdir, List.findSome?_eq_none_iff.mp hthrown, rfl⟩
  · intro ⟨names, hdir, hthrown, htext⟩
    rw [printout, hdir, htext]
    dsimp only
    rw [List.findSome?_eq_none_iff.mpr hthrown]

/-- **The two passes print the listing.** -/
theorem main_eq (hsys : Bounded sys) (f : Filter) : main sys f = printout sys f := by
  rw [main, printout, iterateProc]
  cases hdir : sys.readdir "/proc".toList with
  | none => rfl
  | some names =>
    have hloop := foldlM_iterateProcStep sys f "/proc".toList names { maxlen := initMaxlen fun _ => 0 }
    dsimp only
    cases hthrown : (numeric names).findSome? (thrown sys "/proc".toList) with
    | some e =>
      rw [hthrown] at hloop
      rw [hloop]
      rfl
    | none =>
      rw [hthrown] at hloop
      obtain ⟨pool, hloop⟩ := hloop
      have hcells : ∀ cells ∈ (everything sys "/proc".toList names).filter f.passes,
          cells.length = columns.length ∧ ∀ c ∈ cells, Cell c := fun cells hmem =>
        everything_cells hsys hdir cells (List.mem_of_mem_filter hmem)
      rw [hloop]
      refine congrArg Except.ok ?_
      dsimp only
      rw [List.nil_append, output_eq, rows_eq, ← everything, tableText, ← widths_eq hcells]
      exact congrArg (List.flatMap · _) (funext (printCells_eq _))

theorem spell_of_newFilter {compile : Text → Option Regex} {argv : List Text} (hvalid : Valid compile argv)
    (h : newFilter compile argv = .ok f) : ∃ ps, argv.drop 1 = spell ps := by
  obtain ⟨r, hr⟩ := Option.isSome_iff_exists.mp hvalid.all
  rw [newFilter_eq hr] at h
  split at h
  · cases h
  · exact spell_of_filterLoop h

/-- **From its arguments on, the program prints the listing** of the rows that the last patterns of
the options pass, and it scans nothing where the arguments are not pairs of these. -/
theorem listing_spec {compile : Text → Option Regex} {argv : List Text} (hsys : Bounded sys)
    (hvalid : Valid compile argv) :
    (∀ ps, argv.drop 1 = spell ps → ∃ f : Filter,
      (∀ o, some (f.get o) = compile ((lastOf o ps).getD ".*".toList)) ∧
      mainArgs sys compile argv = (printout sys f).mapError .scan) ∧
    ((¬ ∃ ps, argv.drop 1 = spell ps) → ∃ stop, mainArgs sys compile argv = .error (.options stop)) := by
  constructor
  · intro ps hargs
    obtain ⟨f, hf, hget⟩ := newFilter_spell hvalid hargs
    refine ⟨f, hget, ?_⟩
    rw [mainArgs, hf, ← main_eq hsys f]
    rfl
  · intro hargs
    cases hf : newFilter compile argv with
    | error stop =>
      rw [mainArgs, hf]
      exact ⟨stop, rfl⟩
    | ok f => exact absurd (spell_of_newFilter hvalid hf) hargs

/-- A type that no file has, and then one that all have. -/
theorem listing_spec_reg : ∃ text,
    mainArgs procSys literal ["lsof".toList, "-t".toList, "DIR".toList, "-t".toList, "REG".toList] =
      .ok text ∧ (lines text).length = 4 := by
  let argv := ["lsof".toList, "-t".toList, "DIR".toList, "-t".toList, "REG".toList]
  have hall : ∀ arg ∈ argv, (literal arg).isSome = true := by decide +kernel
  have hvalid : Valid literal argv := by
    refine ⟨by decide, fun ps rest hargs p hp => hall _ ?_⟩
    have hmem : p.2 ∈ argv.drop 1 := hargs ▸ List.mem_append_left rest (mem_spell hp)
    exact List.mem_of_mem_drop hmem
  obtain ⟨f, hget, hmain⟩ := (listing_spec procSys_bounded hvalid).1
    [(.t, "DIR".toList), (.t, "REG".toList)] rfl
  let every : Regex := ⟨fun _ => true, fun t => decide ('\n' ∉ t ∧ '\r' ∉ t)⟩
  let reg : Regex := ⟨fun t => decide ("REG".toList <:+: t), fun t => decide (t = "REG".toList)⟩
  have hf : f = ⟨every, every, reg⟩ := by
    obtain ⟨command, filename, type⟩ := f
    obtain rfl : command = every := Option.some.inj (hget .c)
    obtain rfl : filename = every := Option.some.inj (hget .f)
    obtain rfl : type = reg := Option.some.inj (hget .t)
    rfl
  have hlines : (printout procSys ⟨every, every, reg⟩).map (fun text => (lines text).length) = .ok 4 := by
    decide +kernel
  rw [hmain, hf]
  cases hprintout : printout procSys ⟨every, every, reg⟩ with
  | error halt =>
    rw [hprintout] at hlines
    cases hlines
  | ok text =>
    rw [hprintout] at hlines
    exact ⟨text, rfl, Except.ok.inj hlines⟩

end Apue.Lsof

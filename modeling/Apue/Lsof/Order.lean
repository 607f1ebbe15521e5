import Apue.Lsof.Listing

/-! The order in which directories are read.

`readdir` gives the names of a directory in any order. `listing_order`: the program prints the same
lines under the same header, whatever the orders are. -/
namespace Apue.Lsof
open CLib Layout

/-- The system, with directories read as `readdir` has them. -/
def Sys.reading (sys : Sys) (readdir : Text → Option (List Text)) : Sys := { sys with readdir }

/-- The same directories with the same names. -/
def Reordered (sys : Sys) (readdir : Text → Option (List Text)) : Prop :=
  ∀ path, Option.Rel List.Perm (sys.readdir path) (readdir path)

variable {sys : Sys} {readdir : Text → Option (List Text)} {pidPath procPath pid : Text}

theorem Reordered.none (h : Reordered sys readdir) {path : Text} (hdir : sys.readdir path = none) :
    readdir path = none := by
  have hrel := h path
  rw [hdir] at hrel
  cases hread : readdir path with
  | none => rfl
  | some names =>
    rw [hread] at hrel
    cases hrel

theorem Reordered.some (h : Reordered sys readdir) {path : Text} {names : List Text}
    (hdir : sys.readdir path = some names) : ∃ names', readdir path = some names' ∧ names.Perm names' := by
  have hrel := h path
  rw [hdir] at hrel
  cases hread : readdir path with
  | none =>
    rw [hread] at hrel
    cases hrel
  | some names' =>
    rw [hread] at hrel
    cases hrel with
    | some hperm => exact ⟨names', rfl, hperm⟩

/-! ### A process -/

/-- The descriptors are the same. -/
theorem iterateFd_reading (h : Reordered sys readdir) (fdPath : Text) :
    (iterateFd (sys.reading readdir) fdPath).1.Perm (iterateFd sys fdPath).1 := by
  cases hdir : sys.readdir fdPath with
  | none =>
    have hread : (sys.reading readdir).readdir fdPath = none := h.none hdir
    rw [iterateFd, iterateFd, hdir, hread]
  | some names =>
    obtain ⟨names', hread, hperm⟩ := h.some hdir
    have hread' : (sys.reading readdir).readdir fdPath = some names' := hread
    have hnumeric : (numeric names).Perm (numeric names') := hperm.filter _
    have hany : ((numeric names').any fun link => vanished (sys.reading readdir) (fdLink fdPath link)) =
        (numeric names).any fun link => vanished sys (fdLink fdPath link) := hnumeric.symm.any_eq
    rw [iterateFd_eq hdir, iterateFd_eq hread', hany]
    split
    · exact List.Perm.refl []
    · exact hnumeric.symm.map _

/-- The same process, with its files in another order. -/
structure Shuffled (p p' : Process) : Prop where
  command : p'.command = p.command
  pid : p'.pid = p.pid
  user : p'.user = p.user
  files : p'.files.Perm p.files

theorem specialLoop_reading (ps : List (Text × Text)) (files : List File) (err : Int) (pool : List Text) :
    specialLoop (sys.reading readdir) pidPath ps files err pool =
      specialLoop sys pidPath ps files err pool := by
  induction ps generalizing files err pool with
  | nil => rfl
  | cons p ps ih =>
    have hfile : getSpecialFile (sys.reading readdir) = getSpecialFile sys := rfl
    simp only [specialLoop, hfile, ih]

theorem getMapsLoop_reading (ls : List Text) (files : List File) (err : Int) (pool : List Text) :
    getMapsLoop (sys.reading readdir) ls files err pool = getMapsLoop sys ls files err pool := by
  induction ls generalizing files err pool with
  | nil => rfl
  | cons l ls ih =>
    have hstat : getFromStat (sys.reading readdir) = getFromStat sys := rfl
    simp only [getMapsLoop, hstat, ih]

/-- A scan ends as it did, and finds the same. -/
theorem iteratePid_reading (h : Reordered sys readdir) (pool : List Text) (pidPath : Text)
    (process : Process) :
    (∃ e, iteratePid sys pool pidPath process = .error e ∧
      iteratePid (sys.reading readdir) pool pidPath process = .error e) ∨
    ∃ err p p' pool', iteratePid sys pool pidPath process = .ok (err, p, pool') ∧
      iteratePid (sys.reading readdir) pool pidPath process = .ok (err, p', pool') ∧ Shuffled p p' := by
  have hcommand : getCommand (sys.reading readdir) pidPath = getCommand sys pidPath := rfl
  have huser : getUser (sys.reading readdir) pidPath = getUser sys pidPath := rfl
  have hmaps : ∀ pool path, getMaps (sys.reading readdir) pool path = getMaps sys pool path := by
    intro pool path
    simp only [getMaps, getMapsLoop_reading]
    rfl
  have hfds := iterateFd_reading h (pidPath ++ "/fd".toList)
  simp only [iteratePid, hcommand, huser, specialLoop_reading, hmaps, bind, Except.bind, pure, Except.pure]
  repeat' split
  all_goals first
    | exact .inl ⟨_, rfl, rfl⟩
    | exact .inr ⟨_, _, _, _, rfl, rfl, rfl, rfl, rfl, hfds.append_left _⟩
    | exact .inr ⟨_, _, _, _, rfl, rfl, rfl, rfl, rfl, .refl _⟩

theorem thrown_reading (h : Reordered sys readdir) (procPath pid : Text) :
    thrown (sys.reading readdir) procPath pid = thrown sys procPath pid := by
  rw [thrown, thrown]
  obtain ⟨e, hscan, hread⟩ | ⟨err, p, p', pool, hscan, hread, -⟩ :=
    iteratePid_reading h [] (procPath ++ "/".toList ++ pid) { pid }
  · rw [hscan, hread]
  · rw [hscan, hread]

/-- A process is kept as it was, with the same rows. -/
theorem scanned_reading (h : Reordered sys readdir) (procPath pid : Text) :
    ((scanned (sys.reading readdir) procPath pid).toList.flatMap processRows).Perm
      ((scanned sys procPath pid).toList.flatMap processRows) := by
  rw [scanned, scanned]
  obtain ⟨e, hscan, hread⟩ | ⟨err, p, p', pool, hscan, hread, hfiles⟩ :=
    iteratePid_reading h [] (procPath ++ "/".toList ++ pid) { pid }
  · rw [hscan, hread]
  · rw [hscan, hread]
    dsimp only
    split
    · have hcols : cols p' = cols p := by
        funext file
        rw [cols, cols, hfiles.command, hfiles.pid, hfiles.user]
      rw [Option.toList_some, Option.toList_some, List.flatMap_singleton, List.flatMap_singleton,
        processRows, processRows, hcols]
      exact hfiles.files.map _
    · exact List.Perm.refl _

/-! ### The program -/

theorem everything_reading (h : Reordered sys readdir) {names names' : List Text}
    (hnames : names.Perm names') :
    (everything (sys.reading readdir) procPath names').Perm (everything sys procPath names) := by
  have hrows : ∀ (sys : Sys) (names : List Text), everything sys procPath names =
      (numeric names).flatMap fun pid => (scanned sys procPath pid).toList.flatMap processRows := by
    intro sys names
    rw [everything, List.filterMap_eq_flatMap_toList, List.flatMap_assoc]
  rw [hrows, hrows]
  exact (hnames.symm.filter _).flatMap fun pid _ => scanned_reading h procPath pid

theorem Bounded.reading (hsys : Bounded sys) (h : Reordered sys readdir) :
    Bounded (sys.reading readdir) where
  lines := hsys.lines
  users := hsys.users
  names path names' hdir name hname := by
    have hdir' : readdir path = some names' := hdir
    cases hread : sys.readdir path with
    | none =>
      rw [h.none hread] at hdir'
      cases hdir'
    | some names =>
      obtain ⟨names'', hnames, hperm⟩ := h.some hread
      rw [hnames] at hdir'
      cases hdir'
      exact hsys.names path names hread name (hperm.mem_iff.mpr hname)

/-- The lines of a table whose rows are in another order. -/
theorem lines_perm {table table' : List (List Text)} (hperm : table'.Perm table)
    (h : ∀ cells ∈ table, ∀ c ∈ cells, '\n' ∉ c) :
    (lines (tableText table')).head? = (lines (tableText table)).head? ∧
      (lines (tableText table')).Perm (lines (tableText table)) := by
  have hwidest : widest table' = widest table := foldl_fitRow_perm hperm _
  rw [lines_tableText h, lines_tableText fun cells hcells => h cells (hperm.mem_iff.mp hcells), hwidest]
  exact ⟨rfl, (hperm.cons columns).map _⟩

theorem printout_reading (hsys : Bounded sys) (h : Reordered sys readdir) {f : Filter} {text : Text}
    (hok : printout sys f = .ok text) : ∃ text', printout (sys.reading readdir) f = .ok text' ∧
      (lines text').head? = (lines text).head? ∧ (lines text').Perm (lines text) := by
  obtain ⟨names, hdir, hthrown, rfl⟩ := printout_eq_ok.mp hok
  obtain ⟨names', hread, hnames⟩ := h.some hdir
  refine ⟨_, printout_eq_ok.mpr ⟨names', hread, fun pid hpid => ?_, rfl⟩, ?_⟩
  · rw [thrown_reading h]
    exact hthrown pid ((hnames.filter isNumber).mem_iff.mpr hpid)
  · refine lines_perm ((everything_reading h hnames).filter _) fun cells hcells c hc => ?_
    exact ((everything_cells hsys hdir cells (List.mem_of_mem_filter hcells)).2 c hc).line

theorem Reordered.symm (h : Reordered sys readdir) : Reordered (sys.reading readdir) sys.readdir := by
  intro path
  cases hdir : sys.readdir path with
  | none =>
    have hread : (sys.reading readdir).readdir path = Option.none := h.none hdir
    rw [hread]
    exact .none
  | some names =>
    obtain ⟨names', hnames, hperm⟩ := h.some hdir
    have hread : (sys.reading readdir).readdir path = Option.some names' := hnames
    rw [hread]
    exact .some hperm.symm

/-- **The order of directories does not matter**: the program prints a table where it did, with the
same lines under the same header, and no other. -/
theorem listing_order (hsys : Bounded sys) (h : Reordered sys readdir) (f : Filter) :
    (∀ text, main sys f = .ok text → ∃ text', main (sys.reading readdir) f = .ok text' ∧
      (lines text').head? = (lines text).head? ∧ (lines text').Perm (lines text)) ∧
    ∀ text', main (sys.reading readdir) f = .ok text' → ∃ text, main sys f = .ok text := by
  have hsys' := hsys.reading h
  rw [main_eq hsys, main_eq hsys']
  refine ⟨fun text hok => printout_reading hsys h hok, fun text' hok => ?_⟩
  obtain ⟨text, hback, -⟩ := printout_reading hsys' h.symm hok
  exact ⟨text, hback⟩

/-- A system with two processes. -/
def pairSys : Sys where
  read path :=
    if "/comm".toList <:+ path then some "sh\n".toList
    else if "/status".toList <:+ path then some "Uid:\t0\n".toList
    else if "/maps".toList <:+ path then some []
    else none
  readlink _ := .ok "/bin/sh".toList
  stat _ _ _ := .ok ⟨0o100644, 10⟩
  getpwuid _ := some "root".toList
  readdir path := if path = "/proc".toList then some ["1".toList, "20".toList] else none

def pairReversed (path : Text) : Option (List Text) :=
  if path = "/proc".toList then some ["20".toList, "1".toList] else none

theorem pairSys_bounded : Bounded pairSys where
  lines path content h l hl := by
    have hcontent : content ∈ ["sh\n".toList, "Uid:\t0\n".toList, []] := by
      unfold pairSys at h
      dsimp only at h
      repeat' split at h
      all_goals first | (cases h; done) | (rw [← Option.some.inj h]; decide)
    have hall : ∀ content ∈ ["sh\n".toList, "Uid:\t0\n".toList, []], ∀ l ∈ lines content,
        l.length < 2 ^ 29 := by decide
    exact hall content hcontent l hl
  names path names h name hname := by
    unfold pairSys at h
    dsimp only at h
    split at h
    · have hall : ∀ name ∈ ["1".toList, "20".toList], name.length < 256 := by decide
      exact hall name (Option.some.inj h ▸ hname)
    · cases h
  users uid name h := by
    rw [← show "root".toList = name from Option.some.inj h]
    decide

theorem listing_order_pair : ∃ text text', main pairSys anything = .ok text ∧
    main (pairSys.reading pairReversed) anything = .ok text' ∧ text' ≠ text ∧
      (lines text').Perm (lines text) := by
  have hreordered : Reordered pairSys pairReversed := by
    intro path
    by_cases hpath : path = "/proc".toList
    · subst hpath
      exact .some (.swap "20".toList "1".toList [])
    · have hnone : pairSys.readdir path = none := if_neg hpath
      have hnone' : pairReversed path = none := if_neg hpath
      rw [hnone, hnone']
      exact .none
  have hok : (main pairSys anything).isOk = true ∧
      main (pairSys.reading pairReversed) anything ≠ main pairSys anything := by decide +kernel
  cases hmain : main pairSys anything with
  | error halt =>
    rw [hmain] at hok
    cases hok.1
  | ok text =>
    obtain ⟨text', hmain', -, hperm⟩ := (listing_order pairSys_bounded hreordered anything).1 text hmain
    refine ⟨text, text', rfl, hmain', ?_, hperm⟩
    rintro rfl
    exact hok.2 (hmain'.trans hmain.symm)

end Apue.Lsof

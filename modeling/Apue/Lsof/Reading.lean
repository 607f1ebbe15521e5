import Apue.Lsof.Listing
import Apue.Lsof.Maps

/-! Reading the listing back.

Its columns stand under the words of the header, so that its cells can be cut out again
(`Layout.Ruler`). Of all cells only those of COMMAND and USER may end in a blank, and with it the
reader loses nothing else: `listing_read`. -/
namespace Apue.Lsof
open CLib Layout

variable {sys : Sys} {f : Filter} {path pidPath : Text} {err : Int}

/-! ### Cells without blanks -/

structure FileSolid (file : File) : Prop where
  fd : Solid file.fd
  type : Solid file.type
  node : Solid file.node
  name : Solid file.name

theorem solid_nil : Solid [] := fun _ hc => absurd hc List.not_mem_nil

theorem solid_headD_words (t : Text) : Solid ((words t).headD []) := by
  cases hw : words t with
  | nil => exact solid_nil
  | cons w ws => exact (isWord_of_mem (hw ▸ List.mem_cons_self)).solid

theorem typeOf_solid (mode : Nat) : Solid (typeOf mode) := by
  unfold typeOf
  repeat' split
  all_goals decide

theorem modeOf_solid (mode : Nat) : Solid (modeOf mode) := by
  unfold modeOf
  repeat' split
  all_goals decide

theorem getFromStat_solid (sys : Sys) (path : Text) (target : Target) (through : Bool) (err : Int) :
    Solid (getFromStat sys path target through err).1 := by
  have hunknown : Solid "unknown".toList := by decide
  unfold getFromStat
  split
  · cases target with
    | type => exact hunknown
    | _ => exact solid_nil
  · next buf _ =>
    cases target with
    | type => exact typeOf_solid _
    | node => exact (decimal_isWord _).solid
    | mode => exact modeOf_solid _

theorem entry_solid {fd : Text} (hfd : Solid fd) : FileSolid (entry sys path fd) :=
  ⟨hfd, getFromStat_solid _ _ _ _ _, getFromStat_solid _ _ _ _ _, solid_headD_words _⟩

theorem solid_number {link : Text} (h : isNumber link = true) : Solid link := by
  intro c hc
  have hdigit : isdigit c = true := List.all_eq_true.mp h c hc
  by_contra hspace
  rw [Bool.not_eq_false] at hspace
  simp only [isspace, Bool.or_eq_true, beq_iff_eq] at hspace
  rcases hspace with ((((rfl | rfl) | rfl) | rfl) | rfl) | rfl
  all_goals exact absurd hdigit (by decide)

theorem fdEntry_solid {fdPath link : Text} (hlink : isNumber link = true) :
    FileSolid (fdEntry sys fdPath link) := by
  refine entry_solid fun c hc => ?_
  rcases List.mem_append.mp hc with hc | hc
  · exact solid_number hlink c hc
  · exact getFromStat_solid _ _ _ _ _ c hc

/-- What a line of `maps` gives is a word of it. -/
theorem foldl_next_solid {ws : List Text} {m : MapWords} (hws : ∀ w ∈ ws, Solid w)
    (hm : Solid m.node ∧ Solid m.name) :
    Solid (ws.foldl MapWords.next m).node ∧ Solid (ws.foldl MapWords.next m).name := by
  induction ws generalizing m with
  | nil => exact hm
  | cons w ws ih =>
    obtain ⟨hw, hws'⟩ := List.forall_mem_cons.mp hws
    refine ih hws' ?_
    unfold MapWords.next
    dsimp only
    split
    · exact ⟨hw, hm.2⟩
    split
    · exact ⟨hm.1, hw⟩
    split
    · exact hm
    · exact hm

theorem mapFile_solid (sys : Sys) (line : Text) : FileSolid (mapFile sys line) := by
  obtain ⟨hnode, hname⟩ : Solid (mapWords line).node ∧ Solid (mapWords line).name :=
    foldl_next_solid (fun w hw => (isWord_of_mem hw).solid) ⟨solid_nil, solid_nil⟩
  have hmem : Solid "mem".toList := by decide
  have hdel : Solid "DEL".toList := by decide
  refine ⟨hmem, ?_, hnode, hname⟩
  rw [mapFile]
  dsimp only
  split
  · exact hdel
  · exact getFromStat_solid _ _ _ _ _

theorem mem_getMapsLoop {ls : List Text} {files : List File} {pool : List Text} (herr : err ≠ 1) :
    ∀ file ∈ (getMapsLoop sys ls files err pool).1, file ∈ files ∨ ∃ line, file = mapFile sys line := by
  induction ls generalizing files err pool with
  | nil => exact fun file hfile => .inl hfile
  | cons line ls ih =>
    by_cases hline : (mapWords line).isFile = true
    case neg =>
      rw [getMapsLoop]
      dsimp only
      rw [if_pos hline]
      exact ih herr
    case pos =>
      obtain ⟨err', herr', hloop⟩ : ∃ err', err' ≠ 1 ∧ getMapsLoop sys (line :: ls) files err pool = _ :=
        getMapsLoop_file hline herr
      rw [hloop]
      split
      · exact ih herr'
      · intro file hfile
        rcases ih herr' file hfile with hfile | hfile
        · rcases List.mem_append.mp hfile with hfile | hfile
          · exact .inl hfile
          · exact .inr ⟨line, List.mem_singleton.mp hfile⟩
        · exact .inr hfile

theorem getMaps_solid (sys : Sys) (pool : List Text) (mapPath : Text) :
    ∀ file ∈ (getMaps sys pool mapPath).1, FileSolid file := by
  intro file hfile
  unfold getMaps at hfile
  split at hfile
  · exact absurd hfile List.not_mem_nil
  · rcases mem_getMapsLoop (by decide) file hfile with hfile | ⟨line, rfl⟩
    · exact absurd hfile List.not_mem_nil
    · exact mapFile_solid sys line

/-- A scan ends with one of two results. -/
theorem iteratePid_err {pool pool' : List Text} {process p : Process}
    (h : iteratePid sys pool pidPath process = .ok (err, p, pool')) (herr : err ≠ 1) : err = 0 := by
  simp only [iteratePid, bind, Except.bind, pure, Except.pure] at h
  repeat' split at h
  all_goals cases h
  all_goals first
    | rfl
    | exact absurd rfl herr
    | exact absurd ‹_› herr

/-- The files of a process that is kept have no blanks in their cells, and it has its number. -/
theorem scanned_solid {procPath pid : Text} {p : Process} (hpid : isNumber pid = true)
    (h : scanned sys procPath pid = some p) : Solid p.pid ∧ ∀ file ∈ p.files, FileSolid file := by
  refine ⟨scanned_pid h ▸ solid_number hpid, fun file hfile => ?_⟩
  unfold scanned at h
  split at h
  · next err q pool hscan =>
    split at h
    · next herr =>
      cases h
      rw [iteratePid_err hscan herr] at hscan
      obtain ⟨-, pool₁, hfiles⟩ := iteratePid_kept hscan
      rw [hfiles] at hfile
      rcases List.mem_append.mp hfile with hfile | hfile
      · rcases List.mem_append.mp hfile with hfile | hfile
        · obtain ⟨q, hq, rfl⟩ := List.mem_map.mp hfile
          have hfds : ∀ q ∈ specialFds, Solid q.1 := by decide
          exact entry_solid (hfds q hq)
        · exact getMaps_solid sys _ _ file hfile
      · obtain ⟨link, hlink, rfl⟩ := mem_iterateFd hfile
        exact fdEntry_solid hlink
    · cases h
  · cases h

/-! ### The reader -/

/-- A table of cells is read back up to blanks at their ends. -/
theorem readTable_tableText {table : List (List Text)}
    (htable : ∀ cells ∈ table, cells.length = columns.length ∧ ∀ c ∈ cells, '\n' ∉ c) :
    readTable ' ' (lines (tableText table)) = table.map (List.map (strip ' ')) := by
  have hlen : ∀ cells ∈ table, cells.length = (columns.map List.length).length := fun cells hcells =>
    (htable cells hcells).1.trans (List.length_map _).symm
  obtain ⟨hrows, hkept⟩ := foldl_fitRow_fits hlen
  have hheader : FitsRow (columns.map List.length) columns := by
    rw [FitsRow, List.forall₂_map_left_iff, List.forall₂_same]
    exact fun c _ => Nat.le_refl _
  have hfits : ∀ cells ∈ columns :: table, FitsRow (widest table) cells :=
    List.forall_mem_cons.mpr ⟨hkept columns hheader, hrows⟩
  have hheadings : ∀ c ∈ columns, Heading ' ' c := by
    have hall : ∀ c ∈ columns, c ≠ [] ∧ ' ' ∉ c := by decide
    exact fun c hc => ⟨(hall c hc).1, fun a ha hblank => (hall c hc).2 (hblank ▸ ha)⟩
  rw [lines_tableText fun cells hcells => (htable cells hcells).2]
  refine readTable_rows (fun cells hcells => ?_) hheadings fun cells hcells p hp => ?_
  · rw [List.length_map]
    exact (hfits cells hcells).length_eq.symm
  · rw [List.zip_map_left] at hp
    obtain ⟨⟨width, cell⟩, hmem, rfl⟩ := List.mem_map.mp hp
    have hle := (List.forall₂_iff_zip.mp (hfits cells hcells)).2 hmem
    exact Nat.lt_of_le_of_lt hle (Nat.lt_add_of_pos_right (by decide))

/-- The cells of a row that could end in a blank do not. -/
def Process.Trim (p : Process) : Prop := p.command.getLast? ≠ some ' ' ∧ p.user.getLast? ≠ some ' '

theorem strip_of_solid {t : Text} (h : Solid t) : strip ' ' t = t := by
  refine strip_eq_self.mpr fun hlast => ?_
  exact absurd (h ' ' (List.mem_of_getLast? hlast)) (by decide)

theorem map_strip_cols {p : Process} {file : File} (hpid : Solid p.pid) (hfile : FileSolid file) :
    (cols p file).map (strip ' ') = cols p file ↔ p.Trim := by
  rw [Process.Trim, ← strip_eq_self, ← strip_eq_self]
  simp [cols, strip_of_solid hpid, strip_of_solid hfile.fd, strip_of_solid hfile.type,
    strip_of_solid hfile.node, strip_of_solid hfile.name]

/-- **What is printed can be read back**: the reader has the rows up to the blanks at the ends of their
cells, and has them as they are exactly when no process with a row has a command or a user that ends
in a blank. -/
theorem listing_read (hsys : Bounded sys) {text : Text} (h : main sys f = .ok text) :
    ∃ names, sys.readdir "/proc".toList = some names ∧
      readTable ' ' (lines text) =
        ((everything sys "/proc".toList names).filter f.passes).map (List.map (strip ' ')) ∧
      (readTable ' ' (lines text) = (everything sys "/proc".toList names).filter f.passes ↔
        ∀ p ∈ (numeric names).filterMap (scanned sys "/proc".toList),
          (∃ cells ∈ processRows p, f.passes cells = true) → p.Trim) := by
  rw [main_eq hsys] at h
  obtain ⟨names, hdir, -, rfl⟩ := printout_eq_ok.mp h
  have hcells : ∀ cells ∈ (everything sys "/proc".toList names).filter f.passes,
      cells.length = columns.length ∧ ∀ c ∈ cells, '\n' ∉ c := fun cells hmem =>
    have hcells := everything_cells hsys hdir cells (List.mem_of_mem_filter hmem)
    ⟨hcells.1, fun c hc => (hcells.2 c hc).line⟩
  refine ⟨names, hdir, readTable_tableText hcells, ?_⟩
  rw [readTable_tableText hcells]
  generalize htable : (everything sys "/proc".toList names).filter f.passes = table
  have hself : table.map (List.map (strip ' ')) = table ↔
      ∀ cells ∈ table, cells.map (strip ' ') = cells := by
    have hid := List.map_inj_left (l := table) (f := List.map (strip ' ')) (g := id)
    rwa [List.map_id] at hid
  rw [hself, ← htable]
  constructor
  · intro hstrip p hp hrow
    obtain ⟨pid, hpid, hscan⟩ := List.mem_filterMap.mp hp
    obtain ⟨hnumber, hfiles⟩ := scanned_solid (List.mem_filter.mp hpid).2 hscan
    obtain ⟨cells, hcells, hpass⟩ := hrow
    have hmem := List.mem_filter.mpr ⟨List.mem_flatMap.mpr ⟨p, hp, hcells⟩, hpass⟩
    obtain ⟨file, hfile, rfl⟩ := List.mem_map.mp hcells
    exact (map_strip_cols hnumber (hfiles file hfile)).mp (hstrip _ hmem)
  · intro htrim cells hmem
    obtain ⟨hmem, hpass⟩ := List.mem_filter.mp hmem
    obtain ⟨p, hp, hcells⟩ := List.mem_flatMap.mp hmem
    obtain ⟨pid, hpid, hscan⟩ := List.mem_filterMap.mp hp
    obtain ⟨hnumber, hfiles⟩ := scanned_solid (List.mem_filter.mp hpid).2 hscan
    have hp' := htrim p hp ⟨cells, hcells, hpass⟩
    obtain ⟨file, hfile, rfl⟩ := List.mem_map.mp hcells
    exact (map_strip_cols hnumber (hfiles file hfile)).mpr hp'

theorem listing_read_init : ∃ text, main procSys anything = .ok text ∧ readTable ' ' (lines text) =
    ["cwd".toList, "rtd".toList, "txt".toList].map fun fd =>
      ["init".toList, "1".toList, "root".toList, fd, "REG".toList, "10".toList, "/sbin/init".toList] := by
  have hok : (main procSys anything).isOk = true := by decide +kernel
  cases hmain : main procSys anything with
  | error halt =>
    rw [hmain] at hok
    cases hok
  | ok text =>
    obtain ⟨names, hdir, -, hread⟩ := listing_read procSys_bounded hmain
    have hnames : ["1".toList, "self".toList] = names := Option.some.inj hdir
    subst hnames
    refine ⟨text, rfl, (hread.mpr ?_).trans ?_⟩
    · have htrim : ∀ p ∈ (numeric ["1".toList, "self".toList]).filterMap (scanned procSys "/proc".toList),
          p.command.getLast? ≠ some ' ' ∧ p.user.getLast? ≠ some ' ' := by decide +kernel
      exact fun p hp _ => htrim p hp
    · decide +kernel

end Apue.Lsof

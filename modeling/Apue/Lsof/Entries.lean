import Apue.Lsof.Cells

/-! What a scan lists for a link.

A failed `stat` is never an error, so the one error that a link can give is of its `readlink`. -/
namespace Apue.Lsof

variable {sys : Sys} {path fd : Text} {err : Int}

theorem getFromStat_err {target : Target} {through : Bool} (h : err ≠ 1) :
    (getFromStat sys path target through err).2 ≠ 1 := by
  unfold getFromStat
  split
  · exact show (-1 : Int) ≠ 1 by decide
  · cases target <;> exact h

theorem getFromStat_fst (sys : Sys) (path : Text) (target : Target) (through : Bool) (err err' : Int) :
    (getFromStat sys path target through err).1 = (getFromStat sys path target through err').1 := by
  unfold getFromStat
  split
  · rfl
  · cases target <;> rfl

/-- The link cannot be read, for another reason than a missing permission. -/
def vanished (sys : Sys) (path : Text) : Bool :=
  match sys.readlink path with
  | .ok _ => false
  | .error errno => errno != eacces

theorem safeReadlink_err : (safeReadlink sys path).2 = 1 ↔ vanished sys path = true := by
  unfold safeReadlink vanished
  cases sys.readlink path with
  | ok target => simp
  | error errno =>
    by_cases h : errno = eacces
    · simp [h]
    · simp [h]

/-- The file that is listed for a link. -/
def entry (sys : Sys) (path fd : Text) : File where
  fd := fd
  type := (getFromStat sys path .type true 0).1
  node := (getFromStat sys path .node true 0).1
  name := clearDeleted (safeReadlink sys path).1

/-! ### The special links -/

theorem getSpecialFile_vanished (pool : List Text) (fd : Text) (h : vanished sys path = true) :
    getSpecialFile sys pool path fd = ({}, 1, pool) := by
  have herr := safeReadlink_err.mpr h
  simp [getSpecialFile, herr]

theorem getSpecialFile_entry (pool : List Text) (fd : Text) (h : vanished sys path = false) :
    ∃ err, err ≠ 1 ∧ getSpecialFile sys pool path fd = (entry sys path fd, err,
      if fd = "txt".toList then (entry sys path fd).node :: pool else pool) := by
  have herr : (safeReadlink sys path).2 ≠ 1 := by simp [safeReadlink_err, h]
  have htype : (getFromStat sys path .type true (safeReadlink sys path).2).2 ≠ 1 := getFromStat_err herr
  have hnode : (getFromStat sys path .node true
      (getFromStat sys path .type true (safeReadlink sys path).2).2).2 ≠ 1 := getFromStat_err htype
  refine ⟨_, hnode, ?_⟩
  rw [entry, getFromStat_fst sys path .type true 0 (safeReadlink sys path).2,
    getFromStat_fst sys path .node true 0 (getFromStat sys path .type true (safeReadlink sys path).2).2]
  simp only [getSpecialFile, if_neg herr, if_neg htype, if_neg hnode]

/-- The path of a special link. -/
def specialPath (pidPath : Text) (p : Text × Text) : Text := pidPath ++ "/".toList ++ p.2

variable {pidPath : Text} {ps : List (Text × Text)}

theorem specialLoop_vanished (files : List File) (err : Int) (pool : List Text)
    (h : ∃ p ∈ ps, vanished sys (specialPath pidPath p) = true) :
    (specialLoop sys pidPath ps files err pool).2.1 = 1 := by
  induction ps generalizing files err pool with
  | nil => simp at h
  | cons p ps ih =>
    obtain ⟨fd, filename⟩ := p
    cases hp : vanished sys (specialPath pidPath (fd, filename)) with
    | true =>
      rw [specialPath] at hp
      simp only [specialLoop, getSpecialFile_vanished pool fd hp, if_true]
    | false =>
      have hps : ∃ p ∈ ps, vanished sys (specialPath pidPath p) = true := by simpa [hp] using h
      rw [specialPath] at hp
      obtain ⟨err', herr', heq⟩ := getSpecialFile_entry pool fd hp
      simp only [specialLoop, heq, if_neg herr']
      exact ih _ _ _ hps

theorem specialLoop_entries (files : List File) (pool : List Text) (herr : err ≠ 1)
    (h : ∀ p ∈ ps, vanished sys (specialPath pidPath p) = false) :
    ∃ err' pool', err' ≠ 1 ∧ specialLoop sys pidPath ps files err pool =
      (files ++ ps.map fun p => entry sys (specialPath pidPath p) p.1, err', pool') := by
  induction ps generalizing files err pool with
  | nil => exact ⟨err, pool, herr, by simp [specialLoop]⟩
  | cons p ps ih =>
    obtain ⟨fd, filename⟩ := p
    obtain ⟨hp, hps⟩ := List.forall_mem_cons.mp h
    rw [specialPath] at hp
    obtain ⟨err', herr', heq⟩ := getSpecialFile_entry pool fd hp
    simp only [specialLoop, heq, if_neg herr']
    obtain ⟨err'', pool', herr'', hloop⟩ := ih (files ++ [entry sys (pidPath ++ "/".toList ++ filename) fd])
      (if fd = "txt".toList then (entry sys (pidPath ++ "/".toList ++ filename) fd).node :: pool else pool)
      herr' hps
    refine ⟨err'', pool', herr'', ?_⟩
    rw [hloop, List.append_assoc]
    rfl

/-! ### The descriptors -/

/-- The names of the descriptors. -/
def numeric (names : List Text) : List Text := names.filter isNumber

/-- The path of a descriptor's link. -/
def fdLink (fdPath link : Text) : Text := fdPath ++ "/".toList ++ link

/-- The file that is listed for a descriptor. -/
def fdEntry (sys : Sys) (fdPath link : Text) : File :=
  entry sys (fdLink fdPath link) (link ++ (getFromStat sys (fdLink fdPath link) .mode false 0).1)

variable {fdPath link : Text}

/-- What is made of one name: its file, unless its link vanished. -/
theorem fdFile_eq (sys : Sys) (fdPath link : Text) (herr : err ≠ 1) :
    fdFile sys (fdPath ++ "/".toList ++ link) link err =
      if vanished sys (fdLink fdPath link) then (none, 1)
      else (some (fdEntry sys fdPath link), (safeReadlink sys (fdLink fdPath link)).2) := by
  rw [fdEntry, entry, fdLink]
  generalize fdPath ++ "/".toList ++ link = path
  have hmode : (getFromStat sys path .mode false err).2 ≠ 1 := getFromStat_err herr
  have htype : (getFromStat sys path .type true (getFromStat sys path .mode false err).2).2 ≠ 1 :=
    getFromStat_err hmode
  have hnode : (getFromStat sys path .node true
      (getFromStat sys path .type true (getFromStat sys path .mode false err).2).2).2 ≠ 1 :=
    getFromStat_err htype
  rw [getFromStat_fst sys path .mode false 0 err,
    getFromStat_fst sys path .type true 0 (getFromStat sys path .mode false err).2,
    getFromStat_fst sys path .node true 0
      (getFromStat sys path .type true (getFromStat sys path .mode false err).2).2]
  cases h : vanished sys path with
  | true => simp only [fdFile, if_neg hmode, if_neg htype, if_neg hnode, safeReadlink_err.mpr h, if_true]
  | false =>
    have hlink : (safeReadlink sys path).2 ≠ 1 := by simp [safeReadlink_err, h]
    simp only [fdFile, if_neg hmode, if_neg htype, if_neg hnode, if_neg hlink, Bool.false_eq_true, if_false]

theorem iterateFdLoop_eq (names : List Text) (files : List File) (herr : err ≠ 1) :
    (iterateFdLoop sys fdPath names files err).1 =
      if (numeric names).any fun link => vanished sys (fdLink fdPath link) then []
      else files ++ (numeric names).map (fdEntry sys fdPath) := by
  unfold numeric
  induction names generalizing files err with
  | nil => simp [iterateFdLoop]
  | cons link rest ih =>
    rw [iterateFdLoop]
    by_cases hlink : isNumber link = true
    case neg => rw [if_neg hlink, List.filter_cons_of_neg hlink, ih files herr]
    case pos =>
      rw [if_pos hlink, List.filter_cons_of_pos hlink, List.any_cons, fdFile_eq sys fdPath link herr]
      cases h : vanished sys (fdLink fdPath link) with
      | true => rfl
      | false =>
        have hread : (safeReadlink sys (fdLink fdPath link)).2 ≠ 1 := by simp [safeReadlink_err, h]
        simp only [Bool.false_eq_true, if_false]
        rw [ih (files ++ [fdEntry sys fdPath link]) hread, Bool.false_or, List.map_cons, List.append_assoc]
        rfl

/-- **The descriptors are listed all or none**: a link that vanished loses them. -/
theorem iterateFd_eq {names : List Text} (h : sys.readdir fdPath = some names) :
    (iterateFd sys fdPath).1 =
      if (numeric names).any fun link => vanished sys (fdLink fdPath link) then []
      else (numeric names).map (fdEntry sys fdPath) := by
  simp only [iterateFd, h]
  exact iterateFdLoop_eq names [] (by decide)

theorem mem_iterateFd {file : File} (h : file ∈ (iterateFd sys fdPath).1) :
    ∃ link, isNumber link = true ∧ file = fdEntry sys fdPath link := by
  cases hdir : sys.readdir fdPath with
  | none =>
    simp only [iterateFd, hdir] at h
    cases h
  | some names =>
    rw [iterateFd_eq hdir] at h
    split at h
    · cases h
    · obtain ⟨link, hlink, rfl⟩ := List.mem_map.mp h
      exact ⟨link, (List.mem_filter.mp hlink).2, rfl⟩

/-- A descriptor's `fd` is a number and a mode, and none of the names that other files have. -/
theorem fdEntry_fd_ne {c : Char} {cs : Text} (hlink : isNumber link = true) (hc : isdigit c = false)
    (hcs : cs ≠ []) : (fdEntry sys fdPath link).fd ≠ c :: cs := by
  show link ++ (getFromStat sys (fdLink fdPath link) .mode false 0).1 ≠ c :: cs
  intro heq
  have hmode := getFromStat_mode_length sys (fdLink fdPath link) false 0
  cases link with
  | nil =>
    rw [List.nil_append] at heq
    rw [heq] at hmode
    exact hcs (List.eq_nil_of_length_eq_zero (Nat.le_zero.mp (Nat.le_of_succ_le_succ hmode)))
  | cons d link =>
    have hd : d = c := (List.cons.inj heq).1
    rw [isNumber, List.all_cons, hd, hc] at hlink
    cases hlink

/-! ### The process -/

theorem getMapsLoop_fd {ls : List Text} {files : List File} {pool : List Text}
    (h : ∀ f ∈ files, f.fd = "mem".toList) :
    ∀ f ∈ (getMapsLoop sys ls files err pool).1, f.fd = "mem".toList := by
  induction ls generalizing files err pool with
  | nil => exact h
  | cons l ls ih =>
    rw [getMapsLoop]
    generalize (if (mapWords l).isDeleted then ("DEL".toList, err)
      else getFromStat sys (mapWords l).name .type false err) = q
    dsimp only
    split
    · exact ih h
    split
    · exact fun f hf => absurd hf List.not_mem_nil
    split
    · exact ih h
    · refine ih fun f hf => ?_
      rcases List.mem_append.mp hf with hf | hf
      · exact h f hf
      · rw [List.mem_singleton.mp hf]

theorem getMaps_fd (sys : Sys) (pool : List Text) (path : Text) :
    ∀ f ∈ (getMaps sys pool path).1, f.fd = "mem".toList := by
  unfold getMaps
  split
  · exact fun f hf => absurd hf List.not_mem_nil
  · exact getMapsLoop_fd fun f hf => absurd hf List.not_mem_nil

/-- The files listed for the special links. -/
def specials (sys : Sys) (pidPath : Text) : List File :=
  specialFds.map fun p => entry sys (specialPath pidPath p) p.1

theorem iteratePid_vanished {user content : Text} (pool : List Text) (process : Process)
    (hcommand : sys.read (pidPath ++ "/comm".toList) = some content)
    (huser : getUser sys pidPath = .ok (user, 0))
    (h : ∃ p ∈ specialFds, vanished sys (specialPath pidPath p) = true) :
    ∃ p pool', iteratePid sys pool pidPath process = .ok (1, p, pool') := by
  have hcomm : getCommand sys pidPath = ((CLib.lines content).headD [], 0) := by rw [getCommand, hcommand]
  have hzero : ¬ (0 : Int) = 1 := by decide
  have hspecial := specialLoop_vanished process.files 0 [] h
  rw [iteratePid, hcomm, huser]
  simp only [bind, Except.bind, pure, Except.pure, if_neg hzero, hspecial, if_true]
  exact ⟨_, _, rfl⟩

/-- **What is kept** has the files of the special links, the mapped files and those of the
descriptors. -/
theorem iteratePid_kept {pool pool' : List Text} {pid : Text} {p : Process}
    (h : iteratePid sys pool pidPath { pid } = .ok (0, p, pool')) :
    (∀ q ∈ specialFds, vanished sys (specialPath pidPath q) = false) ∧ ∃ pool₁, p.files =
      specials sys pidPath ++ (getMaps sys pool₁ (pidPath ++ "/maps".toList)).1 ++
        (iterateFd sys (pidPath ++ "/fd".toList)).1 := by
  simp only [iteratePid, bind, Except.bind, pure, Except.pure] at h
  split at h
  · cases h
  split at h
  · cases h
  next _ r huser =>
  split at h
  · cases h
  next herr =>
  by_cases hlinks : ∃ q ∈ specialFds, vanished sys (specialPath pidPath q) = true
  case pos =>
    have hlost := specialLoop_vanished [] r.2 [] hlinks
    rw [if_pos hlost] at h
    simp [hlost] at h
  case neg =>
    have hnone : ∀ q ∈ specialFds, vanished sys (specialPath pidPath q) = false := by
      simpa using hlinks
    obtain ⟨err', pool₁, herr', hloop⟩ := specialLoop_entries [] [] herr hnone
    rw [hloop, if_neg herr'] at h
    dsimp only at h
    split at h
    · next hmaps =>
      rw [hmaps] at h
      simp at h
    · cases h
      exact ⟨hnone, pool₁, rfl⟩

end Apue.Lsof

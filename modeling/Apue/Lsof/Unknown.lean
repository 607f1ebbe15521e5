import Apue.Lsof.Entries
import Apue.Lsof.Table
import Apue.Lsof.Uid
import Apue.Transition.Run

/-! Processes that vanish while they are scanned.

`getFromStat` assigns to `errno` where it should compare, so that every failed `stat` is taken for a
missing permission. `honest_iff` says of a readable process when that makes no difference. -/
namespace Apue.Lsof
open CLib

/-! ### The processes that are collected -/

variable {sys : Sys} {f : Filter} {procPath pidPath pid first : Text}

/-- The process that a scan of `pid` keeps. -/
def scanned (sys : Sys) (procPath pid : Text) : Option Process :=
  match iteratePid sys [] (procPath ++ "/".toList ++ pid) { pid } with
  | .ok (err, p, _) => if err ≠ 1 then some p else none
  | .error _ => none

theorem iterateProcStep_processes {s t : Collected} (h : iterateProcStep sys f procPath s pid = .ok t) :
    t.processes = s.processes ++ ([pid].filter isNumber).filterMap (scanned sys procPath) := by
  unfold iterateProcStep at h
  by_cases hnumber : isNumber pid = true
  case neg =>
    rw [if_neg hnumber] at h
    cases h
    simp [hnumber]
  case pos =>
    -- the pool that is handed on is not read
    have hpool : iteratePid sys s.pool (procPath ++ "/".toList ++ pid) { pid } =
        iteratePid sys [] (procPath ++ "/".toList ++ pid) { pid } := rfl
    rw [if_pos hnumber, hpool] at h
    have hfilter : [pid].filter isNumber = [pid] := List.filter_cons_of_pos hnumber
    rw [hfilter, List.filterMap_cons, scanned, List.filterMap_nil]
    cases hscan : iteratePid sys [] (procPath ++ "/".toList ++ pid) { pid } with
    | error e =>
      rw [hscan] at h
      cases h
    | ok r =>
      obtain ⟨err, p, pool⟩ := r
      rw [hscan] at h
      dsimp only at h ⊢
      split at h
      · next herr =>
        cases h
        rw [if_pos herr]
      · next herr =>
        cases h
        rw [if_neg herr, List.append_nil]

/-- **What is collected**: the processes that the scans of the names keep, in order. -/
theorem iterateProc_processes {s t : Collected} {names : List Text} (hdir : sys.readdir procPath = some names)
    (h : iterateProc sys f procPath s = .ok t) :
    t.processes = s.processes ++ (numeric names).filterMap (scanned sys procPath) := by
  simp only [iterateProc, hdir] at h
  unfold numeric
  clear hdir
  induction names generalizing s with
  | nil =>
    cases h
    simp
  | cons pid names ih =>
    rw [List.foldlM_cons] at h
    obtain ⟨s', hstep, hrest⟩ := Transition.bind_ok.mp h
    rw [ih hrest, iterateProcStep_processes hstep, List.append_assoc, ← List.filterMap_append,
      ← List.filter_append]
    rfl

theorem iteratePid_pid {pool pool' : List Text} {err : Int} {process p : Process}
    (h : iteratePid sys pool pidPath process = .ok (err, p, pool')) : p.pid = process.pid := by
  simp only [iteratePid, bind, Except.bind, pure, Except.pure] at h
  repeat' split at h
  all_goals cases h
  all_goals rfl

theorem scanned_pid {p : Process} (h : scanned sys procPath pid = some p) : p.pid = pid := by
  unfold scanned at h
  split at h
  · next err q pool hscan =>
    split at h
    · cases h
      exact iteratePid_pid hscan
    · cases h
  · cases h

/-! ### Readable processes -/

/-- `comm` and `status` can be read, `maps` can be and maps no file, and the user exists. -/
structure Readable (sys : Sys) (pidPath first : Text) : Prop where
  comm : ∃ content, sys.read (pidPath ++ "/comm".toList) = some content
  status : ∃ content, sys.read (pidPath ++ "/status".toList) = some content ∧ Formatted content first
  id : number first < 2 ^ 32
  user : ∃ name, sys.getpwuid (number first) = some name
  maps : ∃ content, sys.read (pidPath ++ "/maps".toList) = some content ∧
    ∀ l ∈ lines content, ∀ w ∈ (words l)[4]?, w = "0".toList

@[simp] theorem MapWords.next_i (m : MapWords) (w : Text) : (m.next w).i = m.i + 1 := by
  unfold MapWords.next
  dsimp only
  repeat' split
  all_goals rfl

@[simp] theorem MapWords.next_isFile (m : MapWords) (w : Text) :
    (m.next w).isFile = if m.i = 4 ∧ w ≠ "0".toList then true else m.isFile := by
  unfold MapWords.next
  dsimp only
  repeat' split
  all_goals rfl

/-- After the word of the inode nothing makes a line a file. -/
theorem foldl_isFile (ws : List Text) {m : MapWords} (h : 5 ≤ m.i) :
    (ws.foldl MapWords.next m).isFile = m.isFile := by
  induction ws generalizing m with
  | nil => rfl
  | cons w ws ih =>
    rw [List.foldl_cons, ih (by rw [MapWords.next_i]; omega), MapWords.next_isFile, if_neg (by omega)]

theorem mapWords_isFile {l : Text} (h : ∀ w ∈ (words l)[4]?, w = "0".toList) :
    (mapWords l).isFile = false := by
  rw [mapWords]
  generalize words l = ws at h
  match ws with
  | [] => rfl
  | [_] => simp
  | [_, _] => simp
  | [_, _, _] => simp
  | [_, _, _, _] => simp
  | a :: b :: c :: d :: w :: rest =>
    have hw : w = "0".toList := h w rfl
    simp only [List.foldl_cons]
    rw [foldl_isFile rest (by simp)]
    simp [hw]

theorem getMapsLoop_noFile {ls : List Text} (h : ∀ l ∈ ls, ∀ w ∈ (words l)[4]?, w = "0".toList)
    (files : List File) (err : Int) (pool : List Text) :
    getMapsLoop sys ls files err pool = (files, err, pool) := by
  induction ls with
  | nil => rfl
  | cons l ls ih =>
    obtain ⟨hl, hls⟩ := List.forall_mem_cons.mp h
    rw [getMapsLoop, mapWords_isFile hl]
    exact ih hls

theorem Readable.getUser (h : Readable sys pidPath first) :
    (number first < 2 ^ 31 → ∃ user, Lsof.getUser sys pidPath = .ok (user, 0)) ∧
      (2 ^ 31 ≤ number first → Lsof.getUser sys pidPath = .error .outOfRange) := by
  obtain ⟨content, hread, hformatted⟩ := h.status
  obtain ⟨name, hname⟩ := h.user
  have huid := getUid_formatted hread hformatted
  constructor
  · intro hsmall
    rw [if_pos hsmall] at huid
    refine ⟨name, ?_⟩
    rw [Lsof.getUser, huid]
    simp [bind, Except.bind, pure, Except.pure, hname]
  · intro hlarge
    rw [if_neg (Nat.not_lt.mpr hlarge)] at huid
    rw [Lsof.getUser, huid]
    rfl

/-- A readable process whose links have not vanished is kept. -/
theorem Readable.kept (h : Readable sys pidPath first) (hsmall : number first < 2 ^ 31)
    (hlinks : ∀ q ∈ specialFds, vanished sys (specialPath pidPath q) = false) (pool : List Text) (pid : Text) :
    ∃ p pool', iteratePid sys pool pidPath { pid } = .ok (0, p, pool') := by
  obtain ⟨command, hcommand⟩ := h.comm
  obtain ⟨user, huser⟩ := h.getUser.1 hsmall
  obtain ⟨content, hread, hnoFile⟩ := h.maps
  have hcomm : getCommand sys pidPath = ((lines command).headD [], 0) := by rw [getCommand, hcommand]
  have hzero : ¬ (0 : Int) = 1 := by decide
  obtain ⟨err, pool₁, herr, hloop⟩ := specialLoop_entries [] [] hzero hlinks
  have hmaps : getMaps sys pool₁ (pidPath ++ "/maps".toList) = ([], 0, pool₁) := by
    simp only [getMaps, hread]
    exact getMapsLoop_noFile hnoFile [] 0 pool₁
  have hscan : iteratePid sys pool pidPath { pid } = .ok (0,
      { command := (lines command).headD [], pid, user, files := specials sys pidPath ++ [] ++
          (iterateFd sys (pidPath ++ "/fd".toList)).1 }, pool₁) := by
    rw [iteratePid, hcomm, huser]
    simp only [bind, Except.bind, pure, Except.pure, if_neg hzero, hloop, if_neg herr, hmaps]
    rfl
  exact ⟨_, _, hscan⟩

/-! ### What should be listed -/

def processPath (procPath pid : Text) : Text := procPath ++ "/".toList ++ pid

/-- A `stat` of the link fails with such a number. -/
def StatFails (sys : Sys) (path : Text) (P : Errno → Prop) : Prop :=
  ∃ target ∈ [Target.type, .node], ∃ errno, sys.stat target true path = .error errno ∧ P errno

/-- A `stat` fails that is not denied. -/
def Gone (sys : Sys) (pidPath : Text) : Prop :=
  ∃ q ∈ specialFds, StatFails sys (specialPath pidPath q) (· ≠ eacces)

/-- A `readlink` fails that is not denied. -/
def LinkGone (sys : Sys) (pidPath : Text) : Prop :=
  ∃ q ∈ specialFds, vanished sys (specialPath pidPath q) = true

/-- The file of a link is unknown exactly where a `stat` failed. -/
structure ShowsUnknown (sys : Sys) (pidPath : Text) (q : Text × Text) (file : File) : Prop where
  fd : file.fd = q.1
  unknown : file.type = "unknown".toList ∧ file.node = [] ↔
    StatFails sys (specialPath pidPath q) fun _ => True

/-- A process of which a `stat` is gone is not listed; one of which calls are only denied is, with
unknown files for those. -/
structure Honest (sys : Sys) (procPath pid : Text) : Prop where
  gone : Gone sys (processPath procPath pid) →
    (∀ pool, ∃ p pool', iteratePid sys pool (processPath procPath pid) { pid } = .ok (1, p, pool')) ∧
    ∀ f maxlen t, iterateProc sys f procPath { maxlen } = .ok t → ∀ p ∈ t.processes, p.pid ≠ pid
  denied : ¬ Gone sys (processPath procPath pid) → ¬ LinkGone sys (processPath procPath pid) →
    ∀ pool, ∃ p pool', iteratePid sys pool (processPath procPath pid) { pid } = .ok (0, p, pool') ∧
      List.Forall₂ (ShowsUnknown sys (processPath procPath pid)) specialFds (p.files.take 3) ∧
      ∀ f maxlen names t, sys.readdir procPath = some names → pid ∈ names →
        iterateProc sys f procPath { maxlen } = .ok t → p ∈ t.processes

/-- The two calls of `stat` fail together, or the node is all that a file of a type without a
name lacks. -/
def Agrees (sys : Sys) (path : Text) : Prop :=
  match sys.stat .type true path, sys.stat .node true path with
  | .ok _, .ok _ => True
  | .ok st, .error _ => typeOf st.st_mode = "unknown".toList
  | .error _, .ok _ => False
  | .error _, .error _ => True

/-! ### What is listed -/

theorem showsUnknown_iff (q : Text × Text) :
    ShowsUnknown sys pidPath q (entry sys (specialPath pidPath q) q.1) ↔ Agrees sys (specialPath pidPath q) := by
  have hiff : ShowsUnknown sys pidPath q (entry sys (specialPath pidPath q) q.1) ↔
      ((entry sys (specialPath pidPath q) q.1).type = "unknown".toList ∧
        (entry sys (specialPath pidPath q) q.1).node = [] ↔
      StatFails sys (specialPath pidPath q) fun _ => True) := ⟨fun h => h.unknown, fun h => ⟨rfl, h⟩⟩
  have hdecimal : ∀ n, decimal n ≠ [] := fun n => (decimal_isWord n).nonempty
  rw [hiff]
  generalize specialPath pidPath q = path
  cases htype : sys.stat .type true path with
  | ok st =>
    cases hnode : sys.stat .node true path with
    | ok st' => simp [entry, getFromStat, StatFails, Agrees, htype, hnode, hdecimal]
    | error e' => simp [entry, getFromStat, StatFails, Agrees, htype, hnode, eacces]
  | error e =>
    cases hnode : sys.stat .node true path with
    | ok st' => simp [entry, getFromStat, StatFails, Agrees, htype, hnode, hdecimal, eacces]
    | error e' => simp [entry, getFromStat, StatFails, Agrees, htype, hnode, eacces]

theorem not_listed (h : scanned sys procPath pid = none) {maxlen : Maxlen} {t : Collected}
    (hrun : iterateProc sys f procPath { maxlen } = .ok t) : ∀ p ∈ t.processes, p.pid ≠ pid := by
  cases hdir : sys.readdir procPath with
  | none =>
    rw [iterateProc, hdir] at hrun
    cases hrun
  | some names =>
    rw [iterateProc_processes hdir hrun, List.nil_append]
    rintro p hp rfl
    obtain ⟨name, -, hscanned⟩ := List.mem_filterMap.mp hp
    rw [scanned_pid hscanned, hscanned] at h
    cases h

theorem listed {p : Process} (hpid : isNumber pid = true) (h : scanned sys procPath pid = some p)
    {maxlen : Maxlen} {names : List Text} {t : Collected} (hdir : sys.readdir procPath = some names)
    (hmem : pid ∈ names) (hrun : iterateProc sys f procPath { maxlen } = .ok t) : p ∈ t.processes := by
  rw [iterateProc_processes hdir hrun, List.nil_append]
  exact List.mem_filterMap.mpr ⟨pid, List.mem_filter.mpr ⟨hmem, hpid⟩, h⟩

/-- A link that is gone ends the scan. -/
theorem honest_of_linkGone (h : Readable sys (processPath procPath pid) first) (hsmall : number first < 2 ^ 31)
    (hlink : LinkGone sys (processPath procPath pid)) : Honest sys procPath pid := by
  obtain ⟨command, hcommand⟩ := h.comm
  obtain ⟨user, huser⟩ := h.getUser.1 hsmall
  have hscan : ∀ pool, ∃ p pool', iteratePid sys pool (processPath procPath pid) { pid } = .ok (1, p, pool') :=
    fun pool => iteratePid_vanished pool _ hcommand huser hlink
  have hnone : scanned sys procPath pid = none := by
    obtain ⟨p, pool', hp⟩ := hscan []
    rw [processPath] at hp
    rw [scanned, hp]
    rfl
  exact ⟨fun _ => ⟨hscan, fun f maxlen t hrun => not_listed hnone hrun⟩,
    fun _ hnot => absurd hlink hnot⟩

/-- Where no link is gone the process is kept. -/
theorem honest_iff_of_kept (hpid : isNumber pid = true) (h : Readable sys (processPath procPath pid) first)
    (hsmall : number first < 2 ^ 31) (hlink : ¬ LinkGone sys (processPath procPath pid)) :
    Honest sys procPath pid ↔ ¬ Gone sys (processPath procPath pid) ∧
      ∀ q ∈ specialFds, Agrees sys (specialPath (processPath procPath pid) q) := by
  have hnone : ∀ q ∈ specialFds, vanished sys (specialPath (processPath procPath pid) q) = false := by
    simpa [LinkGone] using hlink
  have hkept := h.kept hsmall hnone
  have hspecials : ∀ {p pool pool'}, iteratePid sys pool (processPath procPath pid) { pid } = .ok (0, p, pool') →
      (List.Forall₂ (ShowsUnknown sys (processPath procPath pid)) specialFds (p.files.take 3) ↔
        ∀ q ∈ specialFds, Agrees sys (specialPath (processPath procPath pid) q)) := by
    intro p pool pool' hscan
    obtain ⟨-, pool₁, hfiles⟩ := iteratePid_kept hscan
    have htake : p.files.take 3 = specials sys (processPath procPath pid) := by
      rw [hfiles, List.append_assoc]
      rfl
    rw [htake, specials, List.forall₂_map_right_iff, List.forall₂_same]
    exact forall₂_congr fun q _ => showsUnknown_iff q
  constructor
  · intro hhonest
    have hgone : ¬ Gone sys (processPath procPath pid) := by
      intro hgone
      obtain ⟨p, pool', hscan⟩ := hkept [] pid
      obtain ⟨p₁, pool₁, hscan₁⟩ := (hhonest.gone hgone).1 []
      rw [hscan] at hscan₁
      simp at hscan₁
    obtain ⟨p, pool', hscan, hshows, -⟩ := hhonest.denied hgone hlink []
    exact ⟨hgone, (hspecials hscan).mp hshows⟩
  · intro ⟨hgone, hagrees⟩
    refine ⟨fun h => absurd h hgone, fun _ _ pool => ?_⟩
    obtain ⟨p, pool', hscan⟩ := hkept pool pid
    have hscanned : scanned sys procPath pid = some p := by
      have hscan' : iteratePid sys [] (procPath ++ "/".toList ++ pid) { pid } = .ok (0, p, pool') := hscan
      rw [scanned, hscan']
      rfl
    exact ⟨p, pool', hscan, (hspecials hscan).mpr hagrees,
      fun f maxlen names t hdir hmem hrun => listed hpid hscanned hdir hmem hrun⟩

/-- An id that `stoi` does not read ends the program. -/
theorem honest_iff_of_thrown (h : Readable sys (processPath procPath pid) first)
    (hlarge : 2 ^ 31 ≤ number first) : Honest sys procPath pid ↔
      ¬ Gone sys (processPath procPath pid) ∧ LinkGone sys (processPath procPath pid) := by
  obtain ⟨command, hcommand⟩ := h.comm
  have hcomm : getCommand sys (processPath procPath pid) = ((lines command).headD [], 0) := by
    rw [getCommand, hcommand]
  have hthrown : ∀ pool, iteratePid sys pool (processPath procPath pid) { pid } = .error .outOfRange := by
    intro pool
    rw [iteratePid, hcomm, h.getUser.2 hlarge]
    rfl
  constructor
  · intro hhonest
    have hgone : ¬ Gone sys (processPath procPath pid) := by
      intro hgone
      obtain ⟨p, pool', hscan⟩ := (hhonest.gone hgone).1 []
      rw [hthrown] at hscan
      cases hscan
    refine ⟨hgone, ?_⟩
    by_contra hlink
    obtain ⟨p, pool', hscan, -⟩ := hhonest.denied hgone hlink []
    rw [hthrown] at hscan
    cases hscan
  · intro hends
    obtain ⟨hgone, hlink⟩ := hends
    exact ⟨fun h => absurd h hgone, fun _ hnot => absurd hlink hnot⟩

/-- **Only what is denied is unknown, exactly when** a link is gone that can be read no more, or
no `stat` is gone and those of each link agree; and with an id that `stoi` does not read, exactly
when a link is gone and no `stat` is. -/
theorem honest_iff (hpid : isNumber pid = true) (h : Readable sys (processPath procPath pid) first) :
    Honest sys procPath pid ↔
      if number first < 2 ^ 31 then
        LinkGone sys (processPath procPath pid) ∨ ¬ Gone sys (processPath procPath pid) ∧
          ∀ q ∈ specialFds, Agrees sys (specialPath (processPath procPath pid) q)
      else ¬ Gone sys (processPath procPath pid) ∧ LinkGone sys (processPath procPath pid) := by
  by_cases hsmall : number first < 2 ^ 31
  case pos =>
    rw [if_pos hsmall]
    by_cases hlink : LinkGone sys (processPath procPath pid)
    · exact iff_of_true (honest_of_linkGone h hsmall hlink) (.inl hlink)
    · rw [or_iff_right hlink]
      exact honest_iff_of_kept hpid h hsmall hlink
  case neg =>
    rw [if_neg hsmall]
    exact honest_iff_of_thrown h (Nat.not_lt.mp hsmall)

/-! ### A process without an executable -/

/-- A process, where `answer` is what `stat` has for `exe`. -/
def exeSys (answer : Except Errno Stat) : Sys where
  read path :=
    if path = "/proc/1/comm".toList then some "cat\n".toList
    else if path = "/proc/1/status".toList then some "Uid:\t0\n".toList
    else if path = "/proc/1/maps".toList then some []
    else none
  readlink _ := .ok "/".toList
  stat _ _ path := if path = "/proc/1/exe".toList then answer else .ok ⟨0o040755, 2⟩
  getpwuid _ := some "root".toList
  readdir path := if path = "/proc".toList then some ["1".toList] else none

theorem exeSys_readable (answer : Except Errno Stat) :
    Readable (exeSys answer) (processPath "/proc".toList "1".toList) "0".toList where
  comm := ⟨_, rfl⟩
  status := by
    refine ⟨_, rfl, "Uid:\t0".toList, by decide, ?_⟩
    refine ⟨by decide, [], ?_, ?_⟩
    · decide
    · decide
  id := by decide
  user := ⟨_, rfl⟩
  maps := ⟨_, rfl, nofun⟩

theorem exeSys_link (answer : Except Errno Stat) :
    ¬ LinkGone (exeSys answer) (processPath "/proc".toList "1".toList) := by
  rintro ⟨q, -, h⟩
  cases h

theorem honest_denied : Honest (exeSys (.error eacces)) "/proc".toList "1".toList := by
  refine (honest_iff (by decide) (exeSys_readable _)).mpr ?_
  rw [if_pos (by decide)]
  refine .inr ⟨?_, ?_⟩
  · rintro ⟨q, -, target, -, errno, hstat, hne⟩
    simp only [exeSys] at hstat
    split at hstat
    · cases hstat
      exact hne rfl
    · cases hstat
  · intro q _
    show Agrees (exeSys (.error eacces)) _
    unfold Agrees exeSys
    dsimp only
    by_cases hexe : specialPath (processPath "/proc".toList "1".toList) q = "/proc/1/exe".toList
    · rw [if_pos hexe]
      trivial
    · rw [if_neg hexe]
      trivial

/-- The process has gone, and is listed. -/
theorem honest_vanished : Readable (exeSys (.error 2)) (processPath "/proc".toList "1".toList) "0".toList ∧
    Gone (exeSys (.error 2)) (processPath "/proc".toList "1".toList) ∧
    ¬ Honest (exeSys (.error 2)) "/proc".toList "1".toList := by
  have hgone : Gone (exeSys (.error 2)) (processPath "/proc".toList "1".toList) :=
    ⟨("txt".toList, "exe".toList), by decide, .type, by decide, 2, rfl, by decide⟩
  refine ⟨exeSys_readable _, hgone, fun h => ?_⟩
  exact ((honest_iff_of_kept (by decide) (exeSys_readable _) (by decide) (exeSys_link _)).mp h).1 hgone

end Apue.Lsof

import Apue.Lsof.Entries

/-! The descriptors of a process.

One descriptor whose link vanished loses those that are listed before it and those that would be after
it, so that `unhidden_iff`: no descriptor is hidden by another exactly when no link vanished, or
there is nothing to hide. -/
namespace Apue.Lsof

/-- Each call that is made for the descriptor succeeds. -/
def succeeds (sys : Sys) (path : Text) : Bool :=
  (sys.stat .mode false path).isOk && (sys.stat .type true path).isOk &&
    (sys.stat .node true path).isOk && (sys.readlink path).isOk

/-- Each descriptor whose calls succeed is listed, in the order of the directory. -/
def Unhidden (sys : Sys) (fdPath : Text) (names : List Text) (p : Process) : Prop :=
  (((numeric names).filter fun link => succeeds sys (fdLink fdPath link)).map (fdEntry sys fdPath)).Sublist
    p.files

variable {sys : Sys} {pidPath fdPath link : Text} {names : List Text}

theorem fdEntry_notMem_specials (hlink : isNumber link = true) :
    fdEntry sys fdPath link ∉ specials sys pidPath := by
  intro hmem
  obtain ⟨q, hq, heq⟩ := List.mem_map.mp hmem
  have hfd : (fdEntry sys fdPath link).fd = q.1 := by rw [← heq]; rfl
  simp only [specialFds, List.mem_cons, List.not_mem_nil, or_false] at hq
  rcases hq with rfl | rfl | rfl
  all_goals exact fdEntry_fd_ne hlink (by decide) (by decide) hfd

theorem fdEntry_notMem_maps (hlink : isNumber link = true) (pool : List Text) (mapPath : Text) :
    fdEntry sys fdPath link ∉ (getMaps sys pool mapPath).1 := fun hmem =>
  fdEntry_fd_ne hlink (by decide) (by decide) (getMaps_fd sys pool mapPath _ hmem)

/-- **A descriptor hides no other exactly when no link vanished**, or no descriptor's calls
succeed. -/
theorem unhidden_iff {pool pool' : List Text} {pid : Text} {p : Process}
    (h : iteratePid sys pool pidPath { pid } = .ok (0, p, pool'))
    (hnames : sys.readdir (pidPath ++ "/fd".toList) = some names) :
    Unhidden sys (pidPath ++ "/fd".toList) names p ↔
      (∀ link ∈ numeric names, vanished sys (fdLink (pidPath ++ "/fd".toList) link) = false) ∨
      ∀ link ∈ numeric names, succeeds sys (fdLink (pidPath ++ "/fd".toList) link) = false := by
  obtain ⟨-, pool₁, hfiles⟩ := iteratePid_kept h
  rw [Unhidden, hfiles, iterateFd_eq hnames]
  generalize pidPath ++ "/fd".toList = fdPath
  constructor
  · intro hsub
    by_contra hnot
    obtain ⟨hvanished, hsucceeds⟩ := not_or.mp hnot
    push Not at hvanished hsucceeds
    obtain ⟨link, hlink, hgone⟩ := hvanished
    obtain ⟨shown, hshown, hok⟩ := hsucceeds
    have hany : (numeric names).any (fun link => vanished sys (fdLink fdPath link)) = true :=
      List.any_eq_true.mpr ⟨link, hlink, by simpa using hgone⟩
    rw [if_pos hany, List.append_nil] at hsub
    have hnumber : isNumber shown = true := (List.mem_filter.mp hshown).2
    have hmem := hsub.subset (List.mem_map_of_mem (List.mem_filter.mpr ⟨hshown, by simpa using hok⟩))
    rcases List.mem_append.mp hmem with hmem | hmem
    · exact fdEntry_notMem_specials hnumber hmem
    · exact fdEntry_notMem_maps hnumber _ _ hmem
  · rintro (hkept | hnone)
    · have hany : ¬ (numeric names).any (fun link => vanished sys (fdLink fdPath link)) = true := by
        simpa using hkept
      rw [if_neg hany]
      exact List.sublist_append_of_sublist_right (List.filter_sublist.map _)
    · have hfilter : ((numeric names).filter fun link => succeeds sys (fdLink fdPath link)) = [] :=
        List.filter_eq_nil_iff.mpr fun link hlink => by simp [hnone link hlink]
      rw [hfilter]
      exact List.nil_sublist _

/-! ### Three descriptors -/

def fdNames : List Text := ["0".toList, ".".toList, "1".toList, "2".toList]

/-- A process with three descriptors, where `second` is what `readlink` has for the second. -/
def fdSys (second : Except Errno Text) : Sys where
  read path :=
    if path = "/proc/1/comm".toList then some "cat\n".toList
    else if path = "/proc/1/status".toList then some "Uid:\t0\n".toList
    else if path = "/proc/1/maps".toList then some []
    else none
  readlink path := if path = "/proc/1/fd/1".toList then second else .ok "/dev/null".toList
  stat _ _ _ := .ok ⟨0o020600, 5⟩
  getpwuid _ := some "root".toList
  readdir _ := some fdNames

instance (sys : Sys) (fdPath : Text) (names : List Text) (p : Process) :
    Decidable (Unhidden sys fdPath names p) :=
  inferInstanceAs (Decidable (List.Sublist _ _))

/-- What a computed check says of a process that is kept. -/
theorem exists_kept (sys : Sys) (P : Process → Prop) [DecidablePred P]
    (h : (iteratePid sys [] "/proc/1".toList { pid := ['1'] }).toOption.any
      (fun r => r.1 == 0 && decide (P r.2.1)) = true) :
    ∃ p pool', iteratePid sys [] "/proc/1".toList { pid := ['1'] } = .ok (0, p, pool') ∧ P p := by
  cases hscan : iteratePid sys [] "/proc/1".toList { pid := ['1'] } with
  | error e =>
    rw [hscan] at h
    cases h
  | ok r =>
    obtain ⟨err, p, pool'⟩ := r
    rw [hscan] at h
    obtain ⟨herr, hcheck⟩ := Bool.and_eq_true_iff.mp h
    have hzero : err = 0 := eq_of_beq herr
    exact ⟨p, pool', by rw [hzero], of_decide_eq_true hcheck⟩

theorem unhidden_eacces : ∃ p pool', iteratePid (fdSys (.error eacces)) [] "/proc/1".toList { pid := ['1'] } =
    .ok (0, p, pool') ∧ Unhidden (fdSys (.error eacces)) "/proc/1/fd".toList fdNames p := by
  obtain ⟨p, pool', h, -⟩ := exists_kept (fdSys (.error eacces)) (fun _ => True) (by decide +kernel)
  exact ⟨p, pool', h, (unhidden_iff h rfl).mpr (.inl (by decide +kernel))⟩

/-- Descriptor 1 was closed, which hides 0 and 2. -/
theorem hidden_enoent : ∃ p pool', iteratePid (fdSys (.error 2)) [] "/proc/1".toList { pid := ['1'] } =
    .ok (0, p, pool') ∧ (fdSys (.error 2)).readdir "/proc/1/fd".toList = some fdNames ∧
      ¬ Unhidden (fdSys (.error 2)) "/proc/1/fd".toList fdNames p := by
  obtain ⟨p, pool', h, hcheck⟩ := exists_kept (fdSys (.error 2))
    (fun p => ¬ Unhidden (fdSys (.error 2)) "/proc/1/fd".toList fdNames p) (by decide +kernel)
  exact ⟨p, pool', h, rfl, hcheck⟩

end Apue.Lsof

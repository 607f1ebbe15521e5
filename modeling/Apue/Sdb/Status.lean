import Apue.Sdb.Fragment

/-! The status the debugger believes in.

Four places write `conf.status` and none of them asks the others: `start` says RUNNING
after its own wait, whatever that wait reported, and a wait that reports a death by
signal says nothing. `status_iff`: along any session the status is true at every
prompt exactly when the child never dies in one of the ways those places miss. -/
namespace Apue.Sdb
open Memory CLib Transition

variable {ρ : Type}

/-- There is a child, alive and stopped under trace. -/
def Live (s : State ρ) : Prop := ∃ c, s.proc = .stopped c

structure StatusTrue (s : State ρ) : Prop where
  running : s.conf.status = .running ↔ Live s
  loaded : s.conf.status = .loaded ↔ s.conf.program ≠ "" ∧ ¬ Live s
  notLoaded : s.conf.status = .notLoaded ↔ s.conf.program = "" ∧ ¬ Live s

/-- The program name is kept for as long as a program is loaded. -/
def NameKept (s : State ρ) : Prop := s.conf.status ≠ .notLoaded → s.conf.program ≠ ""

/-- The same status, program and liveness. -/
structure Alike (s t : State ρ) : Prop where
  status : t.conf.status = s.conf.status
  program : t.conf.program = s.conf.program
  live : Live t ↔ Live s

theorem Alike.nameKept {s t : State ρ} (h : Alike s t) : NameKept t ↔ NameKept s := by
  rw [NameKept, NameKept, h.status, h.program]

theorem Alike.statusTrue {s t : State ρ} (h : Alike s t) : StatusTrue t ↔ StatusTrue s := by
  have hs := h.status
  have hp := h.program
  have hl := h.live
  constructor
  · rintro ⟨hr, hld, hn⟩
    rw [hs, hl] at hr
    rw [hs, hp, hl] at hld hn
    exact ⟨hr, hld, hn⟩
  · rintro ⟨hr, hld, hn⟩
    refine ⟨?_, ?_, ?_⟩
    · rw [hs, hl]
      exact hr
    · rw [hs, hp, hl]
      exact hld
    · rw [hs, hp, hl]
      exact hn

theorem Alike.of_shows {s t : State ρ} (h : Shows s t) : Alike s t := by
  obtain ⟨lines, rfl⟩ := h
  exact ⟨rfl, rfl, Iff.rfl⟩

theorem Alike.of_stopped {s t : State ρ} {c c' : Child ρ} (hs : s.proc = .stopped c)
    (ht : t.proc = .stopped c') (hstatus : t.conf.status = s.conf.status)
    (hprogram : t.conf.program = s.conf.program) : Alike s t :=
  ⟨hstatus, hprogram, fun _ => ⟨c, hs⟩, fun _ => ⟨c', ht⟩⟩

theorem not_live_of_gone {s : State ρ} (h : s.proc = .gone) : ¬ Live s := by
  rintro ⟨c, hc⟩
  rw [h] at hc
  cases hc

/-! ### The status that fits -/

theorem statusTrue_running {s : State ρ} (hr : s.conf.status = .running) :
    StatusTrue s ↔ Live s := by
  refine ⟨fun h => h.running.mp hr, fun hl => ⟨?_, ?_, ?_⟩⟩ <;> simp [hr, hl]

theorem statusTrue_loaded {s : State ρ} (hs : s.conf.status = .loaded)
    (hp : s.conf.program ≠ "") : StatusTrue s ↔ ¬ Live s := by
  refine ⟨fun h => (h.loaded.mp hs).2, fun hl => ⟨?_, ?_, ?_⟩⟩ <;> simp [hs, hp, hl]

theorem statusTrue_notLoaded {s : State ρ} (hs : s.conf.status = .notLoaded)
    (hp : s.conf.program = "") : StatusTrue s ↔ ¬ Live s := by
  refine ⟨fun h => (h.notLoaded.mp hs).2, fun hl => ⟨?_, ?_, ?_⟩⟩ <;> simp [hs, hp, hl]

/-! ### Waits -/

theorem resetbreak_alike {w : World ρ} {s t : State ρ} (h : resetbreak w s = .ok t) :
    Alike s t := by
  rcases resetbreak_cases h with ⟨-, rfl⟩ | ⟨bp, c, -, -, hc, -, rfl⟩
  · exact ⟨rfl, rfl, Iff.rfl⟩
  · exact Alike.of_stopped hc rfl rfl rfl

theorem restoreifbreak_alike {w : World ρ} {cont : Bool} {s t : State ρ}
    (hl : Live s) (h : restoreifbreak w cont s = .ok t) : Alike s t := by
  obtain ⟨c, hc⟩ := hl
  rcases restoreifbreak_cases hc h with ⟨-, rfl⟩ | ⟨rid, bp, out, -, -, -, rfl⟩
  · exact ⟨rfl, rfl, Iff.rfl⟩
  · exact Alike.of_stopped hc rfl rfl rfl

/-- A wait that reports a stop leaves a live child and the status as it was. -/
theorem waitstatus_stopped_alike {w : World ρ} {cont : Bool} {c : Child ρ} {s : State ρ}
    {r : Reply ρ} (h : waitstatus w cont (.stopped c) s = .ok r) :
    Live r.2 ∧ r.2.conf.status = s.conf.status ∧ r.2.conf.program = s.conf.program := by
  obtain ⟨-, out, t, ht, hr⟩ := waitstatus_stopped h
  have hreset := resetbreak_alike ht
  have hl : Live t := hreset.live.mpr ⟨c, rfl⟩
  have hrestore := restoreifbreak_alike hl hr
  exact ⟨hrestore.live.mpr hl, hrestore.status.trans hreset.status,
    hrestore.program.trans hreset.program⟩

theorem waitstatus_exited {w : World ρ} {cont : Bool} {code : Byte} {s : State ρ} {r : Reply ρ}
    (h : waitstatus w cont (.exited code) s = .ok r) :
    r.2.proc = .gone ∧ r.2.conf.status = .loaded ∧ r.2.conf.program = s.conf.program := by
  rw [← Except.ok.inj h]
  exact ⟨rfl, rfl, rfl⟩

/-- A wait that reports a death by signal leaves the status as it was. -/
theorem waitstatus_signaled {w : World ρ} {cont : Bool} {s : State ρ} {r : Reply ρ}
    (h : waitstatus w cont .signaled s = .ok r) :
    r.2.proc = .gone ∧ r.2.conf.status = s.conf.status ∧ r.2.conf.program = s.conf.program := by
  rw [← Except.ok.inj h]
  exact ⟨rfl, rfl, rfl⟩

/-- After a wait the status is true exactly when no signal killed the child. -/
theorem waitstatus_true {w : World ρ} {cont : Bool} {wt : Wait ρ} {s : State ρ} {r : Reply ρ}
    (hr : s.conf.status = .running) (hn : NameKept s) (h : waitstatus w cont wt s = .ok r) :
    NameKept r.2 ∧ (StatusTrue r.2 ↔ wt ≠ .signaled) := by
  have hp : s.conf.program ≠ "" := hn (by rw [hr]; decide)
  cases wt with
  | stopped c =>
    obtain ⟨hl, hstatus, hprogram⟩ := waitstatus_stopped_alike h
    have htrue := (statusTrue_running (hstatus.trans hr)).mpr hl
    exact ⟨fun _ => by rw [hprogram]; exact hp, fun _ => nofun, fun _ => htrue⟩
  | exited code =>
    obtain ⟨hgone, hstatus, hprogram⟩ := waitstatus_exited h
    rw [← hprogram] at hp
    have htrue := (statusTrue_loaded hstatus hp).mpr (not_live_of_gone hgone)
    exact ⟨fun _ => hp, fun _ => nofun, fun _ => htrue⟩
  | signaled =>
    obtain ⟨hgone, hstatus, hprogram⟩ := waitstatus_signaled h
    rw [← hprogram] at hp
    have hfalse := fun ht => not_live_of_gone hgone ((statusTrue_running (hstatus.trans hr)).mp ht)
    exact ⟨fun _ => hp, fun ht => absurd ht hfalse, fun hne => absurd rfl hne⟩

/-! ### Commands -/

/-- Resuming the child in `s` ends in its death by a signal. -/
def Slain (w : World ρ) (single : Bool) (r : Resume) (s : State ρ) : Prop :=
  resume w single r s = .ok .signaled

theorem cont_true {w : World ρ} {res : Resume} {s : State ρ} {r : Reply ρ} (hn : NameKept s)
    (ht : StatusTrue s) (h : cont w res s = .ok r) :
    NameKept r.2 ∧ (StatusTrue r.2 ↔ (s.conf.status = .running → ¬ Slain w false res s)) := by
  rcases cont_cases h with ⟨hno, hshows⟩ | ⟨hr, wt, hwt, h⟩
  · have halike := Alike.of_shows hshows
    exact ⟨halike.nameKept.mpr hn, fun _ hr => absurd hr hno, fun _ => halike.statusTrue.mpr ht⟩
  · obtain ⟨hname, htrue⟩ := waitstatus_true hr hn h
    refine ⟨hname, htrue.trans ?_⟩
    simp [hr, Slain, hwt]

theorem si_true {w : World ρ} {res : Resume} {s : State ρ} {r : Reply ρ} (hn : NameKept s)
    (ht : StatusTrue s) (h : si w res s = .ok r) :
    NameKept r.2 ∧ (StatusTrue r.2 ↔ (s.conf.status = .running → ¬ Slain w true res s)) := by
  rcases si_cases h with ⟨hno, hshows⟩ | ⟨hr, c, wt, -, hwt, h⟩
  · have halike := Alike.of_shows hshows
    exact ⟨halike.nameKept.mpr hn, fun _ hr => absurd hr hno, fun _ => halike.statusTrue.mpr ht⟩
  · obtain ⟨hname, htrue⟩ := waitstatus_true hr hn h
    refine ⟨hname, htrue.trans ?_⟩
    simp [hr, Slain, hwt]

/-- `setallbreak` needs a child for every breakpoint, and writes into the child only. -/
theorem setallbreak_alike {w : World ρ} {s t : State ρ} (h : setallbreak w s = .ok t) :
    Alike s t := by
  by_cases hl : Live s
  · obtain ⟨c, hc⟩ := hl
    rw [setallbreak_stopped h hc]
    exact Alike.of_stopped hc rfl rfl rfl
  · rw [(setallbreak_absent h fun c hc => hl ⟨c, hc⟩).2]
    exact ⟨rfl, rfl, Iff.rfl⟩

/-- `start` always ends with RUNNING, whether or not there is a child. -/
theorem start_ends {w : World ρ} {e : Spawn} {s t : State ρ} {ret : Int}
    (hs : s.conf.status = .loaded) (h : start w e s = .ok (ret, t)) :
    t.conf.status = .running ∧ t.conf.program = s.conf.program ∧
      (e.result = .execd ∧ ret = 0 ∧ Live t ∨ e.result ≠ .execd ∧ t.proc = .gone) := by
  rcases start_cases h with ⟨hno, -⟩ | ⟨-, hfork, ret', t', out, u, hwait, hset, he⟩
  · exact absurd hs hno
  obtain ⟨rfl, rfl⟩ := Prod.mk.inj he
  have halike := setallbreak_alike hset
  have habsent : t'.proc = .gone → u.proc = .gone := by
    intro hgone
    have hnone : ∀ c, t'.proc ≠ .stopped c := fun c hc => not_live_of_gone hgone ⟨c, hc⟩
    rw [(setallbreak_absent hset hnone).2]
    exact hgone
  cases hres : e.result with
  | forkFailed => exact absurd hres hfork
  | execd =>
    rw [hres] at hwait
    obtain ⟨hl, -, hprogram⟩ := waitstatus_stopped_alike hwait
    have hret := (waitstatus_stopped hwait).1
    exact ⟨rfl, halike.program.trans hprogram, .inl ⟨rfl, hret, halike.live.mpr hl⟩⟩
  | execFailed =>
    rw [hres] at hwait
    obtain ⟨hgone, -, hprogram⟩ := waitstatus_exited hwait
    exact ⟨rfl, halike.program.trans hprogram, .inr ⟨nofun, habsent hgone⟩⟩
  | killed =>
    rw [hres] at hwait
    obtain ⟨hgone, -, hprogram⟩ := waitstatus_signaled hwait
    exact ⟨rfl, halike.program.trans hprogram, .inr ⟨nofun, habsent hgone⟩⟩

/-- RUNNING is true after `start` when the child stopped in its image, and only then. -/
theorem start_true {w : World ρ} {e : Spawn} {s : State ρ} {r : Reply ρ} (hn : NameKept s)
    (ht : StatusTrue s) (h : start w e s = .ok r) :
    NameKept r.2 ∧ (StatusTrue r.2 ↔ (s.conf.status = .loaded → e.result = .execd)) := by
  by_cases hs : s.conf.status = .loaded
  · obtain ⟨hrun, hprogram, hend⟩ := start_ends hs h
    have hp : s.conf.program ≠ "" := hn (by rw [hs]; decide)
    rw [← hprogram] at hp
    refine ⟨fun _ => hp, (statusTrue_running hrun).trans ?_⟩
    rcases hend with ⟨hexec, -, hl⟩ | ⟨hexec, hgone⟩
    · simp [hexec, hl]
    · simp [hs, hexec, not_live_of_gone hgone]
  · rcases start_cases h with ⟨-, hshows⟩ | ⟨hloaded, -⟩
    · have halike := Alike.of_shows hshows
      exact ⟨halike.nameKept.mpr hn, fun _ hl => absurd hl hs, fun _ => halike.statusTrue.mpr ht⟩
    · exact absurd hloaded hs

/-- There is nothing to resume without a child. -/
theorem cont_gone {w : World ρ} {res : Resume} {s : State ρ} {r : Reply ρ}
    (hs : s.conf.status = .running) (hgone : s.proc = .gone) : cont w res s ≠ .ok r := by
  intro h
  rcases cont_cases h with ⟨hno, -⟩ | ⟨-, wt, hwt, -⟩
  · exact hno hs
  · simp only [resume, hgone] at hwt
    cases hwt

/-! ### Sessions -/

/-- The steps after which the status still tells the truth: the program is executed,
and no signal kills the child. -/
def Survives (w : World ρ) (s : State ρ) : Action → Prop
  | .killed => ¬ Live s
  | .command .start e => s.conf.status = .loaded → e.spawn.result = .execd
  | .command .si e => s.conf.status = .running → ¬ Slain w true e.resume s
  | .command .cont e => s.conf.status = .running → ¬ Slain w false e.resume s
  | .command .run e =>
    (s.conf.status = .running → ¬ Slain w false e.resume s) ∧
    (s.conf.status = .loaded → e.spawn.result = .execd ∧
      ∀ ret t, start w e.spawn s = .ok (ret, t) → ¬ Slain w false e.resume t)
  | _ => True

theorem run_true {w : World ρ} {e : Env} {s : State ρ} {r : Reply ρ} (hn : NameKept s)
    (ht : StatusTrue s) (h : run w e s = .ok r) :
    NameKept r.2 ∧ (StatusTrue r.2 ↔ Survives w s (.command .run e)) := by
  rcases run_cases h with ⟨hs, hshows⟩ | ⟨hs, out, hcont⟩ | ⟨hs, ret, t, hstart, hret⟩
  · have halike := Alike.of_shows hshows
    refine ⟨halike.nameKept.mpr hn, fun _ => ⟨?_, ?_⟩, fun _ => halike.statusTrue.mpr ht⟩ <;>
      simp [hs]
  · have hn' : NameKept { s with out := out } := hn
    have ht' : StatusTrue { s with out := out } := ⟨ht.running, ht.loaded, ht.notLoaded⟩
    obtain ⟨hname, htrue⟩ := cont_true hn' ht' hcont
    refine ⟨hname, htrue.trans ?_⟩
    have hslain : Slain w false e.resume { s with out := out } ↔ Slain w false e.resume s := Iff.rfl
    simp [Survives, hs, hslain]
  · obtain ⟨hname, htrue⟩ := start_true hn ht hstart
    obtain ⟨hrun, -, hend⟩ := start_ends hs hstart
    have hslain : ∀ P : State ρ → Prop,
        (∀ ret t, start w e.spawn s = .ok (ret, t) → P t) ↔ P t := by
      intro P
      refine ⟨fun hall => hall ret t hstart, fun hP ret' t' ht' => ?_⟩
      rw [(Prod.mk.inj (Except.ok.inj (ht'.symm.trans hstart))).2]
      exact hP
    have hsurvives : Survives w s (.command .run e) ↔
        e.spawn.result = .execd ∧ ¬ Slain w false e.resume t := by
      simp [Survives, hs, hslain fun t => ¬ Slain w false e.resume t]
    rw [hsurvives]
    rcases hret with ⟨hneg, rfl⟩ | ⟨hpos, hcont⟩
    · refine ⟨hname, fun htr => ?_, fun ⟨hexec, _⟩ => htrue.mpr fun _ => hexec⟩
      rcases hend with ⟨-, hzero, -⟩ | ⟨hexec, -⟩
      · omega
      · exact absurd (htrue.mp htr hs) hexec
    · rcases hend with ⟨hexec, -, hl⟩ | ⟨-, hgone⟩
      · obtain ⟨hname', htrue'⟩ := cont_true hname ((statusTrue_running hrun).mpr hl) hcont
        refine ⟨hname', htrue'.trans ?_⟩
        simp [hrun, hexec]
      · exact absurd hcont (cont_gone hrun hgone)

/-- `load` writes the status and the name together. -/
theorem load_true {w : World ρ} {program : String} {s : State ρ} {r : Reply ρ} (hn : NameKept s)
    (ht : StatusTrue s) (h : load w program s = .ok r) : NameKept r.2 ∧ StatusTrue r.2 := by
  rcases load_cases h with hshows | ⟨hs, out, hr | ⟨hfile, entrypoint, textsize, hr⟩⟩
  · have halike := Alike.of_shows hshows
    exact ⟨halike.nameKept.mpr hn, halike.statusTrue.mpr ht⟩
  · have hl : ¬ Live r.2 := by
      rw [hr]
      exact (ht.notLoaded.mp hs).2
    have hstatus : r.2.conf.status = .notLoaded := by rw [hr]; exact hs
    exact ⟨fun hne => absurd hstatus hne, (statusTrue_notLoaded hstatus (by rw [hr])).mpr hl⟩
  · have hl : ¬ Live r.2 := by
      rw [hr]
      exact (ht.notLoaded.mp hs).2
    have hp : r.2.conf.program ≠ "" := by
      rw [hr]
      rintro rfl
      rw [w.file_empty] at hfile
      cases hfile
    exact ⟨fun _ => hp, (statusTrue_loaded (by rw [hr]) hp).mpr hl⟩

theorem handle_true {w : World ρ} {e : Env} {c : Command} {s : State ρ} {r : Reply ρ}
    (hn : NameKept s) (ht : StatusTrue s) (h : handle w e c s = .ok r) :
    NameKept r.2 ∧ (StatusTrue r.2 ↔ Survives w s (.command c e)) := by
  have hkept : Alike s r.2 → Survives w s (.command c e) →
      NameKept r.2 ∧ (StatusTrue r.2 ↔ Survives w s (.command c e)) := by
    intro halike hok
    exact ⟨halike.nameKept.mpr hn, fun _ => hok, fun _ => halike.statusTrue.mpr ht⟩
  cases c with
  | start => exact start_true hn ht h
  | si => exact si_true hn ht h
  | cont => exact cont_true hn ht h
  | run => exact run_true hn ht h
  | load program =>
    obtain ⟨hname, htrue⟩ := load_true hn ht h
    exact ⟨hname, fun _ => trivial, fun _ => htrue⟩
  | break_ addr =>
    refine hkept ?_ trivial
    rcases setbreak_cases h with ⟨hshows, -⟩ | ⟨c, hc, -, -, rfl⟩
    · exact Alike.of_shows hshows
    · exact Alike.of_stopped hc rfl rfl rfl
  | delete id =>
    refine hkept ?_ trivial
    rcases deletebreak_cases h with ⟨hshows, -⟩ | ⟨did, bp, c, out, -, -, hc, -, rfl⟩
    · exact Alike.of_shows hshows
    · exact Alike.of_stopped hc rfl rfl rfl
  | set reg val =>
    refine hkept ?_ trivial
    rcases setReg_cases h with hshows | ⟨c, i, map, hc, -, hr⟩
    · exact Alike.of_shows hshows
    · rw [hr]
      exact Alike.of_stopped hc rfl rfl rfl
  | _ => exact hkept (Alike.of_shows (handle_quiet h (by rintro ⟨⟩) (by rintro _ ⟨⟩) (by rintro ⟨⟩)
      (by rintro _ _ ⟨⟩))) trivial

/-- A signal at the prompt is seen by nobody. -/
theorem killed_true {s : State ρ} (hn : NameKept s) (ht : StatusTrue s) :
    NameKept s.kill ∧ (StatusTrue s.kill ↔ ¬ Live s) := by
  unfold State.kill
  split
  case h_1 c hc =>
    have hs : s.conf.status = .running := ht.running.mpr ⟨c, hc⟩
    refine ⟨hn, fun htrue => ?_, fun hl => absurd ⟨c, hc⟩ hl⟩
    obtain ⟨c', hz⟩ := htrue.running.mp hs
    cases hz
  case h_2 hno => exact ⟨hn, fun _ ⟨c, hc⟩ => hno c hc, fun _ => ht⟩

/-- **The status tells the truth at every prompt of a session exactly when every `start`
executes the program and no signal kills the child**, at the prompt or while it runs. -/
theorem status_iff (w : World ρ) {l : List (Edge (State ρ) Action)} {t : State ρ}
    (h : Path (act w) {} l t) :
    (∀ e ∈ l, StatusTrue e.after) ↔ ∀ e ∈ l, Survives w e.before e.action := by
  have hstep : ∀ (s : State ρ) (a : Action) (t : State ρ), NameKept s → StatusTrue s →
      True → act w a s = .ok t → NameKept t ∧ (StatusTrue t ↔ Survives w s a) := by
    intro s a t hn ht _ hs
    cases a with
    | command c e =>
      obtain ⟨ret, hr⟩ := act_command hs
      exact handle_true hn ht hr
    | killed =>
      rw [← Except.ok.inj hs]
      exact killed_true hn ht
  have h0 : NameKept ({} : State ρ) := fun hne => absurd rfl hne
  have hdead : ¬ Live ({} : State ρ) := not_live_of_gone rfl
  exact h.forall_after_iff (fun _ _ => trivial) hstep h0 ((statusTrue_notLoaded rfl rfl).mpr hdead)

/-- A live child that no signal kills is not slain. -/
theorem not_slain {w : World ρ} {single : Bool} {res : Resume} {s : State ρ} (hl : Live s)
    (hres : res.after ≠ .killed) : ¬ Slain w single res s := by
  obtain ⟨c, hc⟩ := hl
  have hwait : ∀ c, res.after.wait c ≠ some (.signaled : Wait ρ) := by
    intro c
    cases hafter : res.after with
    | running | signalled => simp [After.wait]
    | killed => exact absurd hafter hres
  have hrun : ∀ n c, runChild w res.after n c ≠ some .signaled := by
    intro n
    induction n with
    | zero => exact hwait
    | succ n ih =>
      intro c
      unfold runChild
      split
      · exact ih _
      all_goals simp
  have hstep : ∀ n c, singleStep w res.after n c ≠ some .signaled := by
    intro n c
    cases n with
    | zero => exact hwait c
    | succ n =>
      simp only [singleStep]
      split <;> simp
  intro h
  simp only [Slain, resume, hc] at h
  cases single
  all_goals
    simp only [if_true, Bool.false_eq_true, if_false] at h
    split at h
  · next wt hwt =>
      cases h
      exact hrun _ _ hwt
  · cases h
  · next wt hwt =>
      cases h
      exact hstep _ _ hwt
  · cases h

/-- A program that starts, steps and exits. -/
def exitSession : List Action :=
  [.command (.load "walk") {}, .command .start {}, .command .si { resume := { steps := 1 } },
   .command .cont { resume := { steps := 20 } }]

theorem status_exit : ∃ l t, Path (act walk) {} l t ∧ l.map Edge.action = exitSession ∧
    ∀ e ∈ l, StatusTrue e.after := by
  let check := fun (l : List (Edge (State Unit) Action)) (_ : State Unit) =>
    l.all fun e => e.before.conf.status ≠ .running || e.before.proc.check fun _ => true
  have hfollow : (follow (act walk) exitSession {}).any (fun p => check p.1 p.2) = true := by
    decide +kernel
  obtain ⟨l, t, h, hacts, hcheck⟩ := exists_path check hfollow
  refine ⟨l, t, h, hacts, (status_iff walk h).mpr fun e he => ?_⟩
  have hlive : e.before.conf.status = .running → Live e.before := by
    intro hrun
    have hstopped := List.all_eq_true.mp hcheck e he
    simp only [hrun, ne_eq, not_true, decide_false, Bool.false_or] at hstopped
    obtain ⟨c, hc, -⟩ := Proc.stopped_of_check hstopped
    exact ⟨c, hc⟩
  have hmem : e.action ∈ exitSession := hacts ▸ List.mem_map_of_mem he
  simp only [exitSession, List.mem_cons, List.not_mem_nil, or_false] at hmem
  rcases hmem with ha | ha | ha | ha
  all_goals rw [ha]
  · trivial
  · exact fun _ => rfl
  · exact fun hrun => not_slain (hlive hrun) nofun
  · exact fun hrun => not_slain (hlive hrun) nofun

/-- `start` with an `execvp` that fails. -/
def unexecutedSession : List Action :=
  [.command (.load "walk") {}, .command .start { spawn := { result := .execFailed } }]

/-- A child that never ran is RUNNING. -/
theorem status_unexecuted : ∃ l t, Path (act walk) {} l t ∧
    l.map Edge.action = unexecutedSession ∧ ¬ StatusTrue t := by
  let check := fun (_ : List (Edge (State Unit) Action)) (t : State Unit) =>
    decide (t.conf.status = .running) && !t.proc.check fun _ => true
  have hfollow : (follow (act walk) unexecutedSession {}).any (fun p => check p.1 p.2) = true := by
    decide +kernel
  obtain ⟨l, t, h, hacts, hcheck⟩ := exists_path check hfollow
  simp only [check, Bool.and_eq_true, decide_eq_true_eq, Bool.not_eq_true'] at hcheck
  refine ⟨l, t, h, hacts, fun htrue => ?_⟩
  obtain ⟨c, hc⟩ := htrue.running.mp hcheck.1
  rw [hc] at hcheck
  cases hcheck.2

end Apue.Sdb

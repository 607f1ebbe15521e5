import Apue.Sdb.Fragment

/-! The program counter after a stop, and the report of it.

`restoreifbreak` guesses why the child stopped from the command and the program counter.
After `cont` it takes a breakpoint one below the program counter for an executed trap,
whatever stopped the child; after `si` it never does. It reports the program counter as
it was at the stop. `corrects_iff`: the guess and the report are right exactly when no
trap of the debugger's was executed and, after `cont`, there is no breakpoint where the
child stopped or one below. -/
namespace Apue.Sdb
open Memory CLib Transition

variable {ρ : Type}

/-- The report of a breakpoint. -/
def breakText (a : Addr) : String :=
  "** " ++ ("breakpoint @ " ++ padLeft ' ' 10 (hexDigits a) ++ ": ...")

/-- The child that executes the trap byte it stops at, if one does. -/
def trapAt (w : World ρ) (single : Bool) : Nat → Child ρ → Option (Child ρ)
  | 0, _ => none
  | n + 1, c =>
    match stepChild w c with
    | .ran c' => if single then none else trapAt w single n c'
    | .trapped _ => some c
    | _ => none

/-- The same for a trap byte the program does not have there by itself. -/
def planted (w : World ρ) (single : Bool) (n : Nat) (c : Child ρ) : Option (Child ρ) :=
  (trapAt w single n c).filter fun c₁ => c₁.own c₁.rip ≠ 0xcc

/-- Where the program itself goes on from the stop at `c`. -/
def goesOn (w : World ρ) (cont : Bool) (r : Resume) (c₀ c : Child ρ) : Addr :=
  ((planted w (!cont) r.steps c₀).map Child.rip).getD c.rip

/-- From the stop at `c`, the wait leaves the child where its program goes on and reports
the breakpoint there, if there is one. -/
structure Corrects (w : World ρ) (cont : Bool) (r : Resume) (s : State ρ) (c₀ c : Child ρ)
    (t : State ρ) : Prop where
  rip : ∃ c', t.proc = .stopped c' ∧ c'.rip = goesOn w cont r c₀ c
  reports : goesOn w cont r c₀ c ∈ addrs s.conf.bps →
    t.out = s.out ++ ["wait: stopped", breakText (goesOn w cont r c₀ c)]
  silent : goesOn w cont r c₀ c ∉ addrs s.conf.bps → t.out = s.out ++ ["wait: stopped"]

theorem breakText_inj {a b : Addr} (h : breakText a = breakText b) : a = b := by
  have hpad : padLeft ' ' 10 (hexDigits a) = padLeft ' ' 10 (hexDigits b) := by
    have hlist := congrArg String.toList h
    simp only [breakText, String.toList_append] at hlist
    have hmid := List.append_cancel_left hlist
    rw [List.append_assoc, List.append_assoc] at hmid
    exact String.toList_injective (List.append_cancel_right (List.append_cancel_left hmid))
  rw [← strtoull_hexDigits a, ← strtoull_padLeft 10 (hexDigits a), hpad, strtoull_padLeft,
    strtoull_hexDigits]

section
variable {w : World ρ} {cont single : Bool} {after : After} {s t : State ρ} {c₀ c c₁ : Child ρ}

/-- The stop is one past the trap byte. -/
theorem trapAt_rip {n : Nat} (h : trapAt w single n c₀ = some c₁)
    (hstop : (if single then singleStep w after n c₀ else runChild w after n c₀) =
      some (.stopped c)) : c₁.mem c₁.rip = 0xcc ∧ c.rip = c₁.rip + 1 := by
  induction n generalizing c₀ with
  | zero => cases h
  | succ n ih =>
    unfold trapAt at h
    cases hstep : stepChild w c₀ with
    | ran c' =>
      cases single with
      | true => simp [hstep] at h
      | false =>
        simp only [hstep, Bool.false_eq_true, if_false] at h hstop
        rw [runChild, hstep] at hstop
        exact ih h (by simpa using hstop)
    | trapped c' =>
      simp only [hstep, Option.some.injEq] at h
      obtain ⟨hcc, hc'⟩ := stepChild_trapped hstep
      have hc : c' = c := by
        cases single <;> simpa [runChild, singleStep, hstep] using hstop
      rw [← hc, hc', ← h]
      exact ⟨hcc, Regs.rip_set _ _⟩
    | exited code | faulted => simp [hstep] at h

theorem planted_rip {r : Resume} (hc₀ : s.proc = .stopped c₀)
    (hstop : resume w (!cont) r s = .ok (.stopped c))
    (h : planted w (!cont) r.steps c₀ = some c₁) : c.rip = c₁.rip + 1 := by
  obtain ⟨c₂, hc₂, hrun⟩ := resume_stopped hstop
  obtain rfl : c₀ = c₂ := Proc.stopped.inj (hc₀.symm.trans hc₂)
  exact (trapAt_rip (Option.filter_eq_some_iff.mp h).1 hrun).2

/-- The program goes on where it stopped unless a trap of the debugger's was executed. -/
theorem goesOn_eq_iff {r : Resume} (hc₀ : s.proc = .stopped c₀)
    (hstop : resume w (!cont) r s = .ok (.stopped c)) :
    goesOn w cont r c₀ c = c.rip ↔ planted w (!cont) r.steps c₀ = none := by
  unfold goesOn
  cases h : planted w (!cont) r.steps c₀ with
  | none => simp
  | some c₁ =>
    have hrip := planted_rip hc₀ hstop h
    refine iff_of_false (fun heq => ?_) nofun
    have hself : c₁.rip = c₁.rip + 1 := heq.trans hrip
    bv_omega

/-! ### What the wait does -/

theorem resetbreak_out (h : resetbreak w s = .ok t) : t.out = s.out := by
  rcases resetbreak_cases h with ⟨-, rfl⟩ | ⟨bp, c, -, -, -, -, rfl⟩
  · rfl
  · rfl

theorem restoreifbreak_out (hc : s.proc = .stopped c) (h : restoreifbreak w cont s = .ok t) :
    t.out = s.out ++
      (if hitIndex s.conf.bps cont c.rip = none then [] else [breakText c.rip]) := by
  have hrip : peekuser s ripIndex = c.rip := by
    simp only [peekuser, hc]
    rfl
  unfold restoreifbreak at h
  simp only [hrip] at h
  split at h
  case h_1 hnone =>
    rw [← Except.ok.inj h, if_pos hnone, List.append_nil]
  case h_2 rid hrid =>
    split at h
    case h_1 => cases h
    case h_2 bp hbp =>
      obtain ⟨t₁, ht₁, h⟩ := bind_ok.mp h
      obtain ⟨c₁, -, rfl⟩ := pokeuser_ok ht₁
      obtain ⟨t₂, ht₂, h⟩ := bind_ok.mp h
      obtain ⟨c₂, -, -, rfl⟩ := poketext_ok ht₂
      rw [← Except.ok.inj h, if_neg (by rw [hrid]; exact Option.some_ne_none rid)]
      rfl

/-- The address the wait takes for the breakpoint's. -/
def guess (cont : Bool) (rip : Addr) : Addr := rip - (if cont then 1 else 0)

/-- **After a stop the child is at the breakpoint it is taken to be at, or else where it
stopped; the report has where it stopped.** -/
theorem waitstatus_reports {r : Reply ρ} (h : waitstatus w cont (.stopped c) s = .ok r) :
    ∃ c', r.2.proc = .stopped c' ∧
      (guess cont c.rip ∈ addrs s.conf.bps ∧ c'.rip = guess cont c.rip ∧
          r.2.out = s.out ++ ["wait: stopped", breakText c.rip] ∨
        guess cont c.rip ∉ addrs s.conf.bps ∧ c'.rip = c.rip ∧
          r.2.out = s.out ++ ["wait: stopped"]) := by
  obtain ⟨t, ht, h⟩ := bind_ok.mp h
  obtain ⟨u, hu, h⟩ := bind_ok.mp h
  rw [← Except.ok.inj h]
  have hreset : ∃ c₁, t.proc = .stopped c₁ ∧ c₁.rip = c.rip ∧ t.conf.bps = s.conf.bps := by
    rcases resetbreak_cases ht with ⟨-, rfl⟩ | ⟨p, c₁, -, -, hc₁, -, rfl⟩
    · exact ⟨c, rfl, rfl, rfl⟩
    · cases hc₁
      exact ⟨_, rfl, rfl, rfl⟩
  obtain ⟨c₁, hc₁, hrip, hbps⟩ := hreset
  have hout := restoreifbreak_out hc₁ hu
  rw [resetbreak_out ht, hbps, hrip] at hout
  have hsaid : ({ s with proc := .stopped c }.say "wait: stopped").out = s.out ++ ["wait: stopped"] :=
    rfl
  rw [hsaid, List.append_assoc] at hout
  rcases restoreifbreak_cases hc₁ hu with ⟨hnone, hut⟩ | ⟨rid, b, out, hrid, hb, -, hut⟩
  · rw [hbps, hrip] at hnone
    rw [if_pos hnone] at hout
    refine ⟨c₁, by rw [hut]; exact hc₁, .inr ⟨?_, hrip, hout⟩⟩
    rintro ⟨b, hb, hba⟩
    exact hitIndex_none hnone hb hba
  · rw [hbps, hrip] at hrid
    rw [hbps] at hb
    rw [if_neg (by rw [hrid]; exact Option.some_ne_none rid)] at hout
    obtain ⟨b', hb', hba⟩ := hitIndex_some hrid
    obtain rfl : b = b' := Option.some.inj (hb.symm.trans hb')
    refine ⟨_, by rw [hut], .inl ⟨⟨b, List.mem_of_getElem? hb, hba⟩, ?_, hout⟩⟩
    exact (Regs.rip_set _ _).trans hba

/-- At a breakpoint the report is right if it is where the child stopped, and the child
goes on there. -/
theorem corrects_hit {r : Resume} {c' : Child ρ} (hc' : t.proc = .stopped c')
    (hrip : c'.rip ∈ addrs s.conf.bps) (hout : t.out = s.out ++ ["wait: stopped", breakText c.rip]) :
    Corrects w cont r s c₀ c t ↔ c'.rip = goesOn w cont r c₀ c ∧ c.rip = goesOn w cont r c₀ c := by
  constructor
  · intro h
    obtain ⟨c₂, hc₂, hgoes⟩ := h.rip
    obtain rfl : c' = c₂ := Proc.stopped.inj (hc'.symm.trans hc₂)
    have htext := List.append_cancel_left (hout.symm.trans (h.reports (hgoes ▸ hrip)))
    simp only [List.cons.injEq, true_and, and_true] at htext
    exact ⟨hgoes, breakText_inj htext⟩
  · intro ⟨hgoes, hc⟩
    exact ⟨⟨c', hc', hgoes⟩, fun _ => hc ▸ hout, fun hno => absurd (hgoes ▸ hrip) hno⟩

theorem corrects_miss {r : Resume} {c' : Child ρ} (hc' : t.proc = .stopped c')
    (hrip : c'.rip = c.rip) (hout : t.out = s.out ++ ["wait: stopped"]) :
    Corrects w cont r s c₀ c t ↔ goesOn w cont r c₀ c = c.rip ∧ c.rip ∉ addrs s.conf.bps := by
  constructor
  · intro h
    obtain ⟨c₂, hc₂, hgoes⟩ := h.rip
    obtain rfl : c' = c₂ := Proc.stopped.inj (hc'.symm.trans hc₂)
    have hsame : goesOn w cont r c₀ c = c.rip := hgoes.symm.trans hrip
    refine ⟨hsame, fun hon => ?_⟩
    have htext := List.append_cancel_left (hout.symm.trans (h.reports (hsame ▸ hon)))
    cases htext
  · intro ⟨hgoes, hoff⟩
    exact ⟨⟨c', hc', hrip.trans hgoes.symm⟩, fun hon => absurd (hgoes ▸ hon) hoff, fun _ => hout⟩

theorem corrects_wait {r : Resume} {ret : Int} (hc₀ : s.proc = .stopped c₀)
    (hstop : resume w (!cont) r s = .ok (.stopped c))
    (hwait : waitstatus w cont (.stopped c) s = .ok (ret, t)) :
    Corrects w cont r s c₀ c t ↔ planted w (!cont) r.steps c₀ = none ∧
      (cont = true → c.rip ∉ addrs s.conf.bps ∧ c.rip - 1 ∉ addrs s.conf.bps) := by
  have hgoes := goesOn_eq_iff hc₀ hstop
  obtain ⟨c', hc', ⟨hon, hrip, hout⟩ | ⟨hoff, hrip, hout⟩⟩ := waitstatus_reports hwait
  · rw [corrects_hit hc' (hrip ▸ hon) hout, hrip]
    cases cont with
    | false =>
      have hguess : guess false c.rip = c.rip := BitVec.sub_zero c.rip
      rw [hguess, and_self, eq_comm, hgoes]
      simp
    | true =>
      refine iff_of_false (fun ⟨hback, hhere⟩ => ?_) fun h => (h.2 rfl).2 hon
      have hself : c.rip - 1 = c.rip := hback.trans hhere.symm
      bv_omega
  · rw [corrects_miss hc' hrip hout, hgoes]
    refine and_congr_right fun _ => ?_
    cases cont with
    | false =>
      have hguess : guess false c.rip = c.rip := BitVec.sub_zero c.rip
      rw [hguess] at hoff
      exact iff_of_true hoff nofun
    | true => exact ⟨fun hc _ => ⟨hc, hoff⟩, fun h => (h rfl).1⟩

/-- The wait a resumed child ends in. -/
theorem wait_of_resumes {e : Env} {r : Reply ρ} (hs : s.conf.status = .running)
    (hstop : resume w (!cont) e.resume s = .ok (.stopped c))
    (h : handle w e (resumes cont) s = .ok r) : waitstatus w cont (.stopped c) s = .ok r := by
  cases cont with
  | false =>
    rcases si_cases h with ⟨hno, -⟩ | ⟨-, c₂, wt, -, hwt, hwait⟩
    · exact absurd hs hno
    · rwa [Except.ok.inj (hwt.symm.trans hstop)] at hwait
  | true =>
    rcases cont_cases h with ⟨hno, -⟩ | ⟨-, wt, hwt, hwait⟩
    · exact absurd hs hno
    · rwa [Except.ok.inj (hwt.symm.trans hstop)] at hwait

/-- **A wait after `si` or `cont` leaves the child where its program goes on, and reports a
breakpoint there with its address, exactly when no trap of the debugger's was executed and,
after `cont`, no breakpoint is where the child stopped or one below.** -/
theorem corrects_iff {e : Env} {ret : Int} (hs : s.conf.status = .running)
    (hc₀ : s.proc = .stopped c₀) (hstop : resume w (!cont) e.resume s = .ok (.stopped c))
    (h : handle w e (resumes cont) s = .ok (ret, t)) :
    Corrects w cont e.resume s c₀ c t ↔ planted w (!cont) e.resume.steps c₀ = none ∧
      (cont = true → c.rip ∉ addrs s.conf.bps ∧ c.rip - 1 ∉ addrs s.conf.bps) :=
  corrects_wait hc₀ hstop (wait_of_resumes hs hstop h)

end

/-! ### Two stops at a breakpoint -/

/-- Where the child is resumed and where it stops. -/
def stopOf (w : World ρ) (cont : Bool) (r : Resume) (s : State ρ) : Option (Child ρ × Child ρ) :=
  match s.proc, resume w (!cont) r s with
  | .stopped c₀, .ok (.stopped c) => some (c₀, c)
  | _, _ => none

theorem stopOf_some {w : World ρ} {cont : Bool} {r : Resume} {s : State ρ} {c₀ c : Child ρ}
    (h : stopOf w cont r s = some (c₀, c)) :
    s.proc = .stopped c₀ ∧ resume w (!cont) r s = .ok (.stopped c) := by
  unfold stopOf at h
  split at h
  case h_1 c₁ c₂ hproc hres =>
    cases h
    exact ⟨hproc, hres⟩
  case h_2 => cases h

/-- A breakpoint at the jump's target, and the jump. -/
def reportSession (cont : Bool) : List Action :=
  [.command (.load "walk") {}, .command .start {}, .command (.break_ "401002") {},
   .command (resumes cont) { resume := { steps := 5 } }]

/-- The edges of such a session whose stop passes a check. -/
def stopsWith (cont : Bool) (q : State Unit → Child Unit → Child Unit → Bool)
    (l : List (Edge (State Unit) Action)) : Bool :=
  l.any fun e => decide (e.action = .command (resumes cont) { resume := { steps := 5 } }) &&
    decide (e.before.conf.status = .running) &&
    (stopOf walk cont { steps := 5 } e.before).any fun p => q e.before p.1 p.2

theorem stopsWith_sound {cont : Bool} {q : State Unit → Child Unit → Child Unit → Bool}
    {l : List (Edge (State Unit) Action)} {s₀ t₀ : State Unit} (hpath : Path (act walk) s₀ l t₀)
    (h : stopsWith cont q l = true) : ∃ e ∈ l, ∃ ret c₀ c,
      e.before.conf.status = .running ∧ e.before.proc = .stopped c₀ ∧
      resume walk (!cont) { steps := 5 } e.before = .ok (.stopped c) ∧
      handle walk { resume := { steps := 5 } } (resumes cont) e.before = .ok (ret, e.after) ∧
      q e.before c₀ c = true := by
  obtain ⟨e, he, hcheck⟩ := List.any_eq_true.mp h
  simp only [Bool.and_eq_true, decide_eq_true_eq] at hcheck
  obtain ⟨⟨hact, hs⟩, hany⟩ := hcheck
  obtain ⟨⟨c₀, c⟩, hstop, hq⟩ := (Option.any_eq_true _ _).mp hany
  obtain ⟨hc₀, hres⟩ := stopOf_some hstop
  have hstep := hpath.step_of_mem e he
  rw [hact] at hstep
  obtain ⟨ret, hret⟩ := act_command hstep
  exact ⟨e, he, ret, c₀, c, hs, hc₀, hres, hret, hq⟩

/-- Stepping onto a breakpoint. -/
theorem corrects_step : ∃ l t, Path (act walk) {} l t ∧ l.map Edge.action = reportSession false ∧
    ∃ e ∈ l, ∃ c₀ c, e.before.proc = .stopped c₀ ∧
      resume walk true { steps := 5 } e.before = .ok (.stopped c) ∧
      Corrects walk false { steps := 5 } e.before c₀ c e.after := by
  let q := fun (_ : State Unit) (c₀ _ : Child Unit) => (planted walk true 5 c₀).isNone
  have hfollow : (follow (act walk) (reportSession false) {}).any
      (fun p => stopsWith false q p.1) = true := by decide +kernel
  obtain ⟨l, t, hpath, hacts, hcheck⟩ :=
    exists_path (fun l (_ : State Unit) => stopsWith false q l) hfollow
  obtain ⟨e, he, ret, c₀, c, hs, hc₀, hres, hret, hq⟩ := stopsWith_sound hpath hcheck
  refine ⟨l, t, hpath, hacts, e, he, c₀, c, hc₀, hres, ?_⟩
  exact (corrects_iff hs hc₀ hres hret).mpr ⟨Option.isNone_iff_eq_none.mp hq, nofun⟩

/-- Continuing to it: the report has the address after the trap byte. -/
theorem corrects_trap : ∃ l t, Path (act walk) {} l t ∧ l.map Edge.action = reportSession true ∧
    ∃ e ∈ l, ∃ c₀ c, e.before.proc = .stopped c₀ ∧
      resume walk false { steps := 5 } e.before = .ok (.stopped c) ∧
      ¬ Corrects walk true { steps := 5 } e.before c₀ c e.after := by
  let q := fun (s : State Unit) (_ c : Child Unit) =>
    s.conf.bps.any fun b => b.addr = c.rip - 1
  have hfollow : (follow (act walk) (reportSession true) {}).any
      (fun p => stopsWith true q p.1) = true := by decide +kernel
  obtain ⟨l, t, hpath, hacts, hcheck⟩ :=
    exists_path (fun l (_ : State Unit) => stopsWith true q l) hfollow
  obtain ⟨e, he, ret, c₀, c, hs, hc₀, hres, hret, hq⟩ := stopsWith_sound hpath hcheck
  refine ⟨l, t, hpath, hacts, e, he, c₀, c, hc₀, hres, fun hcorrects => ?_⟩
  obtain ⟨b, hb, hba⟩ := List.any_eq_true.mp hq
  have hcond := (corrects_wait hc₀ hres (wait_of_resumes hs hres hret)).mp hcorrects
  exact (hcond.2 rfl).2 ⟨b, hb, of_decide_eq_true hba⟩

end Apue.Sdb

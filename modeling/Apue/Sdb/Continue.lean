import Apue.Sdb.Fragment
import Apue.Sdb.Walking

/-! Continuing.

The program by itself goes through `p₀, p₁, …` from the prompt. `cont` should stop at
the first of `p₁, p₂, …` that is at a breakpoint. It stops at the first that is at a
trap, `p₀` included, and the two differ: the breakpoint just restored is out until the
next wait, with everything seven bytes above it, and a `break` at the program counter
stops the child before it has moved. `contExact_iff`: in every steady session `cont` is
exact exactly when the first breakpoint ahead is armed and none is under the program
counter. -/
namespace Apue.Sdb
open Memory CLib Transition

variable {ρ : Type}

/-- The child after `k` instructions, unless it ends before. -/
def ahead (w : World ρ) : Nat → Child ρ → Option (Child ρ)
  | 0, c => some c
  | k + 1, c =>
    match stepChild w c with
    | .ran c' => ahead w k c'
    | _ => none

/-- The program by itself comes to a breakpoint, for the first time, at `d`. -/
structure FirstBreak (w : World ρ) (bps : List Breakpoint) (c : Child ρ) (k : Nat)
    (d : Child ρ) : Prop where
  pos : 1 ≤ k
  comes : ahead w k c.bare = some d
  on : d.rip ∈ addrs bps
  first : ∀ j d', 1 ≤ j → j < k → ahead w j c.bare = some d' → d'.rip ∉ addrs bps

/-- The program by itself exits before it comes to a breakpoint. -/
structure FirstExit (w : World ρ) (bps : List Breakpoint) (c : Child ρ) (k : Nat)
    (code : Byte) : Prop where
  exits : ∃ d, ahead w k c.bare = some d ∧ stepChild w d = .exited code
  first : ∀ j d', 1 ≤ j → j ≤ k → ahead w j c.bare = some d' → d'.rip ∉ addrs bps

/-- The program by itself neither exits nor comes to a breakpoint. -/
def Unending (w : World ρ) (bps : List Breakpoint) (c : Child ρ) : Prop :=
  ∀ k, ∃ d, ahead w k c.bare = some d ∧ (1 ≤ k → d.rip ∉ addrs bps)

/-- From the prompt at `c`, `cont` returns with the child at the first breakpoint ahead,
or with the child exited if the program ends before, and otherwise does not return. -/
structure ContExact (w : World ρ) (s : State ρ) (c : Child ρ) : Prop where
  stops : ∀ k d, FirstBreak w s.conf.bps c k d → ∃ N, ∀ n ≥ N, ∃ t c',
    cont w { steps := n } s = .ok (0, t) ∧ t.proc = .stopped c' ∧ c'.rip = d.rip
  exits : ∀ k code, FirstExit w s.conf.bps c k code → ∃ N, ∀ n ≥ N, ∃ t,
    cont w { steps := n } s = .ok (0, t) ∧ t.proc = .gone
  waits : Unending w s.conf.bps c → ∀ n, cont w { steps := n } s = .error .waiting

/-- The first breakpoint ahead is armed, and no trap is under the program counter (or it
is that breakpoint's). -/
structure WayArmed (w : World ρ) (s : State ρ) (c : Child ρ) : Prop where
  stops : ∀ k d, FirstBreak w s.conf.bps c k d →
    if c.mem c.rip = 0xcc then d.rip = c.rip else c.mem d.rip = 0xcc
  exits : ∀ k code, FirstExit w s.conf.bps c k code → c.mem c.rip ≠ 0xcc
  waits : Unending w s.conf.bps c → c.mem c.rip ≠ 0xcc

/-- No instruction of the program raises a signal. -/
def Faultless (w : World ρ) (p : Target) (jumps : Child ρ → Addr → Prop) : Prop :=
  ∀ c, Native w p.program jumps c → w.exec c.mem c.regs c.rest ≠ .fault

/-- No signal is sent to the child. -/
def Unsignalled : Action → Prop
  | .command _ e => e.resume.after = .running
  | .killed => False

/-- The steps of the sessions of `cont`. -/
structure Steady (w : World ρ) (starts : Set Addr) (s : State ρ) (a : Action) : Prop where
  session : Session a
  unsignalled : Unsignalled a
  atStarts : AtStarts starts s a
  clean : CleanStep w s a
  keepsIndex : KeepsIndex s a
  stepsFree : StepsFree s a

variable {w : World ρ} {p : Target} {starts A : Set Addr}
  {jumps : Child ρ → Addr → Prop} {s t : State ρ} {e : Env}
  {bps : List Breakpoint} {c d : Child ρ}

/-- A child of a faultless program, intact under its traps, does not fault. -/
theorem Faultless.not_faulted (hquiet : Faultless w p jumps) (hp : Program w p starts jumps)
    (hsub : addrs bps ⊆ starts) (hbps : addrs bps ⊆ p.text)
    (hn : Native w p.program jumps c.bare) (hi : Intact w p bps A c) :
    stepChild w c ≠ .faulted := by
  intro hfault
  by_cases hA : c.rip ∈ A
  · rw [stepChild, if_pos (hi.traps.mark c.rip hA)] at hfault
    cases hfault
  · have hstep := stepChild_native hp hsub hbps hn hi hA
    split at hstep
    case h_1 =>
      rw [hstep.1] at hfault
      cases hfault
    case h_2 =>
      rw [hstep.1] at hfault
      cases hfault
    case h_3 he => exact hquiet c.bare hn he

theorem cont_running {r : Resume} (hs : s.conf.status = .running) :
    cont w r s = (do
      let wt ← resume w false r s
      waitstatus w true wt s) := by
  have hchecks : checks "cont" s = true := (checks_iff running_cont).mpr hs
  have hsame : { s with conf := { s.conf with status := .running } } = s := by rw [← hs]
  simp only [cont, checked, hchecks, if_true, hsame]

theorem resume_cont {n : Nat} {wt : Wait ρ} (hc : s.proc = .stopped c)
    (h : runChild w .running n c = some wt) : resume w false { steps := n } s = .ok wt := by
  simp only [resume, hc, Bool.false_eq_true, if_false, h]

/-- **As long as it meets no trap, the child goes the way of the program.** -/
theorem runChild_ahead (hp : Program w p starts jumps) (hsub : addrs bps ⊆ starts)
    (hbps : addrs bps ⊆ p.text) {k : Nat} (hn : Native w p.program jumps c.bare)
    (hi : Intact w p bps A c) (hd : ahead w k c.bare = some d)
    (hfree : ∀ j d', j < k → ahead w j c.bare = some d' → d'.rip ∉ A) :
    ∃ c', c'.bare = d ∧ Native w p.program jumps c'.bare ∧ Intact w p bps A c' ∧
      ∀ after m, runChild w after (k + m) c = runChild w after m c' := by
  induction k generalizing c with
  | zero =>
    obtain rfl := Option.some.inj hd
    exact ⟨c, rfl, hn, hi, fun after m => by rw [Nat.zero_add]⟩
  | succ k ih =>
    have hA : c.rip ∉ A := hfree 0 c.bare (Nat.succ_pos k) rfl
    have hstep := stepChild_native hp hsub hbps hn hi hA
    cases he : w.exec c.own c.regs c.rest with
    | next regs st rest =>
      rw [he] at hstep
      obtain ⟨hran, hbare, hi'⟩ := hstep
      have hnext : ∀ j, ahead w (j + 1) c.bare =
          ahead w j (Child.bare ⟨regs, store c.mem st, rest, store c.own st⟩) := by
        intro j
        rw [ahead, hbare]
      rw [hnext] at hd
      obtain ⟨c', hc', hn', hi'', hrun⟩ := ih (hn.step hbare) hi' hd fun j d' hj hd' =>
        hfree (j + 1) d' (Nat.succ_lt_succ hj) (by rw [hnext]; exact hd')
      refine ⟨c', hc', hn', hi'', fun after m => ?_⟩
      rw [← hrun, Nat.succ_add, runChild, hran]
    | exit code =>
      rw [he] at hstep
      rw [ahead, hstep.2] at hd
      cases hd
    | fault =>
      rw [he] at hstep
      rw [ahead, hstep.2] at hd
      cases hd

/-- A way that comes to no breakpoint after its start is free where its start is. -/
theorem not_mem_of_ahead {A : Set Addr} (hi : Intact w p s.conf.bps A c) {n : Nat}
    (hfirst : ∀ j d', 1 ≤ j → j < n → ahead w j c.bare = some d' →
      d'.rip ∉ addrs s.conf.bps) (hfree : c.mem c.rip ≠ 0xcc) :
    ∀ j d', j < n → ahead w j c.bare = some d' → d'.rip ∉ A := by
  intro j d' hj hd' hA
  by_cases hj0 : j = 0
  · subst hj0
    obtain rfl := Option.some.inj hd'
    exact hfree (hi.traps.mark _ hA)
  · exact hfirst j d' (by omega) hj hd' (hi.sub hA)

section Prompt
variable (hp : Program w p starts jumps) (h : Walking w p starts jumps s)
  (hc : s.proc = .stopped c) (hi : Intact w p s.conf.bps A c)
include hp h hc hi

/-- `cont` stops at the first trap on the way. -/
theorem cont_stops {k : Nat} (hd : ahead w k c.bare = some d)
    (hfree : ∀ j d', j < k → ahead w j c.bare = some d' → d'.rip ∉ A) (hon : d.rip ∈ A)
    {n : Nat} (hn : k + 1 ≤ n) : ∃ t c', cont w { steps := n } s = .ok (0, t) ∧
      t.proc = .stopped c' ∧ c'.rip = d.rip := by
  obtain ⟨m, rfl⟩ : ∃ m, n = k + (m + 1) := ⟨n - (k + 1), by omega⟩
  obtain ⟨c₁, hd', -, hi₁, hrun⟩ := runChild_ahead hp h.starts h.sound.addrs_text (h.child c hc).1
    hi hd hfree
  have hrip : c₁.bare.rip = d.rip := congrArg Child.rip hd'
  have htrap : stepChild w c₁ = .trapped (c₁.at (c₁.rip + 1)) := by
    have hA : c₁.bare.rip ∈ A := hrip ▸ hon
    rw [stepChild, if_pos (hi₁.traps.mark c₁.rip hA)]
    rfl
  have hwait : runChild w .running (k + (m + 1)) c = some (.stopped (c₁.at (c₁.rip + 1))) := by
    rw [hrun, runChild, htrap]
  have hresume := resume_cont hc hwait
  obtain ⟨reply, hreply⟩ :=
    waitstatus_returns true (c₁.at (c₁.rip + 1)) h.pending h.sound.reaches
  obtain ⟨lid, c', hstops, -, hproc, hret⟩ := waitstatus_stops hreply h.sound.lid
  refine ⟨reply.2, c', ?_, hproc, ?_⟩
  · rw [cont_running (h.running c hc), hresume, ← hret]
    exact hreply
  · have hback : (c₁.at (c₁.rip + 1)).rip - 1 = d.rip := by
      rw [Child.at_rip]
      exact (BitVec.add_sub_cancel c₁.rip 1).trans hrip
    cases hstops with
    | elsewhere hnone =>
      obtain ⟨b, hb, hba⟩ := hi.sub hon
      exact absurd (hba.trans hback.symm) (hitIndex_none hnone hb)
    | @hit rid b hrid hb =>
      have hba : b.addr = d.rip := (hitAt_of_hitIndex hrid hb).2.trans hback
      rw [← hba]
      exact Regs.rip_set _ _

/-- `cont` ends with the program when there is no trap on the way. -/
theorem cont_exits {k : Nat} {code : Byte} (hd : ahead w k c.bare = some d)
    (hexit : stepChild w d = .exited code)
    (hfree : ∀ j d', j ≤ k → ahead w j c.bare = some d' → d'.rip ∉ A)
    {n : Nat} (hn : k + 1 ≤ n) :
    ∃ t, cont w { steps := n } s = .ok (0, t) ∧ t.proc = .gone := by
  obtain ⟨m, rfl⟩ : ∃ m, n = k + (m + 1) := ⟨n - (k + 1), by omega⟩
  obtain ⟨c₁, hd', hn₁, hi₁, hrun⟩ := runChild_ahead hp h.starts h.sound.addrs_text (h.child c hc).1
    hi hd fun j d' hj => hfree j d' hj.le
  have hA : c₁.bare.rip ∉ A := by
    rw [hd']
    exact hfree k d le_rfl hd
  have hstep := stepChild_native hp h.starts h.sound.addrs_text hn₁ hi₁ hA
  rw [← hd'] at hexit
  have hexit' : stepChild w c₁ = .exited code := by
    split at hstep
    case h_1 =>
      rw [hstep.2.1] at hexit
      cases hexit
    case h_2 =>
      rw [hstep.2] at hexit
      cases hexit
      exact hstep.1
    case h_3 =>
      rw [hstep.2] at hexit
      cases hexit
  have hwait : runChild w .running (k + (m + 1)) c = some (.exited code) := by
    rw [hrun, runChild, hexit']
  rw [cont_running (h.running c hc), resume_cont hc hwait]
  exact ⟨_, rfl, rfl⟩

/-- `cont` waits for a program that meets no trap and does not end. -/
theorem cont_waits (hfree : ∀ k, ∃ d, ahead w k c.bare = some d ∧ d.rip ∉ A) (n : Nat) :
    cont w { steps := n } s = .error .waiting := by
  obtain ⟨d, hd, -⟩ := hfree n
  obtain ⟨c₁, -, -, -, hrun⟩ := runChild_ahead hp h.starts h.sound.addrs_text (h.child c hc).1
    hi hd fun j d' _ hd' => by
      obtain ⟨d'', hd'', hA⟩ := hfree j
      rwa [Option.some.inj (hd'.symm.trans hd'')]
  have hwait : runChild w .running n c = none := by
    rw [← Nat.add_zero n, hrun]
    rfl
  rw [cont_running (h.running c hc)]
  simp only [resume, hc, Bool.false_eq_true, if_false, hwait]
  rfl

/-- Without a signal and a fault a resumed child stops at a trap only. -/
theorem trapStop_of_steady (hquiet : Faultless w p jumps) {r : Resume} {c₁ : Child ρ}
    (hr : r.after = .running) (h₁ : resume w false r s = .ok (.stopped c₁)) :
    ∃ c₂, TrapStop w p jumps s.conf.bps A c₂ c₁ := by
  obtain ⟨hn, -⟩ := h.child c hc
  rcases resume_cont_native hp h.starts h.sound.addrs_text hc h₁ hn hi with
    hstop | ⟨hn₁, hi₁, hwhy⟩
  · exact hstop
  · have hfault : stepChild w c₁ = .faulted := hwhy.resolve_left (by rw [hr]; nofun)
    exact absurd hfault (hquiet.not_faulted hp h.starts h.sound.addrs_text hn₁ hi₁)

/-- Where `cont` stops there was a trap. -/
theorem cont_at_trap {n : Nat} {ret : Int} {c' : Child ρ} (hquiet : Faultless w p jumps)
    (hr : cont w { steps := n } s = .ok (ret, t)) (hc' : t.proc = .stopped c') :
    c'.rip ∈ A := by
  rcases cont_cases hr with ⟨hno, -⟩ | ⟨-, wt, hwt, hwait⟩
  · exact absurd (h.running c hc) hno
  by_cases hstop : ∃ c₁, wt = .stopped c₁
  · obtain ⟨c₁, rfl⟩ := hstop
    obtain ⟨c₂, hstop⟩ := trapStop_of_steady hp h hc hi hquiet rfl hwt
    obtain ⟨lid, c'', hstops, -, hproc, -⟩ := waitstatus_stops hwait h.sound.lid
    obtain rfl : c' = c'' := by
      rw [hc'] at hproc
      exact Proc.stopped.inj hproc
    have hback : c₁.rip - 1 = c₂.rip := by
      rw [hstop.stop, Child.at_rip]
      exact BitVec.add_sub_cancel c₂.rip 1
    cases hstops with
    | elsewhere hnone =>
      obtain ⟨b, hb, hba⟩ := hi.sub hstop.armed
      exact absurd (hba.trans hback.symm) (hitIndex_none hnone hb)
    | @hit rid b hrid hb =>
      have hba : b.addr = c₂.rip := (hitAt_of_hitIndex hrid hb).2.trans hback
      show (c₁.regs.set ripIndex b.addr).rip ∈ A
      rw [Regs.rip_set, hba]
      exact hstop.armed
  · obtain ⟨hgone, -⟩ := waitstatus_gone (fun c₁ hc₁ => hstop ⟨c₁, hc₁⟩) hwait
    rw [hgone] at hc'
    cases hc'

/-- At a trap `cont` stops where it is. -/
theorem cont_here (hA : c.rip ∈ A) {n : Nat} (hn : 1 ≤ n) :
    ∃ t c', cont w { steps := n } s = .ok (0, t) ∧ t.proc = .stopped c' ∧ c'.rip = c.rip :=
  cont_stops hp h hc hi (show ahead w 0 c.bare = some c.bare from rfl)
    (fun j _ hj => absurd hj (Nat.not_lt_zero j)) hA hn

/-- A trap byte at a breakpoint the program comes to is the breakpoint's. -/
theorem armed_of_mem {k : Nat} (hd : ahead w k c.bare = some d)
    (hfree : ∀ j d', j < k → ahead w j c.bare = some d' → d'.rip ∉ A)
    (hon : d.rip ∈ addrs s.conf.bps) (hcc : c.mem d.rip = 0xcc) : d.rip ∈ A := by
  by_contra hA
  obtain ⟨c₁, rfl, hn₁, hi₁, -⟩ := runChild_ahead hp h.starts h.sound.addrs_text
    (h.child c hc).1 hi hd hfree
  have htext := h.sound.addrs_text hon
  refine hp.trapfree c₁.bare hn₁ ?_
  calc c₁.own c₁.bare.rip = p.image w c₁.bare.rip := hi₁.text _ htext
    _ = c.own c₁.bare.rip := (hi.text _ htext).symm
    _ = c.mem c₁.bare.rip := (hi.traps.clear _ hA).symm
    _ = 0xcc := hcc

theorem wayArmed_of_contExact (hquiet : Faultless w p jumps) (hexact : ContExact w s c) :
    WayArmed w s c := by
  have hrip : c.mem c.rip = 0xcc → c.rip ∈ A := rip_mem_of_trapped hp (h.child c hc).1 hi
  refine ⟨fun k d hd => ?_, fun k code he hcc => ?_, fun hun hcc => ?_⟩
  · obtain ⟨N, hN⟩ := hexact.stops k d hd
    obtain ⟨t, c', hcont, hc', hrip'⟩ := hN (N + 1) (by omega)
    split
    case isTrue hcc =>
      obtain ⟨t', c'', hcont', hc'', hrip''⟩ :=
        cont_here hp h hc hi (hrip hcc) (show 1 ≤ N + 1 by omega)
      obtain ⟨-, rfl⟩ := Prod.mk.inj (Except.ok.inj (hcont.symm.trans hcont'))
      obtain rfl := Proc.stopped.inj (hc'.symm.trans hc'')
      exact hrip'.symm.trans hrip''
    case isFalse =>
      rw [← hrip']
      exact hi.traps.mark _ (cont_at_trap hp h hc hi hquiet hcont hc')
  · obtain ⟨N, hN⟩ := hexact.exits k code he
    obtain ⟨t, hcont, hgone⟩ := hN (N + 1) (by omega)
    obtain ⟨t', c', hcont', hc', -⟩ :=
      cont_here hp h hc hi (hrip hcc) (show 1 ≤ N + 1 by omega)
    obtain ⟨-, rfl⟩ := Prod.mk.inj (Except.ok.inj (hcont.symm.trans hcont'))
    rw [hgone] at hc'
    cases hc'
  · obtain ⟨t', c', hcont', -⟩ := cont_here hp h hc hi (hrip hcc) (le_refl 1)
    rw [hexact.waits hun] at hcont'
    cases hcont'

theorem contExact_of_wayArmed (harmed : WayArmed w s c) : ContExact w s c := by
  have hrip : c.mem c.rip = 0xcc → c.rip ∈ A := rip_mem_of_trapped hp (h.child c hc).1 hi
  refine ⟨fun k d hd => ?_, fun k code he => ?_, fun hun n => ?_⟩
  · have hon := harmed.stops k d hd
    split at hon
    case isTrue hcc =>
      refine ⟨1, fun n hn => ?_⟩
      rw [hon]
      exact cont_here hp h hc hi (hrip hcc) hn
    case isFalse hfree =>
      have hway := not_mem_of_ahead hi hd.first hfree
      have hA := armed_of_mem hp h hc hi hd.comes hway hd.on hon
      exact ⟨k + 1, fun n hn => cont_stops hp h hc hi hd.comes hway hA hn⟩
  · obtain ⟨d, hd, hexit⟩ := he.exits
    have hway := not_mem_of_ahead (n := k + 1) hi (fun j d' h1 hj => he.first j d' h1 (by omega))
      (harmed.exits k code he)
    exact ⟨k + 1, fun n hn =>
      cont_exits hp h hc hi hd hexit (fun j d' hj => hway j d' (by omega)) hn⟩
  · refine cont_waits hp h hc hi (fun k => ?_) n
    obtain ⟨d, hd, hoff⟩ := hun k
    refine ⟨d, hd, not_mem_of_ahead (n := k + 1) hi (fun j d' h1 _ hd' => ?_) (harmed.waits hun) k d
      (Nat.lt_succ_self k) hd⟩
    obtain ⟨d'', hd'', hoff''⟩ := hun j
    rw [Option.some.inj (hd'.symm.trans hd'')]
    exact hoff'' h1

end Prompt

/-- **At a walking prompt `cont` is exact exactly when its way is armed.** -/
theorem contExact_of_walking (hp : Program w p starts jumps) (hquiet : Faultless w p jumps)
    (h : Walking w p starts jumps s) (hc : s.proc = .stopped c) :
    ContExact w s c ↔ WayArmed w s c := by
  obtain ⟨-, A, hi⟩ := h.child c hc
  exact ⟨wayArmed_of_contExact hp h hc hi hquiet, contExact_of_wayArmed hp h hc hi⟩

theorem walking_step (hp : Program w p starts ⊥) (hquiet : Faultless w p ⊥)
    (h : Walking w p starts ⊥ s) {a : Action} (ha : Steady w starts s a)
    (hstep : act w a s = .ok t) : Walking w p starts ⊥ t := by
  obtain ⟨cmd, e, rfl, he⟩ := effect_act h.sound.lid ha.session hstep
  refine walking_effect hp h he ha.clean ha.atStarts ha.keepsIndex ha.stepsFree ?_
  intro c A a _ _ hn hi hwhy
  have hrunning : e.resume.after = .running := ha.unsignalled
  have hfault : stepChild w c = .faulted := hwhy.resolve_left (by rw [hrunning]; nofun)
  exact absurd hfault (hquiet.not_faulted hp h.starts h.sound.addrs_text hn hi)

/-- **In every steady session `cont` is exact exactly when the first breakpoint ahead is
armed and no other trap is under the program counter.** -/
theorem contExact_iff (hp : Program w p starts ⊥) (hquiet : Faultless w p ⊥)
    (h : Run (act w) (Steady w starts) p.loaded s) (hc : s.proc = .stopped c) :
    ContExact w s c ↔ WayArmed w s c := by
  have hwalk := h.invariant (walking_loaded w p starts ⊥) fun s a t hs ha hstep =>
    walking_step hp hquiet hs ha hstep
  exact contExact_of_walking hp hquiet hwalk hc

/-- With every breakpoint armed and none under the program counter the way is. -/
theorem wayArmed_of_all (hfree : c.mem c.rip ≠ 0xcc)
    (hall : ∀ b ∈ s.conf.bps, c.mem b.addr = 0xcc) : WayArmed w s c := by
  refine ⟨fun k d hd => ?_, fun _ _ _ => hfree, fun _ => hfree⟩
  obtain ⟨b, hb, hba⟩ := hd.on
  rw [if_neg hfree, ← hba]
  exact hall b hb

theorem walk_faultless : Faultless walk walkTarget ⊥ := by
  intro c hn hfault
  rcases walk_exec (walks_native bot_le hn) with ⟨-, hexit⟩ | ⟨rip, -, hnext⟩
  · rw [hexit] at hfault
    cases hfault
  · rw [hnext] at hfault
    cases hfault

/-- Two breakpoints, the second of them set while the first is out, and a step off the first. -/
def betweenSession : List Action :=
  [.command .start {}, .command (.break_ "401004") {}, .command .cont { resume := { steps := 20 } },
   .command (.break_ "40100c") {}, .command .si { resume := { steps := 1 } }]

/-- A check that is enough to be steady without `delete` and `set`. -/
def steadyCheck (s : State ρ) (a : Action) : Bool :=
  roomy s a && match a with
    | .command .start _ => true
    | .command (.break_ _) _ => true
    | .command .cont _ => true
    | .command .si _ => s.proc.check fun c => c.mem c.rip ≠ 0xcc
    | _ => false

theorem steady_of_check {a : Action} (h : steadyCheck s a = true) (hun : Unsignalled a)
    (hat : AtStarts starts s a) : Steady w starts s a := by
  obtain ⟨hroom, hkind⟩ := Bool.and_eq_true_iff.mp h
  have hclean : CleanStep w s a := cleanStep_of_roomy hroom
  split at hkind
  case h_1 e => exact ⟨.start, hun, hat, hclean, trivial, trivial⟩
  case h_2 addr e => exact ⟨.break_ addr, hun, hat, hclean, trivial, trivial⟩
  case h_3 e => exact ⟨.cont, hun, hat, hclean, trivial, trivial⟩
  case h_4 e =>
    exact ⟨.si, hun, hat, hclean, trivial, fun c hc => of_decide_eq_true (Proc.checked hkind hc)⟩
  case h_5 => cases hkind

theorem contExact_ahead : ∃ (s : State Unit) (c : Child Unit), s.proc = .stopped c ∧
    c.rip = 0x401005 ∧ s.conf.bps.map Breakpoint.addr = [0x401004, 0x40100c] ∧
    ContExact walk s c := by
  have hfollow : (follow (act walk) betweenSession walkTarget.loaded).any
      (fun p => p.1.all (fun e => steadyCheck e.before e.action) &&
        (p.2.proc.check fun c => c.rip = 0x401005 && c.mem c.rip ≠ 0xcc &&
          p.2.conf.bps.all fun b => c.mem b.addr = 0xcc) &&
        p.2.conf.bps.map Breakpoint.addr = [0x401004, 0x40100c]) = true := by
    decide +kernel
  obtain ⟨l, t, h, hacts, hcheck⟩ := exists_path
    (fun (l : List (Edge (State Unit) Action)) t =>
      l.all (fun e => steadyCheck e.before e.action) &&
        (t.proc.check fun c => c.rip = 0x401005 && c.mem c.rip ≠ 0xcc &&
          t.conf.bps.all fun b => c.mem b.addr = 0xcc) &&
        t.conf.bps.map Breakpoint.addr = [0x401004, 0x40100c]) hfollow
  obtain ⟨hcheck, hbps⟩ := Bool.and_eq_true_iff.mp hcheck
  obtain ⟨hsteady, hstop⟩ := Bool.and_eq_true_iff.mp hcheck
  obtain ⟨c, hc, hcheck⟩ := Proc.stopped_of_check hstop
  obtain ⟨hcheck, hall⟩ := Bool.and_eq_true_iff.mp hcheck
  obtain ⟨hrip, hfree⟩ := Bool.and_eq_true_iff.mp hcheck
  have hstarts : strtoull "401004" ∈ walkStarts ∧ strtoull "40100c" ∈ walkStarts :=
    ⟨⟨by decide +kernel, by decide +kernel⟩, ⟨by decide +kernel, by decide +kernel⟩⟩
  have hrun : Run (act walk) (Steady walk walkStarts) walkTarget.loaded t := by
    refine ⟨l, h, fun e he => ?_⟩
    have hmem : e.action ∈ betweenSession := hacts ▸ List.mem_map_of_mem he
    have hkind : Unsignalled e.action ∧ AtStarts walkStarts e.before e.action := by
      simp only [betweenSession, List.mem_cons, List.not_mem_nil, or_false] at hmem
      rcases hmem with ha | ha | ha | ha | ha
      all_goals rw [ha]
      · exact ⟨rfl, trivial⟩
      · exact ⟨rfl, fun _ => hstarts.1⟩
      · exact ⟨rfl, trivial⟩
      · exact ⟨rfl, fun _ => hstarts.2⟩
      · exact ⟨rfl, trivial⟩
    exact steady_of_check (List.all_eq_true.mp hsteady e he) hkind.1 hkind.2
  have harmed : WayArmed walk t c :=
    wayArmed_of_all (of_decide_eq_true hfree)
      fun b hb => of_decide_eq_true (List.all_eq_true.mp hall b hb)
  exact ⟨t, c, hc, of_decide_eq_true hrip, of_decide_eq_true hbps,
    (contExact_iff (walk_program bot_le) walk_faultless hrun hc).mpr harmed⟩

/-! ### A breakpoint passed -/

/-- More time changes nothing once the child has stopped. -/
theorem runChild_more {wt : Wait ρ} {n : Nat} (h : runChild w .running n c = some wt) (m : Nat) :
    runChild w .running (n + m) c = some wt := by
  induction n generalizing c with
  | zero => cases h
  | succ n ih =>
    rw [Nat.succ_add]
    unfold runChild at h ⊢
    split at h
    case h_1 hs => exact ih h
    case h_2 => exact h
    case h_3 => exact h
    case h_4 => exact h

theorem cont_more {r : Reply ρ} {n : Nat} (hs : s.conf.status = .running)
    (h : cont w { steps := n } s = .ok r) (m : Nat) : cont w { steps := n + m } s = .ok r := by
  rw [cont_running hs] at h ⊢
  obtain ⟨wt, hwt, h⟩ := bind_ok.mp h
  refine bind_ok.mpr ⟨wt, ?_, h⟩
  unfold resume at hwt ⊢
  split at hwt
  case h_1 c hc =>
    split at hwt
    case h_1 wt' hrun =>
      have hrun' : runChild w .running (n + m) c = some wt' := runChild_more hrun m
      simp only [Bool.false_eq_true, if_false, hrun']
      exact hwt
    case h_2 => cases hwt
  case h_2 => exact hwt
  case h_3 => cases hwt

/-- Two breakpoints, and a stop at the first. -/
def passedSession : List Action :=
  [.command .start {}, .command (.break_ "401004") {}, .command (.break_ "401006") {},
   .command .cont { resume := { steps := 20 } }]

/-- Whether `cont` ends with the child. -/
def contEnds (w : World ρ) (n : Nat) (s : State ρ) : Bool :=
  match cont w { steps := n } s with
  | .ok (_, t) =>
    match t.proc with
    | .gone => true
    | _ => false
  | .error _ => false

/-- What the state after `passedSession` looks like. -/
def passedCheck (s : State Unit) : Bool :=
  contEnds walk 20 s && decide (s.conf.status = .running) &&
    decide (s.conf.bps.map Breakpoint.addr = [0x401004, 0x401006]) &&
    s.proc.check fun c => decide ((ahead walk 1 c.bare).map Child.rip = some 0x401005) &&
      decide ((ahead walk 2 c.bare).map Child.rip = some 0x401006)

/-- An exact `cont` does not end with the child when there is a breakpoint ahead. -/
theorem ContExact.not_ends (h : ContExact w s c) {n k : Nat} (hs : s.conf.status = .running)
    (hd : FirstBreak w s.conf.bps c k d) : contEnds w n s = false := by
  obtain ⟨N, hN⟩ := h.stops k d hd
  obtain ⟨t, c', hcont, hc', -⟩ := hN (n + N) (by omega)
  unfold contEnds
  split
  case h_1 ret u hu =>
    have hmore := cont_more hs hu N
    obtain ⟨-, rfl⟩ := Prod.mk.inj (Except.ok.inj (hcont.symm.trans hmore))
    rw [hc']
  case h_2 => rfl

/-- The first breakpoint ahead of the state after `passedSession`. -/
theorem firstBreak_passed {s : State Unit} {c : Child Unit}
    (hbps : s.conf.bps.map Breakpoint.addr = [0x401004, 0x401006])
    (h1 : (ahead walk 1 c.bare).map Child.rip = some 0x401005)
    (h2 : (ahead walk 2 c.bare).map Child.rip = some 0x401006) :
    ∃ d, FirstBreak walk s.conf.bps c 2 d := by
  have hmem : ∀ x, x ∈ addrs s.conf.bps ↔ x = 0x401004 ∨ x = 0x401006 := by
    intro x
    have : x ∈ addrs s.conf.bps ↔ x ∈ s.conf.bps.map Breakpoint.addr := List.mem_map.symm
    rw [this, hbps]
    simp
  obtain ⟨d, hd, hrip⟩ := Option.map_eq_some_iff.mp h2
  refine ⟨d, by decide, hd, (hmem _).mpr (.inr hrip), fun j d' hj1 hj2 hd' => ?_⟩
  obtain rfl : j = 1 := by omega
  rw [hd'] at h1
  have hrip' : d'.rip = 0x401005 := Option.some.inj h1
  rw [hmem, hrip']
  decide

/-- The stop at the first breakpoint disarms the second, and `cont` runs past it to the
exit. -/
theorem contExact_passed : Program walk walkTarget walkStarts ⊥ ∧ Faultless walk walkTarget ⊥ ∧
    ∃ (s : State Unit) (c : Child Unit),
      Run (act walk) (fun s a => Session a ∧ Unsignalled a ∧ AtStarts walkStarts s a)
        walkTarget.loaded s ∧ s.proc = .stopped c ∧ ¬ ContExact walk s c := by
  have hfollow : (follow (act walk) passedSession walkTarget.loaded).any
      (fun p => passedCheck p.2) = true := by
    decide +kernel
  obtain ⟨l, t, h, hacts, hcheck⟩ :=
    exists_path (fun _ (t : State Unit) => passedCheck t) hfollow
  obtain ⟨hcheck, hstop⟩ := Bool.and_eq_true_iff.mp hcheck
  obtain ⟨c, hc, hway⟩ := Proc.stopped_of_check hstop
  simp only [Bool.and_eq_true, decide_eq_true_eq] at hcheck hway
  obtain ⟨⟨hends, hstatus⟩, hbps⟩ := hcheck
  have hstarts : strtoull "401004" ∈ walkStarts ∧ strtoull "401006" ∈ walkStarts :=
    ⟨⟨by decide +kernel, by decide +kernel⟩, ⟨by decide +kernel, by decide +kernel⟩⟩
  refine ⟨walk_program bot_le, walk_faultless, t, c, ⟨l, h, fun e he => ?_⟩, hc,
    fun hexact => ?_⟩
  · have hmem : e.action ∈ passedSession := hacts ▸ List.mem_map_of_mem he
    simp only [passedSession, List.mem_cons, List.not_mem_nil, or_false] at hmem
    rcases hmem with ha | ha | ha | ha
    all_goals rw [ha]
    · exact ⟨.start, rfl, trivial⟩
    · exact ⟨.break_ _, rfl, fun _ => hstarts.1⟩
    · exact ⟨.break_ _, rfl, fun _ => hstarts.2⟩
    · exact ⟨.cont, rfl, trivial⟩
  · obtain ⟨d, hd⟩ := firstBreak_passed hbps hway.1 hway.2
    rw [hexact.not_ends hstatus hd] at hends
    cases hends

end Apue.Sdb

import Apue.Sdb.Fragment
import Apue.Sdb.Walking

/-! Single steps.

`si` runs the program's own instruction exactly when no trap is under the program
counter. Five things can leave one there: `break` at it, `delete` of a breakpoint whose
word reaches it, `set rip` to an armed breakpoint, `start` with a breakpoint at the
entry (its wait restores that byte before `setallbreak` arms it), and a signal that
stops the child at a breakpoint. In a walking session without these every single step
is exact (`stepsOnce`). -/
namespace Apue.Sdb
open Memory CLib Transition

variable {ρ : Type}

/-- From the prompt at `c`, `si` runs the program's own instruction and leaves the child
where that leaves the program. -/
def StepsOnce (w : World ρ) (s : State ρ) (c : Child ρ) : Prop :=
  ∀ r : Resume, 0 < r.steps →
    match w.exec c.own c.regs c.rest with
    | .next regs st rest => ∃ t c', si w r s = .ok (0, t) ∧ t.proc = .stopped c' ∧
        c'.regs = regs ∧ c'.own = store c.own st ∧ c'.rest = rest
    | .exit _ => ∃ t, si w r s = .ok (0, t) ∧ t.proc = .gone
    | .fault => True

/-- `set rip` to an address. -/
def SetsRip : Action → Prop
  | .command (.set reg _) _ => reg = "rip"
  | _ => False

/-- Where the step sends the child: `set rip`, and a signal one past a breakpoint, which
`cont` takes for a stop at it. -/
def SentBy (w : World ρ) (jumps : Child ρ → Addr → Prop) (s : State ρ) : Action → Prop
  | .command (.set _ val) _ => ∀ c, s.proc = .stopped c → jumps c.bare (strtoull val)
  | .command .cont e => ∀ c a, StopsAs w true e s c →
      e.resume.after = .signalled ∨ stepChild w c = .faulted →
      HitAt s.conf.bps true c.rip a → jumps c.bare a
  | _ => True

/-- The steps that leave no trap under the program counter. -/
def Untrapped (w : World ρ) (s : State ρ) : Action → Prop
  | .command (.break_ addr) _ =>
    Sets s (strtoull addr) → ∀ c, s.proc = .stopped c → strtoull addr ≠ c.rip
  | .command (.delete id) _ => ∀ did b c, Deletes s id did → s.conf.bps[did]? = some b →
      s.proc = .stopped c → c.rip ∈ addrs s.conf.bps → c.rip ∈ window b.addr → c.rip = b.addr
  | .command (.set _ val) _ => ∀ c, s.proc = .stopped c → c.mem (strtoull val) ≠ 0xcc
  | .command .start _ => s.conf.status = .loaded →
      (w.load s.conf.program).regs.rip ∉ addrs s.conf.bps
  | .command .cont e => ∀ c, StopsAs w true e s c → ¬ Exposed s c
  | _ => True

/-- No trap is under the program counter. -/
structure Exact (w : World ρ) (p : Target) (starts : Set Addr) (jumps : Child ρ → Addr → Prop)
    (s : State ρ) : Prop where
  walking : Walking w p starts jumps s
  regOffset : s.regOffset.lookup "rip" = some ripIndex
  free : ∀ c, s.proc = .stopped c → c.mem c.rip ≠ 0xcc

variable {w : World ρ} {p : Target} {starts : Set Addr}
  {jumps : Child ρ → Addr → Prop} {s t : State ρ} {e : Env}
  {cmd : Command} {c : Child ρ} {ret : Int}

/-! ### One step -/

theorem si_running {r : Resume} (hs : s.conf.status = .running) (hc : s.proc = .stopped c) :
    si w r s = (do
      let wt ← resume w true r s
      waitstatus w false wt s) := by
  have hchecks : checks "si" s = true := (checks_iff running_si).mpr hs
  simp only [si, checked, hchecks, if_true, hc]

/-- **Without a trap under the program counter `si` is exact.** -/
theorem stepsOnce_of_free (hp : Program w p starts jumps) (h : Walking w p starts jumps s)
    (hc : s.proc = .stopped c) (hfree : c.mem c.rip ≠ 0xcc) : StepsOnce w s c := by
  obtain ⟨hn, A, hi⟩ := h.child c hc
  have hA : c.rip ∉ A := fun hA => hfree (hi.traps.mark c.rip hA)
  have hstep := stepChild_native hp h.starts h.sound.addrs_text hn hi hA
  intro r hr
  have hsi := si_running (w := w) (r := r) (h.running c hc) hc
  rw [resume_single hc hr] at hsi
  cases he : w.exec c.own c.regs c.rest with
  | fault => trivial
  | exit code =>
    rw [he] at hstep
    rw [hstep.1] at hsi
    exact ⟨_, hsi, rfl⟩
  | next regs st rest =>
    rw [he] at hstep
    rw [hstep.1] at hsi
    let c₁ : Child ρ := ⟨regs, store c.mem st, rest, store c.own st⟩
    obtain ⟨reply, hreply⟩ := waitstatus_returns false c₁ h.pending h.sound.reaches
    obtain ⟨lid, c', hstops, -, hproc, hret⟩ := waitstatus_stops hreply h.sound.lid
    have hbare : c'.bare = c₁.bare := hstops.bare_si
    refine ⟨reply.2, c', ?_, hproc, congrArg Child.regs hbare, congrArg Child.own hbare,
      congrArg Child.rest hbare⟩
    rw [hsi, ← hret]
    exact hreply

/-! ### Sessions -/

/-- A command of a session keeps the program counter free. -/
theorem free_effect (hp : Program w p starts jumps) (h : Exact w p starts jumps s)
    (he : Effect w e s cmd t) (ht : Walking w p starts jumps t)
    (hclean : CleanStep w s (.command cmd e)) (hun : Untrapped w s (.command cmd e))
    (hsent : SentBy w jumps s (.command cmd e)) : ∀ c, t.proc = .stopped c → c.mem c.rip ≠ 0xcc := by
  intro c' hc'
  have hwalk := h.walking
  obtain ⟨hn', -⟩ := ht.child c' hc'
  cases he with
  | shows _ hconf hproc =>
    rw [hproc] at hc'
    exact h.free c' hc'
  | @breaks addr a c t ha hc hsets hreach hconf hproc =>
    obtain ⟨-, A, hi⟩ := hwalk.child c hc
    have hi' := (hi.breaks hwalk.sound hwalk.saved hsets (hclean.1 a ⟨ha, hsets⟩)).2
    rw [hproc] at hc'
    obtain rfl := Proc.stopped.inj hc'
    refine mem_rip_of_notMem hp hn' hi' fun hA => hA.elim (fun hrip => ?_) fun hA => ?_
    · subst ha
      exact hun hsets c hc hrip.symm
    · exact h.free c hc (hi.traps.mark c.rip hA)
  | @deletes id did b c t hdel hb hc hconf hproc =>
    obtain ⟨-, A, hi⟩ := hwalk.child c hc
    have hi' := hi.deletes hwalk.sound hwalk.saved hb (hclean.1 b.addr ⟨did, b, hdel, hb, rfl⟩)
    rw [hproc] at hc'
    obtain rfl := Proc.stopped.inj hc'
    refine mem_rip_of_notMem hp hn' hi' fun hA => hA.1.elim (fun hA => ?_) fun hwin => ?_
    · exact h.free c hc (hi.traps.mark c.rip hA)
    · exact hA.2 (hun did b c hdel hb hc hwin.1 hwin.2)
  | @stops cont c₀ c c₁ lid t hc₀ hstop hstops hconf hproc =>
    have hsignal : ∀ A a, cont = true → Native w p.program jumps c.bare → Intact w p s.conf.bps A c →
        e.resume.after = .signalled ∨ stepChild w c = .faulted →
        HitAt s.conf.bps true c.rip a → jumps c.bare a := by
      rintro A a rfl - - hwhy hhit
      exact hsent c a hstop hwhy hhit
    obtain ⟨-, A, hi, hexposed⟩ :=
      stops_walking hp hwalk hc₀ hstop hclean (fun _ => h.free c₀ hc₀) hsignal hstops
    rw [hproc] at hc'
    obtain rfl := Proc.stopped.inj hc'
    refine mem_rip_of_notMem hp hn' hi fun hA => ?_
    obtain ⟨rfl, hex⟩ := hexposed hA
    exact hun c hstop hex
  | ends _ hconf hproc =>
    rw [hproc] at hc'
    cases hc'
  | @starts c c₁ lid t hs _ hc hstops hconf hproc =>
    have hi' := Intact.starts hwalk.sound hwalk.saved hc hstops
    rw [hproc] at hc'
    obtain rfl := Proc.stopped.inj hc'
    refine mem_rip_of_notMem hp hn' hi' fun hA => hun hs ?_
    have hrip : c₁.bare.rip = c.bare.rip := congrArg Child.rip hstops.bare_si
    have hA' : c₁.bare.rip ∈ addrs s.conf.bps := hA
    rw [hrip, hc] at hA'
    exact hA'

/-- The steps of the sessions `si` is exact in. -/
structure Careful (w : World ρ) (starts : Set Addr) (jumps : Child ρ → Addr → Prop) (s : State ρ)
    (a : Action) : Prop where
  session : Session a ∨ SetsRip a
  atStarts : AtStarts starts s a
  sent : SentBy w jumps s a
  clean : CleanStep w s a
  keepsIndex : KeepsIndex s a
  untrapped : Untrapped w s a

/-- `set rip` moves the child and nothing else. -/
theorem exact_set {reg val : String} (h : Exact w p starts jumps s) (hreg : reg = "rip")
    (hjump : ∀ c, s.proc = .stopped c → jumps c.bare (strtoull val))
    (hfree : ∀ c, s.proc = .stopped c → c.mem (strtoull val) ≠ 0xcc)
    (hr : setReg w reg val s = .ok (ret, t)) : Exact w p starts jumps t := by
  have hwalk := h.walking
  rcases setReg_cases hr with ⟨lines, hl⟩ | ⟨c, i, map, hc, hmap, ht⟩
  · have ht : t = { s with out := s.out ++ lines } := hl
    rw [ht]
    exact ⟨⟨hwalk.sound, hwalk.saved, hwalk.starts, hwalk.pending, hwalk.running, hwalk.child⟩,
      h.regOffset, h.free⟩
  · have hmap' : i = ripIndex ∧ map = s.regOffset := by
      rw [hreg, h.regOffset] at hmap
      rcases hmap with ⟨hi, hmap⟩ | ⟨hnone, -⟩
      · exact ⟨(Option.some.inj hi).symm, hmap⟩
      · cases hnone
    obtain ⟨rfl, rfl⟩ := hmap'
    have ht' : t = { s with proc := .stopped (c.at (strtoull val)) } := ht
    obtain ⟨hn, A, hi⟩ := hwalk.child c hc
    rw [ht']
    refine ⟨⟨hwalk.sound, hwalk.saved, hwalk.starts, hwalk.pending, fun _ _ => hwalk.running c hc,
      fun c' hc' => ?_⟩, h.regOffset, fun c' hc' => ?_⟩
    · obtain rfl := Proc.stopped.inj hc'
      exact ⟨hn.jump (hjump c hc), A, hi.at _⟩
    · obtain rfl := Proc.stopped.inj hc'
      rw [Child.at_rip]
      exact hfree c hc

theorem exact_step (hp : Program w p starts jumps) {a : Action} (h : Exact w p starts jumps s)
    (ha : Careful w starts jumps s a) (hstep : act w a s = .ok t) : Exact w p starts jumps t := by
  rcases ha.session with hsess | hset
  · obtain ⟨cmd, e, rfl, he⟩ := effect_act h.walking.sound.lid hsess hstep
    have hfree : StepsFree s (.command cmd e) := by
      cases cmd with
      | si => exact h.free
      | _ => trivial
    have hsignal : ∀ c A a, cmd = .cont → StopsAs w true e s c → Native w p.program jumps c.bare →
        Intact w p s.conf.bps A c → e.resume.after = .signalled ∨ stepChild w c = .faulted →
        HitAt s.conf.bps true c.rip a → jumps c.bare a := by
      rintro c A a rfl hstop - - hwhy hhit
      exact ha.sent c a hstop hwhy hhit
    have ht : Walking w p starts jumps t :=
      walking_effect hp h.walking he ha.clean ha.atStarts ha.keepsIndex hfree hsignal
    obtain ⟨ret, hr⟩ := act_command hstep
    have hmap : t.regOffset = s.regOffset := regOffset_handle hsess hr
    exact ⟨ht, hmap ▸ h.regOffset, free_effect hp h he ht ha.clean ha.untrapped ha.sent⟩
  · cases a with
    | killed => exact absurd hset id
    | command cmd e =>
      cases cmd with
      | set reg val =>
        obtain ⟨ret, hr⟩ := act_command hstep
        exact exact_set h hset ha.sent ha.untrapped hr
      | _ => exact absurd hset id

/-- **In every careful session, `si` at the prompt runs exactly the program's own
instruction.** -/
theorem stepsOnce (hp : Program w p starts jumps)
    (h : Run (act w) (Careful w starts jumps) p.loaded s) (hc : s.proc = .stopped c) :
    StepsOnce w s c := by
  have h0 : Exact w p starts jumps (p.loaded : State ρ) :=
    ⟨walking_loaded w p starts jumps, rfl, nofun⟩
  have hexact := h.invariant h0 fun s a t he ha hstep => exact_step hp he ha hstep
  exact stepsOnce_of_free hp hexact.walking hc (hexact.free c hc)

/-- Single steps up to a breakpoint, and a second one set while that is out. -/
def stepSession : List Action :=
  [.command .start {}, .command (.break_ "401004") {}, .command .si { resume := { steps := 1 } },
   .command .si { resume := { steps := 1 } }, .command .si { resume := { steps := 1 } },
   .command (.break_ "40100c") {}]

/-- A check that is enough to be careful without `delete`, `set` and `cont`. -/
def carefulCheck (s : State ρ) (a : Action) : Bool :=
  roomy s a && match a with
    | .command .start _ => s.conf.bps.isEmpty
    | .command (.break_ addr) _ => s.proc.check fun c => strtoull addr ≠ c.rip
    | .command .si _ => true
    | _ => false

theorem careful_of_check {a : Action} (h : carefulCheck s a = true) (hat : AtStarts starts s a) :
    Careful w starts jumps s a := by
  obtain ⟨hroom, hkind⟩ := Bool.and_eq_true_iff.mp h
  have hclean : CleanStep w s a := cleanStep_of_roomy hroom
  split at hkind
  case h_1 e =>
    refine ⟨.inl .start, hat, trivial, hclean, trivial, fun _ => ?_⟩
    rw [List.isEmpty_iff.mp hkind, addrs_nil]
    exact Set.notMem_empty _
  case h_2 addr e =>
    exact ⟨.inl (.break_ addr), hat, trivial, hclean, trivial,
      fun _ c hc => of_decide_eq_true (Proc.checked hkind hc)⟩
  case h_3 e => exact ⟨.inl .si, hat, trivial, hclean, trivial, trivial⟩
  case h_4 => cases hkind

theorem stepsOnce_at_break : ∃ (s : State Unit) (c : Child Unit), s.proc = .stopped c ∧
    c.rip = 0x401004 ∧ s.conf.bps.map Breakpoint.addr = [0x401004, 0x40100c] ∧
    StepsOnce walk s c := by
  have hfollow : (follow (act walk) stepSession walkTarget.loaded).any
      (fun p => p.1.all (fun e => carefulCheck e.before e.action) &&
        (p.2.proc.check fun c => c.rip = 0x401004) &&
        p.2.conf.bps.map Breakpoint.addr = [0x401004, 0x40100c]) = true := by
    decide +kernel
  obtain ⟨l, t, h, hacts, hcheck⟩ := exists_path
    (fun (l : List (Edge (State Unit) Action)) t =>
      l.all (fun e => carefulCheck e.before e.action) &&
        (t.proc.check fun c => c.rip = 0x401004) &&
        t.conf.bps.map Breakpoint.addr = [0x401004, 0x40100c]) hfollow
  obtain ⟨hcheck, hbps⟩ := Bool.and_eq_true_iff.mp hcheck
  obtain ⟨hall, hstop⟩ := Bool.and_eq_true_iff.mp hcheck
  obtain ⟨c, hc, hrip⟩ := Proc.stopped_of_check hstop
  have hstarts : strtoull "401004" ∈ walkStarts ∧ strtoull "40100c" ∈ walkStarts :=
    ⟨⟨by decide +kernel, by decide +kernel⟩, ⟨by decide +kernel, by decide +kernel⟩⟩
  have hrun : Run (act walk) (Careful walk walkStarts ⊥) walkTarget.loaded t := by
    refine ⟨l, h, fun e he => careful_of_check (List.all_eq_true.mp hall e he) ?_⟩
    have hmem : e.action ∈ stepSession := hacts ▸ List.mem_map_of_mem he
    simp only [stepSession, List.mem_cons, List.not_mem_nil, or_false] at hmem
    rcases hmem with ha | ha | ha | ha | ha | ha
    all_goals rw [ha]
    · trivial
    · exact fun _ => hstarts.1
    · trivial
    · trivial
    · trivial
    · exact fun _ => hstarts.2
  exact ⟨t, c, hc, of_decide_eq_true hrip, of_decide_eq_true hbps,
    stepsOnce (walk_program bot_le) hrun hc⟩

/-- A `break` at the program counter. -/
def trapSession : List Action := [.command .start {}, .command (.break_ "401000") {}]

/-- The address the program's own instruction goes to. -/
def nextRip (w : World ρ) (c : Child ρ) : Option Addr :=
  match w.exec c.own c.regs c.rest with
  | .next regs _ _ => some regs.rip
  | _ => none

/-- The address `si` goes to. -/
def siRip (w : World ρ) (s : State ρ) : Option Addr :=
  match si w { steps := 1 } s with
  | .ok (_, t) =>
    match t.proc with
    | .stopped c => some c.rip
    | _ => none
  | .error _ => none

/-- An exact `si` goes where the program goes. -/
theorem StepsOnce.rip (h : StepsOnce w s c) {rip : Addr} (hnext : nextRip w c = some rip) :
    siRip w s = some rip := by
  have hstep := h { steps := 1 } (by decide)
  unfold nextRip at hnext
  split at hnext
  case h_1 regs st rest he =>
    rw [he] at hstep
    obtain ⟨t, c', hsi, hc', rfl, -, -⟩ := hstep
    simp only [siRip, hsi, hc']
    exact hnext
  case h_2 => cases hnext

/-- `si` from it ends in the middle of the jump. -/
theorem stepsOnce_trapped : Program walk walkTarget walkStarts (fun _ a => a ∈ walkStarts) ∧
    ∃ (s : State Unit) (c : Child Unit),
      Run (act walk) (fun s a => Session a ∧ AtStarts walkStarts s a) walkTarget.loaded s ∧
      s.proc = .stopped c ∧ ¬ StepsOnce walk s c := by
  have hfollow : (follow (act walk) trapSession walkTarget.loaded).any
      (fun p => siRip walk p.2 = some 0x401001 &&
        p.2.proc.check fun c => nextRip walk c = some 0x401002) = true := by
    decide +kernel
  obtain ⟨l, t, h, hacts, hcheck⟩ := exists_path
    (fun _ (t : State Unit) => siRip walk t = some 0x401001 &&
      t.proc.check fun c => nextRip walk c = some 0x401002) hfollow
  obtain ⟨hsi, hstop⟩ := Bool.and_eq_true_iff.mp hcheck
  obtain ⟨c, hc, hnext⟩ := Proc.stopped_of_check hstop
  have hstart : strtoull "401000" ∈ walkStarts := ⟨by decide +kernel, by decide +kernel⟩
  refine ⟨walk_program le_rfl, t, c, ⟨l, h, fun e he => ?_⟩, hc, fun hstep => ?_⟩
  · have hmem : e.action ∈ trapSession := hacts ▸ List.mem_map_of_mem he
    simp only [trapSession, List.mem_cons, List.not_mem_nil, or_false] at hmem
    rcases hmem with ha | ha
    · rw [ha]
      exact ⟨.start, trivial⟩
    · rw [ha]
      exact ⟨.break_ _, fun _ => hstart⟩
  · have hrip := hstep.rip (of_decide_eq_true hnext)
    rw [of_decide_eq_true hsi] at hrip
    exact absurd (Option.some.inj hrip) (by decide)

end Apue.Sdb

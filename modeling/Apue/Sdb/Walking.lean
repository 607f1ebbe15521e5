import Apue.Sdb.Native

/-! Sessions that walk a program.

With breakpoints at instruction starts, clean words, an index in range and no single
step from a trap, the child is at every prompt in a state of its own program, intact
under its traps (`Walking`). Whether a trap is left under the program counter is what
the results about `si` and `cont` add; `stops_walking` says when a stop leaves one. -/
namespace Apue.Sdb
open Memory CLib Transition

variable {ρ : Type}

structure Walking (w : World ρ) (p : Target) (starts : Set Addr) (jumps : Child ρ → Addr → Prop)
    (s : State ρ) : Prop where
  sound : Sound w p s.conf
  saved : Saved (p.image w) s.conf.bps
  starts : addrs s.conf.bps ⊆ starts
  pending : 0 ≤ s.conf.lid → s.pending ≠ none
  running : ∀ c, s.proc = .stopped c → s.conf.status = .running
  child : ∀ c, s.proc = .stopped c →
    Native w p.program jumps c.bare ∧ ∃ A, Intact w p s.conf.bps A c

/-- `break` sets breakpoints at instruction starts. -/
def AtStarts (starts : Set Addr) (s : State ρ) : Action → Prop
  | .command (.break_ addr) _ => Sets s (strtoull addr) → strtoull addr ∈ starts
  | _ => True

/-- No deletion leaves the pending index past the end. -/
def KeepsIndex (s : State ρ) : Action → Prop
  | .command (.delete id) _ => ∀ did, Deletes s id did → 0 ≤ s.conf.lid →
      s.conf.lid + 1 < s.conf.bps.length
  | _ => True

/-- No single step starts at a trap. -/
def StepsFree (s : State ρ) : Action → Prop
  | .command .si _ => ∀ c, s.proc = .stopped c → c.mem c.rip ≠ 0xcc
  | _ => True

/-- A stop at `c` that is taken for none at a breakpoint, with a trap under the program
counter or one about to be put back there. -/
def Exposed (s : State ρ) (c : Child ρ) : Prop :=
  c.rip - 1 ∉ addrs s.conf.bps ∧ (c.mem c.rip = 0xcc ∨
    c.rip ∈ addrs s.conf.bps ∧ ∃ a, Rearms s a ∧ c.rip ∈ window a)

section
variable {w : World ρ} {p : Target} {starts A : Set Addr}
  {jumps : Child ρ → Addr → Prop} {bps : List Breakpoint}
  {s t : State ρ} {e : Env} {c c₀ c₁ c' : Child ρ} {lid : Int} {cont : Bool}

theorem Intact.at (h : Intact w p bps A c) (rip : Addr) : Intact w p bps A (c.at rip) :=
  ⟨h.text, h.traps, h.sub⟩

/-- A child moved back to the breakpoint it stopped at is not at a trap. -/
theorem hit_rip {b : Breakpoint} (h : c'.regs = c.regs.set ripIndex b.addr) :
    c'.rip ∉ A \ window b.addr := by
  have hrip : c'.rip = b.addr := by rw [Child.rip, h, Regs.rip_set]
  rw [hrip]
  exact fun hx => hx.2 (self_mem_window b.addr)

/-- What `restoreifbreak` changes of the child by itself is where it is. -/
theorem Stops.bare (h : Stops bps cont c lid c') {rip : Addr}
    (hregs : c'.regs = c.regs.set ripIndex rip) : c'.bare = c.bare.at rip := by
  rw [Child.bare, hregs, h.own, h.rest]
  rfl

/-- Without the trap byte in between, a hit moves the child nowhere. -/
theorem Stops.bare_si (h : Stops bps false c lid c') : c'.bare = c.bare := by
  cases h with
  | elsewhere => rfl
  | @hit rid b hrid hb =>
    have hrip : b.addr = c.rip := (hitAt_of_hitIndex hrid hb).2.trans (BitVec.sub_zero c.rip)
    show c.bare.at b.addr = c.bare
    rw [hrip]
    exact c.bare.at_self

theorem Stops.pending (h : Stops bps cont c lid c') (hlid : 0 ≤ lid) : bps[lid.toNat]? ≠ none := by
  cases h with
  | elsewhere => omega
  | @hit rid b hrid hb =>
    rw [Int.toNat_natCast, hb]
    nofun

theorem Exposed.of_mem (hi : Intact w p s.conf.bps A c) (hmiss : c.rip - 1 ∉ addrs s.conf.bps)
    (h : c.rip ∈ rearm s A) : Exposed s c := by
  refine ⟨hmiss, h.imp (hi.traps.mark c.rip) fun ⟨hlid, b, hb, hon, hwin⟩ => ?_⟩
  exact ⟨hon, b.addr, ⟨hlid, b, hb, rfl⟩, hwin⟩

/-- **A stop leaves the child in a state of its own program, and a trap under the program
counter only where a signal stopped it.** -/
theorem stops_walking (hp : Program w p starts jumps) (h : Walking w p starts jumps s)
    (hc₀ : s.proc = .stopped c₀) (hstop : StopsAs w cont e s c)
    (hclean : CleanStep w s (.command (resumes cont) e))
    (hfree : cont = false → c₀.mem c₀.rip ≠ 0xcc)
    (hsignal : ∀ A a, cont = true → Native w p.program jumps c.bare → Intact w p s.conf.bps A c →
      e.resume.after = .signalled ∨ stepChild w c = .faulted →
      HitAt s.conf.bps true c.rip a → jumps c.bare a)
    (hstops : Stops s.conf.bps cont { c with mem := rearmed s c.mem } lid c') :
    Native w p.program jumps c'.bare ∧
      ∃ A, Intact w p s.conf.bps A c' ∧ (c'.rip ∈ A → cont = true ∧ Exposed s c) := by
  obtain ⟨hn₀, A, hi₀⟩ := h.child c₀ hc₀
  have htext := h.sound.addrs_text
  have hu : ∀ a, HitAt s.conf.bps cont c.rip a → Untruncated s.conf.bps a :=
    fun a ha => hclean.2 a (mem_restores hstop ha)
  have hre : ∀ c, Intact w p s.conf.bps A c →
      Intact w p s.conf.bps (rearm s A) { c with mem := rearmed s c.mem } :=
    fun c hi => hi.rearmed h.sound h.saved fun a ha => hclean.1 a (mem_arms hstop ha)
  cases cont with
  | false =>
    have hA : c₀.rip ∉ A := fun hA => hfree rfl (hi₀.traps.mark c₀.rip hA)
    obtain ⟨hn, hi⟩ := resume_si_native hp h.starts htext hc₀ hstop.2 hn₀ hi₀ hA
    rcases (hre c hi).stops h.sound h.saved hu hstops with
      ⟨-, rfl, hnone⟩ | ⟨rid, b, -, hb, hhit, hregs, hi'⟩
    · refine ⟨hn, _, hre c hi, fun hx => ?_⟩
      obtain ⟨b, hb, hba⟩ := (hre c hi).sub hx
      refine absurd ?_ (hitIndex_none hnone hb)
      simpa using hba
    · refine ⟨?_, _, hi', fun hx => absurd hx (hit_rip hregs)⟩
      rw [hstops.bare_si]
      exact hn
  | true =>
    rcases resume_cont_native hp h.starts htext hc₀ hstop.2 hn₀ hi₀ with
      ⟨c₁, hn, hi, harmed, hc⟩ | ⟨hn, hi, hwhy⟩
    · have hi' : Intact w p s.conf.bps A c := hc ▸ hi.at (c₁.rip + 1)
      have hrip : c.rip - 1 = c₁.rip := by
        rw [hc, Child.at_rip]
        exact BitVec.add_sub_cancel c₁.rip 1
      rcases (hre c hi').stops h.sound h.saved hu hstops with
        ⟨-, -, hnone⟩ | ⟨rid, b, -, hb, hhit, hregs, hi''⟩
      · obtain ⟨b, hb, hba⟩ := hi.sub harmed
        exact absurd (hba.trans hrip.symm) (hitIndex_none hnone hb)
      · have hb' : b.addr = c₁.rip := hhit.2.trans hrip
        refine ⟨?_, _, hi'', fun hx => absurd hx (hit_rip hregs)⟩
        rw [hstops.bare hregs, hb', hc]
        show Native w p.program jumps ((c₁.bare.at (c₁.rip + 1)).at c₁.bare.rip)
        rw [Child.at_at, c₁.bare.at_self]
        exact hn
    · rcases (hre c hi).stops h.sound h.saved hu hstops with
        ⟨-, rfl, hnone⟩ | ⟨rid, b, -, hb, hhit, hregs, hi'⟩
      · have hmiss : c.rip - 1 ∉ addrs s.conf.bps :=
          fun ⟨b, hb, hba⟩ => hitIndex_none hnone hb hba
        exact ⟨hn, _, hre c hi, fun hx => ⟨rfl, .of_mem hi hmiss hx⟩⟩
      · refine ⟨?_, _, hi', fun hx => absurd hx (hit_rip hregs)⟩
        rw [hstops.bare hregs]
        exact hn.jump (hsignal A b.addr rfl hn hi hwhy hhit)

/-- A new child is at the entry of its program. -/
theorem starts_walking (hc : c = w.spawned s.conf.program) (h : Walking w p starts jumps s)
    (hstops : Stops s.conf.bps false { c with mem := rearmed s c.mem } lid c') :
    Native w p.program jumps c'.bare := by
  rw [hstops.bare_si]
  show Native w p.program jumps c.bare
  rw [hc, h.sound.program]
  exact .entry

/-! ### What a command keeps -/

theorem Walking.starts_effect (h : Walking w p starts jumps s) {cmd : Command}
    (he : Effect w e s cmd t) (hat : AtStarts starts s (.command cmd e)) :
    addrs t.conf.bps ⊆ starts := by
  cases he with
  | @breaks addr a c t ha hc hsets hreach hconf hproc =>
    subst ha
    rw [hconf, addrs_append]
    exact Set.insert_subset (hat hsets) h.starts
  | @deletes id did b c t hdel hb hc hconf hproc =>
    rw [hconf, addrs_eraseIdx h.sound.distinct hb]
    exact fun x hx => h.starts hx.1
  | shows hidle hconf hproc | stops hc hstop hstops hconf hproc | ends hidle hconf hproc
  | starts hs hexec hc hstops hconf hproc =>
    rw [hconf]
    exact h.starts

/-- A fresh index is that of a breakpoint, and no deletion takes the breakpoint away. -/
theorem Walking.pending_effect (h : Walking w p starts jumps s) {cmd : Command}
    (he : Effect w e s cmd t) (hindex : KeepsIndex s (.command cmd e)) :
    0 ≤ t.conf.lid → t.pending ≠ none := by
  cases he with
  | breaks ha hc hsets hreach hconf hproc =>
    rw [State.pending, hconf]
    intro hlid hnone
    have hlen := List.getElem?_eq_none_iff.mp hnone
    rw [List.length_append] at hlen
    exact h.pending hlid (List.getElem?_eq_none_iff.mpr (Nat.le_of_add_right_le hlen))
  | @deletes id did b c t hdel hb hc hconf hproc =>
    rw [State.pending, hconf]
    intro hlid hnone
    have hlt := hindex did hdel hlid
    have hlen : (s.conf.bps.eraseIdx did).length ≤ s.conf.lid.toNat :=
      List.getElem?_eq_none_iff.mp hnone
    rw [List.length_eraseIdx, if_pos hdel.2.2] at hlen
    have hlid' : 0 ≤ s.conf.lid := hlid
    omega
  | shows hidle hconf hproc | ends hidle hconf hproc =>
    rw [State.pending, hconf]
    exact h.pending
  | stops hc hstop hstops hconf hproc | starts hs hexec hc hstops hconf hproc =>
    rw [State.pending, hconf]
    exact hstops.pending

theorem Walking.running_effect (h : Walking w p starts jumps s) {cmd : Command}
    (he : Effect w e s cmd t) : ∀ c, t.proc = .stopped c → t.conf.status = .running := by
  cases he with
  | shows hidle hconf hproc =>
    rw [hconf, hproc]
    exact h.running
  | @breaks addr a c t ha hc hsets hreach hconf hproc
  | @deletes id did b c t hdel hb hc hconf hproc =>
    rw [hconf]
    exact fun _ _ => h.running c hc
  | stops hc hstop hstops hconf hproc =>
    rw [hconf]
    exact fun _ _ => hstop.1
  | ends hidle hconf hproc =>
    intro c hc
    rw [hproc] at hc
    cases hc
  | starts hs hexec hc hstops hconf hproc =>
    rw [hconf]
    exact fun _ _ => rfl

/-- The child stays in its own program, intact under its traps. -/
theorem Walking.child_effect (hp : Program w p starts jumps) (h : Walking w p starts jumps s)
    {cmd : Command} (he : Effect w e s cmd t) (hclean : CleanStep w s (.command cmd e))
    (hfree : StepsFree s (.command cmd e))
    (hsignal : ∀ c A a, cmd = .cont → StopsAs w true e s c → Native w p.program jumps c.bare →
      Intact w p s.conf.bps A c → e.resume.after = .signalled ∨ stepChild w c = .faulted →
      HitAt s.conf.bps true c.rip a → jumps c.bare a) :
    ∀ c, t.proc = .stopped c → Native w p.program jumps c.bare ∧ ∃ A, Intact w p t.conf.bps A c := by
  intro c' hc'
  cases he with
  | shows hidle hconf hproc =>
    rw [hproc] at hc'
    rw [hconf]
    exact h.child c' hc'
  | @breaks addr a c t ha hc hsets hreach hconf hproc =>
    obtain ⟨hn, A, hi⟩ := h.child c hc
    have hi' := (hi.breaks h.sound h.saved hsets (hclean.1 a ⟨ha, hsets⟩)).2
    rw [hproc] at hc'
    rw [← Proc.stopped.inj hc', hconf]
    exact ⟨hn, _, hi'⟩
  | @deletes id did b c t hdel hb hc hconf hproc =>
    obtain ⟨hn, A, hi⟩ := h.child c hc
    have hi' := hi.deletes h.sound h.saved hb (hclean.1 b.addr ⟨did, b, hdel, hb, rfl⟩)
    rw [hproc] at hc'
    rw [← Proc.stopped.inj hc', hconf]
    exact ⟨hn, _, hi'⟩
  | @stops cont c₀ c c₁ lid t hc₀ hstop hstops hconf hproc =>
    have hfree' : cont = false → c₀.mem c₀.rip ≠ 0xcc := by
      rintro rfl
      exact hfree c₀ hc₀
    have hsignal' : ∀ A a, cont = true → Native w p.program jumps c.bare →
        Intact w p s.conf.bps A c → e.resume.after = .signalled ∨ stepChild w c = .faulted →
        HitAt s.conf.bps true c.rip a → jumps c.bare a := by
      rintro A a rfl
      exact hsignal c A a rfl hstop
    obtain ⟨hn, A, hi, -⟩ := stops_walking hp h hc₀ hstop hclean hfree' hsignal' hstops
    rw [hproc] at hc'
    rw [← Proc.stopped.inj hc', hconf]
    exact ⟨hn, _, hi⟩
  | ends hidle hconf hproc =>
    rw [hproc] at hc'
    cases hc'
  | starts hs hexec hc hstops hconf hproc =>
    rw [hproc] at hc'
    rw [← Proc.stopped.inj hc', hconf]
    have hn := starts_walking hc h hstops
    exact ⟨hn, _, Intact.starts h.sound h.saved hc hstops⟩

theorem walking_effect (hp : Program w p starts jumps) (h : Walking w p starts jumps s)
    {cmd : Command} (he : Effect w e s cmd t) (hclean : CleanStep w s (.command cmd e))
    (hat : AtStarts starts s (.command cmd e)) (hindex : KeepsIndex s (.command cmd e))
    (hfree : StepsFree s (.command cmd e))
    (hsignal : ∀ c A a, cmd = .cont → StopsAs w true e s c → Native w p.program jumps c.bare →
      Intact w p s.conf.bps A c → e.resume.after = .signalled ∨ stepChild w c = .faulted →
      HitAt s.conf.bps true c.rip a → jumps c.bare a) :
    Walking w p starts jumps t where
  sound := h.sound.effect he
  saved := saved_effect h.sound h.saved (fun c hc => (h.child c hc).2) he hclean
  starts := h.starts_effect he hat
  pending := h.pending_effect he hindex
  running := h.running_effect he
  child := h.child_effect hp he hclean hfree hsignal

theorem walking_loaded (w : World ρ) (p : Target) (starts : Set Addr) (jumps : Child ρ → Addr → Prop) :
    Walking w p starts jumps (p.loaded : State ρ) where
  sound := sound_loaded w p
  saved := nofun
  starts := fun _ ⟨_, hb, _⟩ => nomatch hb
  pending := fun (hlid : (0 : Int) ≤ -1) => absurd hlid (by decide)
  running := nofun
  child := nofun

end

end Apue.Sdb

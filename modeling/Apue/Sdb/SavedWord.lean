import Apue.Sdb.Fragment
import Apue.Sdb.Intact

/-! The saved words.

The word a breakpoint saves is read from memory that other breakpoints have changed and
is cleaned with their saved bytes. That works for six of the seven bytes after the
address: the last byte of the word is or-ed, so a breakpoint seven bytes above leaves
its trap bits in it. `saved_iff`: in a session whose distances fit an `int`, every saved
word is the program's text at every prompt exactly when every `break` finds at such a
breakpoint a byte that the or does not change. -/
namespace Apue.Sdb
open Memory CLib Transition

variable {ρ : Type}

/-- Off the breakpoints the child has its own memory, and there the text is the image's. -/
structure Kept (w : World ρ) (p : Target) (bps : List Breakpoint) (c : Child ρ) : Prop where
  text : ∀ x ∈ p.text, c.own x = p.image w x
  clear : Set.EqOn c.mem c.own ((addrs bps)ᶜ)

variable {w : World ρ} {p : Target} {bps : List Breakpoint} {c c₀ : Child ρ}

/-- The child's own stores miss the text and reach both memories. -/
theorem Kept.resume (hw : w.Protects p.text) {single : Bool} {r : Resume} {s : State ρ}
    (hc₀ : s.proc = .stopped c₀) (h : resume w single r s = .ok (.stopped c))
    (hk : Kept w p bps c₀) : Kept w p bps c := by
  refine resume_invariant (I := Kept w p bps) (fun c c' hI hs => ?_) (fun c c' hI hs => ?_) hc₀ h hk
  · obtain ⟨-, regs, st, rest, hexec, rfl⟩ := stepChild_ran hs
    refine ⟨fun x hx => ?_, fun x hx => ?_⟩
    · show store c.own st x = p.image w x
      rw [store_none c.own (hw _ _ _ _ _ _ hexec x hx)]
      exact hI.text x hx
    · show store c.mem st x = store c.own st x
      simp only [store, hI.clear hx]
  · obtain ⟨-, rfl⟩ := stepChild_trapped hs
    exact ⟨hI.text, hI.clear⟩

/-- A breakpoint's word, whatever its flags, is right off the breakpoints. -/
theorem Kept.poke (h : Kept w p bps c) (hs : Saved c.own bps) {b : Breakpoint} (hb : b ∈ bps)
    (hu : Untruncated bps b.addr) (to0xcc includeSelf : Bool) :
    Kept w p bps { c with
      mem := poke c.mem b.addr (alternate bps b.code b.addr to0xcc includeSelf) } := by
  refine ⟨h.text, eqOn_poke h.clear fun k hk hoff => ?_⟩
  rw [byteOf_alternate_off hu b.code to0xcc includeSelf hk hoff]
  exact hs b hb k hk

theorem Kept.breaks (h : Kept w p bps c) {b : Breakpoint} :
    Kept w p (bps ++ [b]) { c with
      mem := Memory.poke c.mem b.addr (withLow (peek c.mem b.addr) 0xcc) } := by
  refine ⟨h.text, ?_⟩
  rw [addrs_append]
  exact eqOn_poke_low b.addr h.clear (by decide)

theorem Kept.deletes (h : Kept w p bps c) (hd : Distinct bps) (hs : Saved c.own bps) {did : Nat}
    {b : Breakpoint} (hb : bps[did]? = some b) (hu : Untruncated bps b.addr) :
    Kept w p (bps.eraseIdx did) { c with
      mem := Memory.poke c.mem b.addr (alternate bps b.code b.addr true false) } := by
  have hmem : b ∈ bps := List.mem_of_getElem? hb
  have hkept := h.poke hs hmem hu true false
  refine ⟨h.text, fun x hx => ?_⟩
  rw [addrs_eraseIdx hd hb] at hx
  by_cases hxb : x = b.addr
  · rw [hxb, ← hs.zero hmem, ← byteOf_alternate_self hu b.code true]
    exact poke_self _ _ _
  · exact hkept.clear fun hB => hx ⟨hB, hxb⟩

/-- A stop keeps what is off the breakpoints. -/
theorem Kept.stops {s : State ρ} (h : Kept w p s.conf.bps c) (hs : Saved c.own s.conf.bps)
    (hrearm : ∀ a, Rearms s a → Untruncated s.conf.bps a) {cont : Bool}
    (hhit : ∀ a, HitAt s.conf.bps cont c.rip a → Untruncated s.conf.bps a) {lid : Int}
    {c' : Child ρ} (hstops : Stops s.conf.bps cont { c with mem := rearmed s c.mem } lid c') :
    Kept w p s.conf.bps c' := by
  have hk : Kept w p s.conf.bps { c with mem := rearmed s c.mem } := by
    rcases rearmed_cases s with ⟨-, hmem, -⟩ | ⟨b, hlid, hb, hmem, -⟩
    · rw [hmem]
      exact h
    · rw [hmem]
      exact h.poke hs (State.pending_mem hb) (hrearm _ ⟨hlid, b, hb, rfl⟩) true true
  cases hstops with
  | elsewhere => exact hk
  | hit hrid hb =>
    have hu := hhit _ (hitAt_of_hitIndex hrid hb)
    have hpoke := hk.poke hs (List.mem_of_getElem? hb) hu false false
    exact ⟨hpoke.text, hpoke.clear⟩

/-! ### Sessions -/

/-- What a session keeps beside the saved words. -/
structure Clear (w : World ρ) (p : Target) (s : State ρ) : Prop where
  sound : Sound w p s.conf
  kept : ∀ c, s.proc = .stopped c → Kept w p s.conf.bps c

theorem Clear.saved {s : State ρ} (h : Clear w p s) (hs : Saved (p.image w) s.conf.bps)
    (hc : s.proc = .stopped c) : Saved c.own s.conf.bps :=
  hs.of_text h.sound (h.kept c hc).text

/-- Of a stopped child, one memory has to be kept. -/
theorem Clear.of_stopped {t : State ρ} (hsound : Sound w p t.conf) (hproc : t.proc = .stopped c)
    (hk : Kept w p t.conf.bps c) : Clear w p t := by
  refine ⟨hsound, fun c' hc' => ?_⟩
  rw [← Proc.stopped.inj (hproc.symm.trans hc')]
  exact hk

theorem Clear.stops (hw : w.Protects p.text) {s t : State ρ} {cont : Bool} {e : Env}
    {c' : Child ρ} {lid : Int} (h : Clear w p s) (hs : Saved (p.image w) s.conf.bps)
    (hnear : Near w s (.command (resumes cont) e)) (hc₀ : s.proc = .stopped c₀)
    (hstop : StopsAs w cont e s c)
    (hstops : Stops s.conf.bps cont { c with mem := rearmed s c.mem } lid c')
    (hsound : Sound w p t.conf) (hconf : t.conf = { s.conf with lid := lid })
    (hproc : t.proc = .stopped c') : Clear w p t := by
  have hk := (h.kept c₀ hc₀).resume hw hc₀ hstop.2
  have hk' : Kept w p s.conf.bps c' :=
    hk.stops (hs.of_text h.sound hk.text) (fun a ha => hnear a (.inl (mem_arms hstop ha)))
      (fun a ha => hnear a (.inr (mem_restores hstop ha))) hstops
  refine .of_stopped hsound hproc ?_
  rw [hconf]
  exact hk'

end Apue.Sdb

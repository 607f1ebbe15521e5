import Apue.Sdb.Fragment
import Apue.Sdb.Intact

/-! Which breakpoints are armed at the prompt.

`restoreifbreak` takes out every trap in the window of the breakpoint it stopped at, and
the next `resetbreak` puts back what is in the window of the one `conf.lid` names then.
In a session whose words are clean, where no stop has a breakpoint close above it and no
`delete` shifts the pending one, all breakpoints but the one under the program counter
are armed at every prompt and nothing else is disturbed (`undisturbed`). -/
namespace Apue.Sdb
open Memory CLib Transition

variable {ρ : Type}

/-- Traps at the breakpoints away from the program counter, the child's own bytes off
the breakpoints, and the image's text. -/
structure Undisturbed (w : World ρ) (p : Target) (bps : List Breakpoint) (c : Child ρ) : Prop where
  armed : ∀ x ∈ addrs bps, x ≠ c.rip → c.mem x = 0xcc
  clear : ∀ x, x ∉ addrs bps → c.mem x = c.own x
  text : ∀ x ∈ p.text, c.own x = p.image w x

/-- Every breakpoint is armed but the pending one, where the child is. -/
structure Guarded (w : World ρ) (p : Target) (s : State ρ) : Prop where
  sound : Sound w p s.conf
  saved : Saved (p.image w) s.conf.bps
  armed : ∀ c, s.proc = .stopped c → ∃ A, Intact w p s.conf.bps A c ∧
    ∀ b ∈ s.conf.bps, b.addr ∉ A → 0 ≤ s.conf.lid ∧ s.pending = some b ∧ c.rip = b.addr

variable {w : World ρ} {p : Target} {s t : State ρ}

theorem Guarded.bytes (h : Guarded w p s) {c : Child ρ} (hc : s.proc = .stopped c) :
    Undisturbed w p s.conf.bps c := by
  obtain ⟨A, hi, hguard⟩ := h.armed c hc
  refine ⟨fun x ⟨b, hb, hbx⟩ hx => hi.traps.mark x ?_,
    fun x hx => hi.traps.clear x fun hA => hx (hi.sub hA), hi.text⟩
  by_contra hA
  exact hx ((hguard b hb (hbx ▸ hA)).2.2.trans hbx).symm

/-- Putting the pending breakpoint back arms everything. -/
theorem rearm_eq {A : Set Addr} (hA : A ⊆ addrs s.conf.bps)
    (h : ∀ b ∈ s.conf.bps, b.addr ∉ A → 0 ≤ s.conf.lid ∧ s.pending = some b) :
    rearm s A = addrs s.conf.bps := by
  ext x
  refine ⟨fun hx => hx.elim (fun hx => hA hx) fun ⟨_, _, _, hx, _⟩ => hx, fun ⟨b, hb, hbx⟩ => ?_⟩
  by_cases hx : x ∈ A
  · exact .inl hx
  · obtain ⟨hlid, hp⟩ := h b hb (hbx ▸ hx)
    subst hbx
    exact .inr ⟨hlid, b, hp, mem_addrs hb, self_mem_window b.addr⟩

end Apue.Sdb

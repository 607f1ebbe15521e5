import Apue.Sdb.Mirror
import Mathlib.Data.List.InsertIdx

/-! The debugger refines the ideal one.

Each orderly step is matched by a step of the ideal debugger (`mirrors_step`), so every
orderly session is a session of it (`session_refines`). -/
namespace Apue.Sdb
open Memory CLib Transition

variable {ρ : Type} {w : World ρ} {p : Target} {starts A : Set Addr}
  {jumps : Child ρ → Addr → Prop} {s t : State ρ} {e : Env}
  {bps : List Breakpoint} {b : Breakpoint} {c c' : Child ρ} {d d' : Ideal ρ}

/-- The next wait arms every breakpoint. -/
theorem Mirrors.rearms (h : Mirrors w p starts jumps s d) (hi : Intact w p s.conf.bps A c)
    (hguard : ∀ b ∈ s.conf.bps, b.addr ∉ A → 0 ≤ s.conf.lid ∧ s.pending = some b) :
    Intact w p s.conf.bps (addrs s.conf.bps) { c with mem := rearmed s c.mem } := by
  have hpending : ∀ a, Rearms s a → Clean s.conf.bps a :=
    fun a ⟨_, b, hb, hba⟩ => h.spread.clean ⟨b, State.pending_mem hb, hba⟩
  have hre := hi.rearmed h.walking.sound h.walking.saved hpending
  rw [rearm_eq hi.sub hguard] at hre
  exact hre

theorem Mirrors.exits (h : Mirrors w p starts jumps s d) (hwalk : Walking w p starts jumps t)
    (hmap : t.regOffset.lookup "rip" = some ripIndex)
    (hconf : t.conf = { s.conf with status := .loaded }) (hproc : t.proc = .gone) :
    Mirrors w p starts jumps t ⟨none, d.marks⟩ :=
  ⟨hwalk, by rw [hconf]; exact h.spread, hmap, by rw [hconf]; exact h.marks, by rw [hconf], hproc⟩

/-- What a stop leaves mirrors the program where it stopped. -/
theorem Mirrors.stops (h : Mirrors w p starts jumps s d) (hwalk : Walking w p starts jumps t)
    (hmap : t.regOffset.lookup "rip" = some ripIndex) (hs : s.conf.status = .running) {lid : Int}
    (hconf : t.conf = { s.conf with lid := lid }) (hproc : t.proc = .stopped c')
    (hg : Guards w p t c') : Mirrors w p starts jumps t ⟨some c'.bare, d.marks⟩ := by
  refine ⟨hwalk, by rw [hconf]; exact h.spread, hmap, by rw [hconf]; exact h.marks, ?_⟩
  exact ⟨by rw [hconf]; exact hs, c', hproc, rfl, hg⟩

/-- Before the program comes to a trap it comes to no breakpoint: the one that is out is not
on the way. -/
theorem Travels.passes (h : Travels w e s) (hc : s.proc = .stopped c) {n : Nat}
    (hguard : ∀ b ∈ s.conf.bps, b.addr ∉ A → 0 ≤ s.conf.lid ∧ s.pending = some b)
    (hfree : ∀ j d, j < n → ahead w j c.bare = some d → d.rip ∉ A) :
    ∀ j d, 1 ≤ j → j < n → ahead w j c.bare = some d → d.rip ∉ addrs s.conf.bps := by
  -- the first breakpoint on the way would be the one that is out
  intro j
  induction j using Nat.strongRecOn with
  | ind j ih =>
    intro d hpos hj hd hon
    obtain ⟨b, hb, hba⟩ := hon
    obtain ⟨hlid, hpend⟩ := hguard b hb (hba ▸ hfree j d hj hd)
    refine h.onward c j d b hc ⟨hpos, hd, ⟨b, hb, hba⟩, ?_⟩ hlid hpend hba.symm
    exact fun i d' hi hij hd' => ih i hij d' hi (by omega) hd'

end Apue.Sdb

import Apue.Sdb.SetAll

/-! Stops: what a wait and a start leave behind.

A wait that reports a stop puts the pending breakpoint back (`rearmed`) and then looks
for a breakpoint at the child (`Stops`). `start` does the same on the new image and
writes every breakpoint again, so what the first wait did to the traps does not matter
after it. -/
namespace Apue.Sdb
open Memory CLib Transition

variable {ρ : Type}

/-- The memory after `resetbreak`. -/
def rearmed (s : State ρ) (m : Mem) : Mem :=
  if s.conf.lid < 0 then m
  else
    match s.pending with
    | none => m
    | some b => poke m b.addr (alternate s.conf.bps b.code b.addr true true)

/-- The traps after `resetbreak`. -/
def rearm (s : State ρ) (A : Set Addr) : Set Addr :=
  {x | x ∈ A ∨ 0 ≤ s.conf.lid ∧ ∃ p, s.pending = some p ∧ x ∈ addrs s.conf.bps ∩ window p.addr}

/-- What `restoreifbreak` makes of a child: the index and the child it leaves. -/
inductive Stops (bps : List Breakpoint) (cont : Bool) (c : Child ρ) : Int → Child ρ → Prop where
  | elsewhere : hitIndex bps cont c.rip = none → Stops bps cont c (-1) c
  | hit {rid : Nat} {b : Breakpoint} : hitIndex bps cont c.rip = some rid → bps[rid]? = some b →
      Stops bps cont c rid { c with
        regs := c.regs.set ripIndex b.addr
        mem := poke c.mem b.addr (alternate bps b.code b.addr false false) }

theorem State.pending_mem {s : State ρ} {p : Breakpoint} (h : s.pending = some p) :
    p ∈ s.conf.bps :=
  List.mem_of_getElem? h

/-- `resetbreak` writes nothing, or the word of the pending breakpoint, which arms its window. -/
theorem rearmed_cases (s : State ρ) :
    ((s.conf.lid < 0 ∨ s.pending = none) ∧ (∀ m, rearmed s m = m) ∧ ∀ A, rearm s A = A) ∨
    ∃ b, 0 ≤ s.conf.lid ∧ s.pending = some b ∧
      (∀ m, rearmed s m = poke m b.addr (alternate s.conf.bps b.code b.addr true true)) ∧
      ∀ A, rearm s A = A ∪ (addrs s.conf.bps ∩ window b.addr) := by
  by_cases hneg : s.conf.lid < 0
  case pos =>
    refine .inl ⟨.inl hneg, fun m => if_pos hneg, fun A => ?_⟩
    ext x
    exact ⟨fun hx => hx.elim id fun hx => absurd hx.1 (by omega), .inl⟩
  cases hp : s.pending with
  | none =>
    refine .inl ⟨.inr rfl, fun m => ?_, fun A => ?_⟩
    · rw [rearmed, if_neg hneg, hp]
    · ext x
      refine ⟨fun hx => hx.elim id fun ⟨_, q, hq, _⟩ => ?_, .inl⟩
      rw [hp] at hq
      cases hq
  | some b =>
    refine .inr ⟨b, by omega, rfl, fun m => ?_, fun A => ?_⟩
    · rw [rearmed, if_neg hneg, hp]
    · ext x
      refine or_congr_right ⟨fun ⟨_, q, hq, hx⟩ => ?_, fun hx => ⟨by omega, b, hp, hx⟩⟩
      rw [hp] at hq
      rw [Option.some.inj hq]
      exact hx

/-- A wait that reports a stop. -/
theorem waitstatus_stops {w : World ρ} {cont : Bool} {c : Child ρ} {s : State ρ} {r : Reply ρ}
    (h : waitstatus w cont (.stopped c) s = .ok r) (hlid : -1 ≤ s.conf.lid) :
    ∃ lid c', Stops s.conf.bps cont { c with mem := rearmed s c.mem } lid c' ∧
      r.2.conf = { s.conf with lid := lid } ∧ r.2.proc = .stopped c' ∧ r.1 = 0 := by
  obtain ⟨hret, out, t, ht, hr⟩ := waitstatus_stopped h
  have hreset : t.conf = { s.conf with lid := -1 } ∧
      t.proc = .stopped { c with mem := rearmed s c.mem } := by
    rcases resetbreak_cases ht with ⟨hneg, rfl⟩ | ⟨p, c', hpos, hp, hc', -, rfl⟩
    · have hlt : s.conf.lid < 0 := hneg
      have hone : s.conf.lid = -1 := by omega
      refine ⟨?_, ?_⟩
      · show s.conf = { s.conf with lid := -1 }
        rw [← hone]
      · rw [rearmed, if_pos hlt]
    · cases hc'
      have hnn : ¬ s.conf.lid < 0 := by
        have : 0 ≤ s.conf.lid := hpos
        omega
      have hp' : s.pending = some p := hp
      refine ⟨rfl, ?_⟩
      rw [rearmed, if_neg hnn, hp']
  obtain ⟨hconf, hproc⟩ := hreset
  have hbps : t.conf.bps = s.conf.bps := by rw [hconf]
  rcases restoreifbreak_cases hproc hr with ⟨hnone, hrt⟩ | ⟨rid, b, out', hrid, hb, -, hrt⟩
  · rw [hbps] at hnone
    exact ⟨-1, _, .elsewhere hnone, by rw [hrt, hconf], by rw [hrt, hproc], hret⟩
  · rw [hbps] at hrid hb
    exact ⟨rid, _, .hit hrid hb, by rw [hrt, hconf], by rw [hrt, hbps], hret⟩

/-- It returns whenever the pending index is in range and the breakpoints are mapped. -/
theorem waitstatus_returns {w : World ρ} (cont : Bool) (c : Child ρ) {s : State ρ}
    (hpending : 0 ≤ s.conf.lid → s.pending ≠ none) (hreach : ∀ b ∈ s.conf.bps, w.reaches b.addr = true) :
    ∃ r, waitstatus w cont (.stopped c) s = .ok r := by
  have hreset : ∃ t c', resetbreak w ({ s with proc := .stopped c }.say "wait: stopped") = .ok t ∧
      t.proc = .stopped c' ∧ t.conf.bps = s.conf.bps := by
    unfold resetbreak
    split
    case isTrue => exact ⟨_, c, rfl, rfl, rfl⟩
    case isFalse hneg =>
      have hnonneg : 0 ≤ s.conf.lid := by
        have : ¬ s.conf.lid < 0 := hneg
        omega
      split
      case h_1 hnone => exact absurd hnone (hpending hnonneg)
      case h_2 p hp =>
        have hp' : p ∈ s.conf.bps := State.pending_mem (s := s) hp
        rw [poketext_stopped _ rfl (hreach p hp')]
        exact ⟨_, _, rfl, rfl, rfl⟩
  obtain ⟨t, c', ht, hc', hbps⟩ := hreset
  have hrestore : ∃ u, restoreifbreak w cont t = .ok u := by
    unfold restoreifbreak
    simp only
    split
    case h_1 => exact ⟨_, rfl⟩
    case h_2 rid hrid =>
      obtain ⟨b, hb, -⟩ := hitIndex_some hrid
      have hb' : w.reaches b.addr = true := hreach b (hbps ▸ List.mem_of_getElem? hb)
      simp only [hb]
      exact ⟨_, bind_ok.mpr ⟨_, pokeuser_stopped _ hc' (w.takes_rip _),
        bind_ok.mpr ⟨_, poketext_stopped _ rfl hb', rfl⟩⟩⟩
  obtain ⟨u, hu⟩ := hrestore
  exact ⟨(0, u), bind_ok.mpr ⟨t, ht, bind_ok.mpr ⟨u, hu, rfl⟩⟩⟩

end Apue.Sdb

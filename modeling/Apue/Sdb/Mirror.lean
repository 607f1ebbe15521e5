import Apue.Sdb.Ideal

/-! The debugger beside the ideal one.

`Mirrors` relates a prompt to a state of the ideal debugger: the child without its traps
is the ideal program, every breakpoint is armed but one that the next wait puts back, and
no trap is under the program counter. `Orderly` are the steps that keep it so. -/
namespace Apue.Sdb
open Memory CLib Transition

variable {ρ : Type}

/-- Eight bytes or more apart, as the debugger measures it. -/
def Apart (a b : Addr) : Prop := 8 ≤ dist a b ∨ dist a b ≤ -8

instance (a b : Addr) : Decidable (Apart a b) := inferInstanceAs (Decidable (_ ∨ _))

/-- No two breakpoints share a word. -/
def Spread (bps : List Breakpoint) : Prop :=
  ∀ b ∈ bps, ∀ c ∈ bps, b ≠ c → Apart b.addr c.addr

/-- The child has traps at all breakpoints but the one about to be put back, and none is
under its program counter. -/
def Guards (w : World ρ) (p : Target) (s : State ρ) (c : Child ρ) : Prop :=
  ∃ A, Intact w p s.conf.bps A c ∧ c.rip ∉ A ∧
    ∀ b ∈ s.conf.bps, b.addr ∉ A → 0 ≤ s.conf.lid ∧ s.pending = some b

structure Mirrors (w : World ρ) (p : Target) (starts : Set Addr) (jumps : Child ρ → Addr → Prop)
    (s : State ρ) (d : Ideal ρ) : Prop where
  walking : Walking w p starts jumps s
  spread : Spread s.conf.bps
  regOffset : s.regOffset.lookup "rip" = some ripIndex
  marks : s.conf.bps.map Breakpoint.addr = d.marks
  child : match d.child with
    | none => s.conf.status = .loaded ∧ s.proc = .gone
    | some c => s.conf.status = .running ∧ ∃ c', s.proc = .stopped c' ∧ c'.bare = c ∧ Guards w p s c'

/-- Where a new child begins is no breakpoint, and it gets there. -/
def Opens (w : World ρ) (e : Env) (s : State ρ) : Prop :=
  e.spawn.result = .execd ∧ (w.load s.conf.program).regs.rip ∉ addrs s.conf.bps

/-- No signal is sent, and the program does not come back to the breakpoint that is out
before it comes to another. -/
structure Travels (w : World ρ) (e : Env) (s : State ρ) : Prop where
  unsignalled : e.resume.after = .running
  onward : ∀ c k d b, s.proc = .stopped c → FirstBreak w s.conf.bps c k d → 0 ≤ s.conf.lid →
    s.pending = some b → d.rip ≠ b.addr

/-- The steps of the sessions that are sessions of the ideal debugger. -/
def Orderly (w : World ρ) (starts : Set Addr) (jumps : Child ρ → Addr → Prop) (s : State ρ) :
    Action → Prop
  | .command (.break_ addr) _ => Sets s (strtoull addr) → strtoull addr ∈ starts ∧
      (∀ c, s.proc = .stopped c → strtoull addr ≠ c.rip) ∧
      ∀ b ∈ s.conf.bps, Apart (strtoull addr) b.addr ∧ Apart b.addr (strtoull addr)
  | .command (.delete id) _ => ∀ did, Deletes s id did → s.conf.lid ≤ did ∧
      (0 ≤ s.conf.lid → s.conf.lid + 1 < s.conf.bps.length)
  | .command (.set reg val) _ => reg = "rip" ∧
      ∀ c, s.proc = .stopped c → jumps c.bare (strtoull val) ∧ c.mem (strtoull val) ≠ 0xcc
  | .command .start e => s.conf.status = .loaded → Opens w e s
  | .command .si e => e.resume.after = .running
  | .command .cont e => Travels w e s
  | .command .run e => (s.conf.status = .loaded → Opens w e s) ∧ Travels w e s
  | .command _ _ => True
  | .killed => False

variable {w : World ρ} {p : Target} {starts A : Set Addr}
  {jumps : Child ρ → Addr → Prop} {s t : State ρ} {e : Env}
  {bps : List Breakpoint} {b : Breakpoint} {c c' : Child ρ} {d d' : Ideal ρ}

/-! ### Breakpoints apart -/

theorem not_mem_window_of_apart {a x : Addr} (h : Apart a x) : x ∉ window a := by
  intro hx
  have hnear : (x - a).toNat < 8 := hx
  have hdist := dist_of_near hnear
  rcases h with h | h <;> omega

/-- The word of an address apart from the breakpoints is clean. -/
theorem clean_of_apart {a : Addr} (h : ∀ b ∈ bps, b.addr = a ∨ Apart a b.addr) : Clean bps a := by
  refine ⟨fun b hb hlow hhigh => ?_, fun b hb h7 => ?_⟩
  · rcases h b hb with rfl | h
    · simp
    · rcases h with h | h <;> omega
  · rcases h b hb with rfl | h
    · simp at h7
    · have hmem : b.addr ∈ window a := show (b.addr - a).toNat < 8 by omega
      exact not_mem_window_of_apart h hmem

theorem Spread.clean (h : Spread bps) {a : Addr} (ha : a ∈ addrs bps) : Clean bps a := by
  obtain ⟨b, hb, rfl⟩ := ha
  refine clean_of_apart fun c hc => ?_
  by_cases he : c = b
  · exact .inl (congrArg Breakpoint.addr he)
  · exact .inr (h b hb c hc fun he' => he he'.symm)

theorem Spread.append (h : Spread bps)
    (hnew : ∀ c ∈ bps, Apart b.addr c.addr ∧ Apart c.addr b.addr) : Spread (bps ++ [b]) := by
  intro x hx y hy hne
  rcases List.mem_append.mp hx with hx | hx
  · rcases List.mem_append.mp hy with hy | hy
    · exact h x hx y hy hne
    · rw [List.mem_singleton.mp hy]
      exact (hnew x hx).2
  · rw [List.mem_singleton.mp hx] at hne ⊢
    rcases List.mem_append.mp hy with hy | hy
    · exact (hnew y hy).1
    · exact absurd (List.mem_singleton.mp hy).symm hne

theorem Spread.eraseIdx (h : Spread bps) (did : Nat) : Spread (bps.eraseIdx did) := by
  have hsub := (List.eraseIdx_sublist bps did).subset
  exact fun x hx y hy hne => h x (hsub hx) y (hsub hy) hne

/-! ### What an orderly command is -/

/-- An orderly command writes clean words. -/
theorem Orderly.clean (hm : Spread s.conf.bps) {cmd : Command}
    (h : Orderly w starts jumps s (.command cmd e)) : CleanStep w s (.command cmd e) := by
  have hmem : ∀ a ∈ addrs s.conf.bps, Clean s.conf.bps a := fun a ha => hm.clean ha
  by_cases hbreak : ∃ addr, cmd = .break_ addr
  · obtain ⟨addr, rfl⟩ := hbreak
    refine ⟨fun a ha => ?_, fun a ha => absurd ha (Set.notMem_empty a)⟩
    obtain ⟨rfl, hsets⟩ := ha
    exact clean_of_apart fun b hb => .inr ((h hsets).2.2 b hb).1
  · have hcmd : ∀ addr, cmd ≠ .break_ addr := fun addr hc => hbreak ⟨addr, hc⟩
    exact ⟨fun a ha => hmem a (arms_restores_sub hcmd (.inl ha)),
      fun a ha => (hmem a (arms_restores_sub hcmd (.inr ha))).untruncated⟩

theorem Orderly.atStarts {cmd : Command} (h : Orderly w starts jumps s (.command cmd e)) :
    AtStarts starts s (.command cmd e) := by
  cases cmd with
  | break_ addr => exact fun hsets => (h hsets).1
  | _ => trivial

theorem Orderly.keepsIndex {cmd : Command} (h : Orderly w starts jumps s (.command cmd e)) :
    KeepsIndex s (.command cmd e) := by
  cases cmd with
  | delete id => exact fun did hdel => (h did hdel).2
  | _ => trivial

/-! ### The child between two prompts -/

theorem Mirrors.same (h : Mirrors w p starts jumps s d) (hconf : t.conf = s.conf)
    (hproc : t.proc = s.proc) (hmap : t.regOffset = s.regOffset) : Mirrors w p starts jumps t d := by
  obtain ⟨walking, spread, regOffset, marks, child⟩ := h
  obtain ⟨sound, saved, hstarts, pending, running, native⟩ := walking
  have hpending : t.pending = s.pending := by rw [State.pending, State.pending, hconf]
  simp only [Guards] at child
  rw [← hconf] at sound saved hstarts pending spread marks
  simp only [← hconf, ← hproc, ← hpending] at running native pending child
  exact ⟨⟨sound, saved, hstarts, pending, running, native⟩, spread, hmap ▸ regOffset, marks, child⟩

theorem Mirrors.of_shows (h : Mirrors w p starts jumps s d) (hshows : Shows s t) :
    Mirrors w p starts jumps t d := by
  obtain ⟨lines, rfl⟩ := hshows
  exact h.same rfl rfl rfl

theorem Mirrors.running (h : Mirrors w p starts jumps s d) (hs : s.conf.status = .running) :
    ∃ c, s.proc = .stopped c ∧ d.child = some c.bare ∧ Guards w p s c := by
  have hchild := h.child
  cases hd : d.child with
  | none =>
    rw [hd] at hchild
    exact absurd (hchild.1.symm.trans hs) nofun
  | some c =>
    rw [hd] at hchild
    obtain ⟨-, c', hc', rfl, hg⟩ := hchild
    exact ⟨c', hc', rfl, hg⟩

theorem Guards.free (hp : Program w p starts jumps) (hn : Native w p.program jumps c.bare)
    (h : Guards w p s c) : c.mem c.rip ≠ 0xcc := by
  obtain ⟨A, hi, hA, -⟩ := h
  exact mem_rip_of_notMem hp hn hi hA

end Apue.Sdb

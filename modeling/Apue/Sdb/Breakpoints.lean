import Apue.Sdb.Fragment

/-! The breakpoint list as a set of addresses.

`Sited` is the invariant: no two breakpoints have one address, each address is in the
range, and nothing is listed before a program is loaded, which is why `load` can set the
range without leaving a breakpoint outside. Only `break` adds to the list, behind its
range check and its scan (`Moves`), and the checks come before the word is written, so a
refused `break` touches nothing (`setbreak_refused`). `breakpoints_path` puts these
together for every session. -/
namespace Apue.Sdb
open Memory CLib Transition

variable {ρ : Type} {w : World ρ} {s t : State ρ}

/-- The range check of a `break` at `a`, in the state the step starts from. -/
def Accepts (a : Addr) (x : Edge (State ρ) Action) : Prop :=
  ∃ addr e, x.action = .command (.break_ addr) e ∧ strtoull addr = a ∧ x.before.conf.InRange a

structure Sited (s : State ρ) : Prop where
  distinct : Distinct s.conf.bps
  inRange : ∀ b ∈ s.conf.bps, s.conf.InRange b.addr
  unloaded : s.conf.status = .notLoaded → s.conf.bps = []

theorem Sited.initial : Sited ({} : State ρ) := ⟨List.nodup_nil, nofun, fun _ => rfl⟩

theorem Keeps.inRange (h : Keeps s t) {a : Addr} : t.conf.InRange a ↔ s.conf.InRange a := by
  unfold Config.InRange
  rw [h.entrypoint, h.textsize]

/-- Any step keeps the invariant. -/
theorem Sited.step {x : Action} (h : Sited s) (hs : act w x s = .ok t) : Sited t := by
  have hd : Distinct t.conf.bps := (act_moves hs).distinct h.distinct
  cases act_moves hs with
  | keeps hk =>
    refine ⟨hd, fun b hb => ?_, fun ht => ?_⟩
    · rw [hk.bps] at hb
      exact hk.inRange.mpr (h.inRange b hb)
    · rw [hk.bps]
      exact h.unloaded (by_contra fun hne => hk.loaded hne ht)
  | sets code hsets ht =>
    rw [ht] at hd
    refine ⟨by rwa [ht], fun b hb => ?_, fun hnot => ?_⟩
    · rw [ht] at hb ⊢
      rcases List.mem_append.mp hb with hb | hb
      · exact h.inRange b hb
      · rw [List.mem_singleton.mp hb]
        exact hsets.inRange
    · -- breakpoints are set in a running program only
      rw [ht] at hnot
      exact absurd (hsets.running.symm.trans hnot) nofun
  | erases did hdel ht =>
    refine ⟨hd, fun b hb => ?_, fun hnot => ?_⟩
    · rw [ht] at hb ⊢
      exact h.inRange b (List.mem_of_mem_eraseIdx hb)
    · rw [ht] at hnot
      exact absurd (hdel.1.symm.trans hnot) nofun
  | loads hnot hloaded hbps =>
    rw [h.unloaded hnot] at hbps
    refine ⟨hd, fun b hb => ?_, fun _ => hbps⟩
    rw [hbps] at hb
    cases hb

theorem Sited.path {l : List (Edge (State ρ) Action)} (h : Sited s) (hp : Path (act w) s l t) :
    Sited t := by
  have hrun : Run (act w) (fun _ _ => True) s t := ⟨l, hp, fun _ _ => trivial⟩
  exact hrun.invariant h fun _ _ _ hs _ => hs.step

/-- What a step adds to the list was accepted by its range check. -/
theorem accepted_step {x : Action} (hs : act w x s = .ok t) {b : Breakpoint}
    (hb : b ∈ t.conf.bps) : b ∈ s.conf.bps ∨ Accepts b.addr ⟨s, x, t⟩ := by
  cases act_moves hs with
  | keeps hk => exact .inl (hk.bps ▸ hb)
  | @sets addr e code hsets ht =>
    rw [ht] at hb
    rcases List.mem_append.mp hb with hb | hb
    · exact .inl hb
    · rw [List.mem_singleton.mp hb]
      exact .inr ⟨addr, e, rfl, rfl, hsets.inRange⟩
  | erases did _ ht =>
    rw [ht] at hb
    exact .inl (List.mem_of_mem_eraseIdx hb)
  | loads _ _ hbps => exact .inl (hbps ▸ hb)

theorem accepted_path {l : List (Edge (State ρ) Action)} (hp : Path (act w) s l t)
    {b : Breakpoint} (hb : b ∈ t.conf.bps) : b ∈ s.conf.bps ∨ ∃ x ∈ l, Accepts b.addr x := by
  induction hp with
  | nil => exact .inl hb
  | @cons s t u a l hs _ ih =>
    rcases ih hb with hmem | ⟨x, hx, hacc⟩
    · rcases accepted_step hs hmem with hmem | hacc
      · exact .inl hmem
      · exact .inr ⟨_, List.mem_cons_self .., hacc⟩
    · exact .inr ⟨x, List.mem_cons_of_mem _ hx, hacc⟩

/-- A `break` that returns an error has only shown something. -/
theorem setbreak_refused {addr : String} {r : Reply ρ} (h : setbreak w addr s = .ok r)
    (hr : r.1 ≠ 0) : r.2.conf = s.conf ∧ r.2.proc = s.proc := by
  rcases setbreak_cases h with ⟨⟨lines, hl⟩, -⟩ | ⟨c, -, -, -, rfl⟩
  · rw [hl]
    exact ⟨rfl, rfl⟩
  · exact absurd rfl hr

/-- **After any session the breakpoints are a set of addresses in the range, each let in
by the range check, and a `break` that fails changes neither them nor the child.** -/
theorem breakpoints_path (w : World ρ) {l : List (Edge (State ρ) Action)} {t : State ρ}
    (h : Path (act w) {} l t) :
    Distinct t.conf.bps ∧
    (∀ b ∈ t.conf.bps, (∃ x ∈ l, Accepts b.addr x) ∧ t.conf.InRange b.addr) ∧
    ∀ addr r, setbreak w addr t = .ok r → r.1 ≠ 0 →
      r.2.conf.bps = t.conf.bps ∧ r.2.conf.lid = t.conf.lid ∧ r.2.proc = t.proc := by
  have hsited := Sited.initial.path h
  refine ⟨hsited.distinct, fun b hb => ⟨?_, hsited.inRange b hb⟩, fun addr r hset hr => ?_⟩
  · rcases accepted_path h hb with hnil | hacc
    · cases hnil
    · exact hacc
  · obtain ⟨hconf, hproc⟩ := setbreak_refused hset hr
    exact ⟨by rw [hconf], by rw [hconf], hproc⟩

/-- A breakpoint asked for twice, one deleted, an exit and a restart. -/
def restartedSession : List Action :=
  [.command (.load "walk") {}, .command .start {}, .command (.break_ "401004") {},
   .command (.break_ "401008") {}, .command (.break_ "0x401004") {}, .command (.delete "0") {},
   .command .cont { resume := { steps := 20 } }, .command .cont { resume := { steps := 20 } },
   .command .start {}]

theorem breakpoints_restarted : ∃ l t, Path (act walk) {} l t ∧
    l.map Edge.action = restartedSession ∧ addrs t.conf.bps = {0x401008} ∧
    ∀ b ∈ t.conf.bps, ∃ x ∈ l, Accepts b.addr x := by
  have hfollow : (follow (act walk) restartedSession {}).any
      (fun p => decide (p.2.conf.bps.map Breakpoint.addr = [0x401008])) = true := by
    decide +kernel
  obtain ⟨l, t, h, hacts, haddrs⟩ := exists_path
    (fun _ (t : State Unit) => decide (t.conf.bps.map Breakpoint.addr = [0x401008])) hfollow
  obtain ⟨-, hsites, -⟩ := breakpoints_path walk h
  refine ⟨l, t, h, hacts, ?_, fun b hb => (hsites b hb).1⟩
  obtain ⟨b, hb, haddr⟩ := List.map_eq_singleton_iff.mp (of_decide_eq_true haddrs)
  rw [hb, addrs_cons, addrs_nil, haddr, insert_empty_eq]

end Apue.Sdb

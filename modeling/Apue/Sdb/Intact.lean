import Apue.Sdb.Session

/-! The child under its traps.

`Intact`: the child's memory is its own with traps at some of the breakpoints, and its
text is the image's. As long as the words a step writes are clean (`CleanStep`) every
command keeps it, and moves the set of traps as its write does. -/
namespace Apue.Sdb
open Memory CLib Transition

variable {ρ : Type}

/-- The distances of the words the step writes fit an `int`, and no breakpoint is at the
last byte of a word that traps are put in. -/
def CleanStep (w : World ρ) (s : State ρ) : Action → Prop
  | .command cmd e =>
    (∀ a ∈ Arms w s cmd e, Clean s.conf.bps a) ∧
    ∀ a ∈ Restores w s cmd e, Untruncated s.conf.bps a
  | .killed => True

/-- The `int` distances of the step are the real ones. -/
def Near (w : World ρ) (s : State ρ) : Action → Prop
  | .command cmd e => ∀ a ∈ Arms w s cmd e ∪ Restores w s cmd e, Untruncated s.conf.bps a
  | .killed => True

theorem near_of_cleanStep {s : State ρ} {a : Action} (h : CleanStep w s a) : Near w s a := by
  cases a with
  | killed => trivial
  | command cmd e => exact fun a ha => ha.elim (fun ha => (h.1 a ha).untruncated) (h.2 a)

/-- The child has its own memory with traps at `A`, and the image's text. -/
structure Intact (w : World ρ) (p : Target) (bps : List Breakpoint) (A : Set Addr)
    (c : Child ρ) : Prop where
  text : ∀ x ∈ p.text, c.own x = p.image w x
  traps : Trapped c.own A c.mem
  sub : A ⊆ addrs bps

variable {w : World ρ} {p : Target} {bps : List Breakpoint} {A : Set Addr} {c c' : Child ρ}
  {s t : State ρ} {e : Env}

/-- No other breakpoint passes for one in the eight bytes from `a` on. -/
def Roomy (bps : List Breakpoint) (a : Addr) : Prop :=
  ∀ b ∈ bps, 0 ≤ dist a b.addr → dist a b.addr < 8 → b.addr = a

instance (bps : List Breakpoint) (a : Addr) : Decidable (Roomy bps a) :=
  inferInstanceAs (Decidable (∀ b ∈ bps, _ → _ → _))

/-- Every word that the step may write has room. -/
def roomy (s : State ρ) : Action → Bool
  | .command (.break_ addr) _ => Roomy s.conf.bps (strtoull addr)
  | _ => s.conf.bps.all fun b => Roomy s.conf.bps b.addr

/-- Where there is room a word has no other breakpoint in it. -/
theorem Roomy.eq_of_near {a x : Addr} (h : Roomy bps a) (hx : x ∈ addrs bps) (hnear : (x - a).toNat < 8) :
    x = a := by
  obtain ⟨b, hb, rfl⟩ := hx
  have hdist := dist_of_near hnear
  exact h b hb (by omega) (by omega)

theorem Roomy.clean {a : Addr} (h : Roomy bps a) : Clean bps a := by
  refine ⟨fun b hb hlow hhigh => ?_, fun b hb h7 => ?_⟩
  · rw [h b hb hlow hhigh]
    simp
  · rw [h.eq_of_near (mem_addrs hb) (by omega)] at h7
    simp at h7

theorem roomy_break {addr : String} (h : roomy s (.command (.break_ addr) e) = true) :
    Roomy s.conf.bps (strtoull addr) :=
  of_decide_eq_true h

theorem roomy_other {cmd : Command} (h : roomy s (.command cmd e) = true) (hcmd : ∀ addr, cmd ≠ .break_ addr)
    {a : Addr} (ha : a ∈ addrs s.conf.bps) : Roomy s.conf.bps a := by
  obtain ⟨b, hb, rfl⟩ := ha
  have hall : (s.conf.bps.all fun b => Roomy s.conf.bps b.addr) = true := by
    cases cmd with
    | break_ addr => exact absurd rfl (hcmd addr)
    | _ => exact h
  exact of_decide_eq_true (List.all_eq_true.mp hall b hb)

/-- A step with room is clean. -/
theorem cleanStep_of_roomy {a : Action} (h : roomy s a = true) : CleanStep w s a := by
  cases a with
  | killed => trivial
  | command cmd e =>
    by_cases hbreak : ∃ addr, cmd = .break_ addr
    · obtain ⟨addr, rfl⟩ := hbreak
      refine ⟨fun a ha => ?_, fun a ha => absurd ha (Set.notMem_empty a)⟩
      obtain ⟨rfl, -⟩ := ha
      exact (roomy_break h).clean
    · have hcmd : ∀ addr, cmd ≠ .break_ addr := fun addr hc => hbreak ⟨addr, hc⟩
      exact ⟨fun a ha => (roomy_other h hcmd (arms_restores_sub hcmd (.inl ha))).clean,
        fun a ha => (roomy_other h hcmd (arms_restores_sub hcmd (.inr ha))).clean.untruncated⟩

/-- Breakpoints lie in the text. -/
theorem Sound.addrs_text (h : Sound w p s.conf) : addrs s.conf.bps ⊆ p.text := by
  rintro x ⟨b, hb, rfl⟩
  exact h.text b hb (self_mem_window b.addr)

/-- A processor that leaves the text alone keeps the child intact. -/
theorem Intact.resume (hw : w.Protects p.text) (hA : A ⊆ p.text) {single : Bool} {r : Resume}
    {c₀ : Child ρ} (hc₀ : s.proc = .stopped c₀) (h : resume w single r s = .ok (.stopped c))
    (hi : Intact w p bps A c₀) : Intact w p bps A c := by
  have hran : ∀ c c', Intact w p bps A c → stepChild w c = .ran c' → Intact w p bps A c' := by
    intro c c' hI hs
    obtain ⟨-, regs, st, rest, hexec, rfl⟩ := stepChild_ran hs
    have hst : ∀ x ∈ p.text, st x = none := hw _ _ _ _ _ _ hexec
    refine ⟨fun x hx => ?_, hI.traps.store fun x hx => hst x (hA hx), hI.sub⟩
    show store c.own st x = p.image w x
    rw [store_none c.own (hst x hx)]
    exact hI.text x hx
  have htrap : ∀ c c', Intact w p bps A c → stepChild w c = .trapped c' → Intact w p bps A c' := by
    intro c c' hI hs
    obtain ⟨-, rfl⟩ := stepChild_trapped hs
    exact ⟨hI.text, hI.traps, hI.sub⟩
  exact resume_invariant hran htrap hc₀ h hi

section Writes
variable (hsound : Sound w p s.conf) (hsaved : Saved (p.image w) s.conf.bps)
include hsound hsaved

theorem Intact.saved (h : Intact w p s.conf.bps A c) : Saved c.own s.conf.bps :=
  hsaved.of_text hsound h.text

/-- A clean `break` saves the text and adds its trap. -/
theorem Intact.breaks (h : Intact w p s.conf.bps A c) {a : Addr} (hsets : Sets s a)
    (hclean : Clean s.conf.bps a) :
    Saved (p.image w) (s.conf.bps ++ [⟨a, alternate s.conf.bps (peek c.mem a) a false true⟩]) ∧
    Intact w p (s.conf.bps ++ [⟨a, alternate s.conf.bps (peek c.mem a) a false true⟩])
      (insert a A) { c with mem := poke c.mem a (withLow (peek c.mem a) 0xcc) } := by
  refine ⟨fun b hb k hk => ?_, h.text, h.traps.insert a, ?_⟩
  · rcases List.mem_append.mp hb with hb | hb
    · exact hsaved b hb k hk
    · have hmost := (byteOf_captured (h.traps.eqOn h.sub) (h.saved hsound hsaved) hsound.distinct
        hclean.untruncated).1 k hk
      have hoff : k ≠ 7 ∨ a + 7 ∉ addrs s.conf.bps := by
        refine .inr fun ⟨c, hc, hca⟩ => hclean.clearAtSeven c hc ?_
        rw [hca]
        exact offset_add a (show 7 < 2 ^ 64 by decide)
      rw [List.mem_singleton.mp hb, ← h.text _ (hsound.covers hsets.inRange (mem_window a hk))]
      exact hmost hoff
  · rw [addrs_append]
    exact Set.insert_subset_insert h.sub

/-- A clean `delete` adds the traps of its window and takes out its own. -/
theorem Intact.deletes (h : Intact w p s.conf.bps A c) {did : Nat} {b : Breakpoint}
    (hb : s.conf.bps[did]? = some b) (hclean : Clean s.conf.bps b.addr) :
    Intact w p (s.conf.bps.eraseIdx did) ((A ∪ (addrs s.conf.bps ∩ window b.addr)) \ {b.addr})
      { c with mem := poke c.mem b.addr (alternate s.conf.bps b.code b.addr true false) } := by
  refine ⟨h.text, h.traps.delete h.sub (h.saved hsound hsaved) hsound.distinct
    (List.mem_of_getElem? hb) hclean, fun x hx => ?_⟩
  rw [addrs_eraseIdx hsound.distinct hb]
  exact ⟨hx.1.elim (fun hA => h.sub hA) And.left, hx.2⟩

theorem Intact.rearmed (h : Intact w p s.conf.bps A c)
    (hclean : ∀ a, Rearms s a → Clean s.conf.bps a) :
    Intact w p s.conf.bps (rearm s A) { c with mem := Sdb.rearmed s c.mem } := by
  refine ⟨h.text, ?_, fun x hx => hx.elim (fun hA => h.sub hA) fun ⟨_, _, _, hx, _⟩ => hx⟩
  show Trapped c.own (rearm s A) (Sdb.rearmed s c.mem)
  rcases rearmed_cases s with ⟨-, hmem, hrearm⟩ | ⟨b, hlid, hp, hmem, hrearm⟩
  · rw [hmem, hrearm]
    exact h.traps
  · rw [hmem, hrearm]
    exact h.traps.reset h.sub (h.saved hsound hsaved) hsound.distinct (State.pending_mem hp)
      (hclean b.addr ⟨hlid, b, hp, rfl⟩)

/-- A stop elsewhere leaves the child as it is; a hit takes the window of the breakpoint
out and moves the child back to it. -/
theorem Intact.stops (h : Intact w p s.conf.bps A c) {cont : Bool} {lid : Int}
    (hu : ∀ a, HitAt s.conf.bps cont c.rip a → Untruncated s.conf.bps a)
    (hstops : Stops s.conf.bps cont c lid c') :
    (lid = -1 ∧ c' = c ∧ hitIndex s.conf.bps cont c.rip = none) ∨
    ∃ (rid : Nat) (b : Breakpoint), lid = rid ∧ s.conf.bps[rid]? = some b ∧
      HitAt s.conf.bps cont c.rip b.addr ∧ c'.regs = c.regs.set ripIndex b.addr ∧
      Intact w p s.conf.bps (A \ window b.addr) c' := by
  cases hstops with
  | elsewhere hnone => exact .inl ⟨rfl, rfl, hnone⟩
  | @hit rid b hrid hb =>
    have hhit := hitAt_of_hitIndex hrid hb
    refine .inr ⟨rid, b, rfl, hb, hhit, rfl, h.text, ?_, fun x hx => h.sub hx.1⟩
    exact h.traps.restore (h.saved hsound hsaved) hsound.distinct (List.mem_of_getElem? hb)
      (hu _ hhit)

/-- A new child has a trap at every breakpoint. -/
theorem Intact.starts {lid : Int} (hc : c = w.spawned s.conf.program)
    (hstops : Stops s.conf.bps false { c with mem := Sdb.rearmed s c.mem } lid c') :
    Intact w p s.conf.bps (addrs s.conf.bps)
      { c' with mem := setallMem (sortedByAddr s.conf.bps) c'.mem } := by
  obtain ⟨hown, htrap⟩ := trapped_start hsound hsaved hc hstops
  exact ⟨fun x _ => congrFun hown x, htrap, Set.Subset.refl _⟩

/-- Clean commands of an intact child keep the saved words right. -/
theorem saved_effect (hchild : ∀ c, s.proc = .stopped c → ∃ A, Intact w p s.conf.bps A c)
    {cmd : Command} (he : Effect w e s cmd t) (hclean : CleanStep w s (.command cmd e)) :
    Saved (p.image w) t.conf.bps := by
  cases he with
  | @breaks addr a c t ha hc hsets hreach hconf hproc =>
    obtain ⟨A, hi⟩ := hchild c hc
    rw [hconf]
    exact (hi.breaks hsound hsaved hsets (hclean.1 a ⟨ha, hsets⟩)).1
  | @deletes id did b c t hdel hb hc hconf hproc =>
    rw [hconf]
    exact fun b' hb' => hsaved b' ((List.eraseIdx_sublist s.conf.bps did).subset hb')
  | shows hidle hconf hproc | stops hc hstop hstops hconf hproc | ends hidle hconf hproc
  | starts hs hexec hc hstops hconf hproc =>
    rw [hconf]
    exact hsaved

end Writes

end Apue.Sdb

import Apue.Sdb.Fragment
import Apue.Sdb.Overlay

/-! `break`, and `delete` right after it.

`break` patches one byte of the word it read and saves a cleaned copy; `delete` writes
the whole copy back with a trap for every neighbour. `undone_iff`: the two cancel exactly
when the neighbours within seven bytes above are armed, the last byte of the word has the
bits of everything or-ed into it, and the number of the breakpoint fits an `int`. -/
namespace Apue.Sdb
open Memory CLib Transition

variable {ρ : Type}

/-- Deleting the newest breakpoint of `t` gives back memory, breakpoints and index of `s`,
where the child is `c`. -/
def Undone (w : World ρ) (s : State ρ) (c : Child ρ) (t : State ρ) : Prop :=
  ∃ r c', deletebreak w (toString s.conf.bps.length) t = .ok r ∧ r.2.proc = .stopped c' ∧
    c'.mem = c.mem ∧ r.2.conf.bps = s.conf.bps ∧ r.2.conf.lid = s.conf.lid

/-- What `break` at `a` has to find: `first` and the codes in `last` are about breakpoints
that only pass for near ones. -/
structure Undoable (bps : List Breakpoint) (m : Mem) (a : Addr) : Prop where
  index : bps.length < 2 ^ 31
  first : ∀ b ∈ (hits bps a true 0).getLast?, byteOf b.code 0 = m a
  armed : ∀ k < 7, 1 ≤ k → hits bps a true k ≠ [] → m (a + BitVec.ofNat 64 k) = 0xcc
  last : ∀ b ∈ hits bps a true 7, Bits (byteOf b.code 0) (m (a + 7)) ∧ Bits 0xcc (m (a + 7))

instance (bps : List Breakpoint) (m : Mem) (a : Addr) : Decidable (Undoable bps m a) :=
  decidable_of_iff (bps.length < 2 ^ 31 ∧
    (∀ b ∈ (hits bps a true 0).getLast?, byteOf b.code 0 = m a) ∧
    (∀ k < 7, 1 ≤ k → hits bps a true k ≠ [] → m (a + BitVec.ofNat 64 k) = 0xcc) ∧
    ∀ b ∈ hits bps a true 7, Bits (byteOf b.code 0) (m (a + 7)) ∧ Bits 0xcc (m (a + 7)))
    ⟨fun h => ⟨h.1, h.2.1, h.2.2.1, h.2.2.2⟩, fun h => ⟨h.index, h.first, h.armed, h.last⟩⟩

section
variable {w : World ρ} {s t : State ρ} {c : Child ρ} {bps : List Breakpoint} {a : Addr} {m : Mem}
  {addr : String} {ret : Int}

/-- The word `break` saves. -/
def savedWord (bps : List Breakpoint) (m : Mem) (a : Addr) : Word :=
  alternate bps (peek m a) a false true

/-- The memory after `break`, and after `delete`. -/
def undoMem (bps : List Breakpoint) (m : Mem) (a : Addr) : Mem :=
  poke (poke m a (withLow (peek m a) 0xcc)) a
    (alternate (bps ++ [⟨a, savedWord bps m a⟩]) (savedWord bps m a) a true false)

/-- A breakpoint is no neighbour of itself. -/
theorem hits_append_self (code : Word) (k : Nat) :
    hits (bps ++ [⟨a, code⟩]) a false k = hits bps a false k := by
  have hself : ¬ Hits a false k ⟨a, code⟩ := by
    rintro ⟨hdist, hpos⟩
    have hzero : dist a a = 0 := by
      have hnear : (a - a).toNat < 8 := by simp
      rw [dist_of_near hnear]
      simp
    have hdist' : dist a a = k := hdist
    rw [hzero] at hdist'
    simp only [Bool.false_eq_true, false_or] at hpos
    omega
  rw [hits, List.filter_append, List.filter_cons_of_neg (by simpa using hself), List.filter_nil,
    List.append_nil]
  rfl

theorem hits_pos {k : Nat} (hk : 0 < k) : hits bps a false k = hits bps a true k := by
  apply List.filter_congr
  intro b _
  simp [Hits, hk]

theorem byteOf_saved {k : Nat} (hk : k < 7) : byteOf (savedWord bps m a) k =
    ((hits bps a true k).getLast?.map (newByte false)).getD (m (a + BitVec.ofNat 64 k)) := by
  rw [savedWord, byteOf_alternate_last _ hk, byteOf_peek m a (by omega)]

/-- The word `delete` writes, byte by byte: the first byte is the saved one … -/
theorem undo_first (code : Word) : byteOf (alternate (bps ++ [⟨a, code⟩]) (savedWord bps m a) a true false) 0
    = ((hits bps a true 0).getLast?.map (newByte false)).getD (m a) := by
  have hnone : hits bps a false 0 = [] := by
    apply List.filter_eq_nil_iff.mpr
    intro b _
    simp [Hits]
  rw [byteOf_alternate_last _ (by decide), hits_append_self, hnone, byteOf_saved (by decide),
    BitVec.add_zero]
  rfl

/-- … the next ones have a trap wherever a breakpoint hits … -/
theorem undo_next (code : Word) {k : Nat} (hpos : 1 ≤ k) (hk : k < 7) :
    byteOf (alternate (bps ++ [⟨a, code⟩]) (savedWord bps m a) a true false) k =
      if hits bps a true k = [] then m (a + BitVec.ofNat 64 k) else 0xcc := by
  rw [byteOf_alternate_trap _ hk, hits_append_self, hits_pos hpos]
  split
  · next hnil =>
      rw [byteOf_saved hk, hnil]
      rfl
  · rfl

/-- … and into the last one all of it is or-ed. -/
theorem undo_last (code : Word) :
    byteOf (alternate (bps ++ [⟨a, code⟩]) (savedWord bps m a) a true false) 7 =
      ((hits bps a true 7).map (newByte false) ++ (hits bps a true 7).map (newByte true)).foldl
        (· ||| ·) (m (a + 7)) := by
  rw [byteOf_alternate_or, hits_append_self, hits_pos (by decide), savedWord, byteOf_alternate_or,
    byteOf_peek m a (by decide), List.foldl_append]
  rfl

theorem poke_poke_eq_iff (v v' : Word) :
    poke (poke m a v) a v' = m ↔ ∀ k < 8, byteOf v' k = m (a + BitVec.ofNat 64 k) := by
  constructor
  · intro h k hk
    rw [← poke_apply (poke m a v) a v' hk, h]
  · intro h
    funext x
    by_cases hx : (x - a).toNat < 8
    · have hk := h _ hx
      rw [add_offset] at hk
      rw [← hk]
      exact if_pos hx
    · rw [poke_outside _ _ _ hx, poke_outside _ _ _ hx]

/-- **`delete` right after `break` gives the memory back exactly when every byte it writes
is the one `break` found.** -/
theorem undoMem_iff (hn : bps.length < 2 ^ 31) : undoMem bps m a = m ↔ Undoable bps m a := by
  have hfirst : ((hits bps a true 0).getLast?.map (newByte false)).getD (m a) = m a ↔
      ∀ b ∈ (hits bps a true 0).getLast?, byteOf b.code 0 = m a := by
    cases (hits bps a true 0).getLast? with
    | none => simp
    | some b => simp [newByte]
  have hlast : ((hits bps a true 7).map (newByte false) ++
        (hits bps a true 7).map (newByte true)).foldl (· ||| ·) (m (a + 7)) = m (a + 7) ↔
      ∀ b ∈ hits bps a true 7, Bits (byteOf b.code 0) (m (a + 7)) ∧ Bits 0xcc (m (a + 7)) := by
    rw [foldl_or_iff (.inl rfl), and_iff_right (Bits.refl _), List.forall_mem_append,
      List.forall_mem_map, List.forall_mem_map]
    exact forall₂_and.symm
  rw [undoMem, poke_poke_eq_iff]
  constructor
  · intro h
    refine ⟨hn, hfirst.mp ?_, fun k hk hpos hne => ?_, hlast.mp ?_⟩
    · rw [← undo_first, h 0 (by decide), BitVec.add_zero]
    · rw [← h k (by omega), undo_next _ hpos hk, if_neg hne]
    · rw [← undo_last, h 7 (by decide)]
      rfl
  · intro h k hk
    by_cases h0 : k = 0
    · rw [h0, undo_first, hfirst.mpr h.first, BitVec.add_zero]
    · by_cases h7 : k = 7
      · rw [h7, undo_last, hlast.mpr h.last]
        rfl
      · rw [undo_next _ (by omega) (by omega)]
        split
        · rfl
        · next hne => exact (h.armed k (by omega) (by omega) hne).symm

/-- `delete` of the newest breakpoint, from a state whose child is stopped. -/
theorem deletebreak_newest {b : Breakpoint} (hs : t.conf.status = .running)
    (hc : t.proc = .stopped c) (hbps : t.conf.bps = bps ++ [b]) (hr : w.reaches b.addr = true) :
    if bps.length < 2 ^ 31 then
      deletebreak w (toString bps.length) t = .ok (0, State.debug { t with
        conf := { t.conf with bps := bps }
        proc := .stopped { c with
          mem := poke c.mem b.addr (alternate (bps ++ [b]) b.code b.addr true false) } }
        ("breakpoint " ++ toString bps.length ++ " deleted"))
    else deletebreak w (toString bps.length) t = .error .abort := by
  have hsmall : ¬ tooLarge (bps.length : Int) (bps ++ [b]).length := by
    rw [List.length_append]
    unfold tooLarge
    simp only [List.length_cons, List.length_nil]
    omega
  have hget : (bps ++ [b])[bps.length]? = some b := by simp
  have herase : (bps ++ [b]).eraseIdx bps.length = bps := by
    rw [List.eraseIdx_append_of_length_le (Nat.le_refl _), Nat.sub_self, List.eraseIdx_cons_zero,
      List.append_nil]
  rw [deletebreak, checked_running running_delete hs, stoi_toString, hbps]
  split
  · simp only [hsmall, if_false, Int.toNat_natCast, hget, poketext_stopped _ hc hr]
    refine bind_ok.mpr ⟨_, rfl, ?_⟩
    simp only [hbps, herase]
  · rfl

/-- **`delete` right after a `break` that was accepted leaves memory, breakpoints and the
pending index as they were exactly when the word `break` patched was undoable.** -/
theorem undone_iff (hc : s.proc = .stopped c) (hsets : Sets s (strtoull addr))
    (h : setbreak w addr s = .ok (ret, t)) :
    Undone w s c t ↔ Undoable s.conf.bps c.mem (strtoull addr) := by
  rcases setbreak_cases h with ⟨-, hno⟩ | ⟨c₁, hc₁, -, hreach, ht⟩
  · exact absurd hsets hno
  obtain rfl : c = c₁ := Proc.stopped.inj (hc.symm.trans hc₁)
  obtain ⟨-, ht⟩ := Prod.mk.inj ht
  have hrun : t.conf.status = .running := by
    rw [ht]
    exact hsets.running
  have hbps : t.conf.bps = s.conf.bps ++
      [⟨strtoull addr, savedWord s.conf.bps c.mem (strtoull addr)⟩] := by
    rw [ht]
    rfl
  have hlid : t.conf.lid = s.conf.lid := by rw [ht]
  have hproc : t.proc = .stopped { c with
      mem := poke c.mem (strtoull addr) (withLow (peek c.mem (strtoull addr)) 0xcc) } := by
    rw [ht]
  have hdelete := deletebreak_newest hrun hproc hbps hreach
  split at hdelete
  · next hn =>
      rw [← undoMem_iff hn]
      constructor
      · rintro ⟨r, c', hr, hc', hmem, -⟩
        obtain rfl := Except.ok.inj (hr.symm.trans hdelete)
        rw [← Proc.stopped.inj hc'] at hmem
        exact hmem
      · intro hmem
        exact ⟨_, _, hdelete, rfl, hmem, rfl, hlid⟩
  · next hn =>
      refine iff_of_false ?_ fun hun => hn hun.index
      rintro ⟨r, c', hr, -⟩
      rw [hdelete] at hr
      cases hr

end

/-! ### A neighbour above -/

/-- The breaks of a session at the entry whose state passes a check. -/
def breaksWith (q : State Unit → Child Unit → State Unit → Bool)
    (l : List (Edge (State Unit) Action)) : Bool :=
  l.any fun e => decide (e.action = .command (.break_ "401000") {}) &&
    decide (e.before.conf.status = .running) && decide (e.before.conf.InRange 0x401000) &&
    e.before.conf.bps.all (fun b => b.addr ≠ 0x401000) &&
    e.before.proc.check fun c => q e.before c e.after

theorem breaksWith_sound {q : State Unit → Child Unit → State Unit → Bool}
    {l : List (Edge (State Unit) Action)} {s₀ t₀ : State Unit} (hpath : Path (act walk) s₀ l t₀)
    (h : breaksWith q l = true) : ∃ e ∈ l, ∃ ret c, e.before.proc = .stopped c ∧
      Sets e.before (strtoull "401000") ∧ setbreak walk "401000" e.before = .ok (ret, e.after) ∧
      q e.before c e.after = true := by
  obtain ⟨e, he, hcheck⟩ := List.any_eq_true.mp h
  simp only [Bool.and_eq_true, decide_eq_true_eq] at hcheck
  obtain ⟨⟨⟨⟨hact, hrun⟩, hrange⟩, hfresh⟩, hstopped⟩ := hcheck
  obtain ⟨c, hc, hq⟩ := Proc.stopped_of_check hstopped
  have hstep := hpath.step_of_mem e he
  rw [hact] at hstep
  obtain ⟨ret, hret⟩ := act_command hstep
  refine ⟨e, he, ret, c, hc, ⟨hrun, hrange, ?_⟩, hret, hq⟩
  rintro ⟨b, hb, hba⟩
  exact of_decide_eq_true (List.all_eq_true.mp hfresh b hb) hba

/-- An armed neighbour is put back as it was. -/
theorem undone_armed : ∃ l t, Path (act walk) {} l t ∧
    l.map Edge.action = [.command (.load "walk") {}, .command .start {},
      .command (.break_ "401004") {}, .command (.break_ "401000") {}] ∧
    ∃ e ∈ l, ∃ c, e.before.proc = .stopped c ∧ Undone walk e.before c e.after := by
  let q := fun (s : State Unit) (c : Child Unit) (_ : State Unit) =>
    decide (Undoable s.conf.bps c.mem (strtoull "401000"))
  have hfollow : (follow (act walk) [.command (.load "walk") {}, .command .start {},
      .command (.break_ "401004") {}, .command (.break_ "401000") {}] {}).any
      (fun p => breaksWith q p.1) = true := by decide +kernel
  obtain ⟨l, t, hpath, hacts, hcheck⟩ :=
    exists_path (fun l (_ : State Unit) => breaksWith q l) hfollow
  obtain ⟨e, he, ret, c, hc, hsets, hret, hq⟩ := breaksWith_sound hpath hcheck
  exact ⟨l, t, hpath, hacts, e, he, c, hc, (undone_iff hc hsets hret).mpr (of_decide_eq_true hq)⟩

/-- The breakpoint the child is stopped at comes back with its trap. -/
theorem undone_restored : ∃ l t, Path (act walk) {} l t ∧
    l.map Edge.action = [.command (.load "walk") {}, .command .start {},
      .command (.break_ "401002") {}, .command .si { resume := { steps := 1 } },
      .command (.break_ "401000") {}] ∧
    ∃ e ∈ l, ∃ ret c, e.before.proc = .stopped c ∧ Sets e.before (strtoull "401000") ∧
      setbreak walk "401000" e.before = .ok (ret, e.after) ∧ ¬ Undone walk e.before c e.after := by
  let q := fun (s : State Unit) (c : Child Unit) (t : State Unit) =>
    decide (c.mem 0x401002 = 0x90) &&
      match deletebreak walk (toString s.conf.bps.length) t with
      | .ok r => r.2.proc.check fun c' => c'.mem 0x401002 = 0xcc
      | .error _ => true
  have hfollow : (follow (act walk) [.command (.load "walk") {}, .command .start {},
      .command (.break_ "401002") {}, .command .si { resume := { steps := 1 } },
      .command (.break_ "401000") {}] {}).any (fun p => breaksWith q p.1) = true := by
    decide +kernel
  obtain ⟨l, t, hpath, hacts, hcheck⟩ :=
    exists_path (fun l (_ : State Unit) => breaksWith q l) hfollow
  obtain ⟨e, he, ret, c, hc, hsets, hret, hq⟩ := breaksWith_sound hpath hcheck
  refine ⟨l, t, hpath, hacts, e, he, ret, c, hc, hsets, hret, ?_⟩
  rintro ⟨r, c', hr, hc', hmem, -⟩
  obtain ⟨h90, hcc⟩ := (Bool.and_eq_true _ _).mp hq
  rw [hr] at hcc
  simp only [hc', Proc.check, decide_eq_true_eq] at hcc h90
  rw [hmem, h90] at hcc
  cases hcc

end Apue.Sdb

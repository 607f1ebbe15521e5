import Apue.Sdb.Trap
import Mathlib.Data.List.Induction

/-! `setallbreak`: overlapping words in ascending order.

Each word wipes the traps up to seven bytes above it. Of several writes over a byte the
last is the one that counts, and in ascending order that is the write of the nearest
breakpoint at or below the byte. So every trap survives, whatever the list's order and
its saved words are. -/
namespace Apue.Sdb
open Memory CLib Transition

variable {ρ : Type}

theorem mem_sortedByAddr {bps : List Breakpoint} {b : Breakpoint} :
    b ∈ sortedByAddr bps ↔ b ∈ bps :=
  (List.perm_insertionSort _ bps).mem_iff

/-- `b` is the nearest breakpoint at or below `x`, and `x` is in its word. -/
structure Nearest (bps : List Breakpoint) (x : Addr) (b : Breakpoint) : Prop where
  mem : b ∈ bps
  within : x ∈ window b.addr
  greatest : ∀ c ∈ bps, c.addr ≤ x → c.addr ≤ b.addr

/-- `m'` is `m` with a trap at every breakpoint, and above it, up to the next breakpoint or
the end of the word, the bytes it saved. -/
structure AllArmed (bps : List Breakpoint) (m m' : Mem) : Prop where
  trap : ∀ b ∈ bps, m' b.addr = 0xcc
  tail : ∀ x ∉ addrs bps, ∀ b, Nearest bps x b → m' x = byteOf b.code (x - b.addr).toNat
  rest : ∀ x ∉ addrs bps, (∀ b ∈ bps, x ∉ window b.addr) → m' x = m x

/-- The breakpoint whose word is the last to be written over `x`. -/
def writer (bps : List Breakpoint) (x : Addr) : Option Breakpoint :=
  bps.reverse.find? fun b => (x - b.addr).toNat < 8

/-- The last write over a byte counts. -/
theorem setallMem_apply (bps : List Breakpoint) (m : Mem) (x : Addr) :
    setallMem bps m x =
      match writer bps x with
      | some b => byteOf (withLow b.code 0xcc) (x - b.addr).toNat
      | none => m x := by
  induction bps using List.reverseRecOn with
  | nil => rfl
  | append_singleton bps b ih =>
    have hlast : setallMem (bps ++ [b]) m =
        poke (setallMem bps m) b.addr (withLow b.code 0xcc) := List.foldl_concat ..
    rw [hlast, writer, List.reverse_concat]
    by_cases hx : (x - b.addr).toNat < 8
    · have hfind : (b :: bps.reverse).find? (fun b => (x - b.addr).toNat < 8) = some b :=
        List.find?_cons_of_pos (decide_eq_true hx)
      rw [hfind]
      exact if_pos hx
    · have hfind : (b :: bps.reverse).find? (fun b => (x - b.addr).toNat < 8) = writer bps x :=
        List.find?_cons_of_neg (by simpa using hx)
      rw [hfind, poke_outside _ _ _ hx]
      exact ih

section
variable {bps : List Breakpoint} {x : Addr} {b : Breakpoint} {own m : Mem}

/-- Above a breakpoint that is not at the end of the address space nothing wraps. -/
theorem le_of_mem_window {a : Addr} (ha : a.toNat ≤ 2 ^ 64 - 8) (hx : x ∈ window a) : a ≤ x := by
  have hnear : (x - a).toNat < 8 := hx
  bv_omega

theorem writer_eq_none : writer bps x = none ↔ ∀ b ∈ bps, x ∉ window b.addr := by
  rw [writer, List.find?_eq_none]
  constructor
  · intro h b hb (hx : (x - b.addr).toNat < 8)
    exact h b (List.mem_reverse.mpr hb) (decide_eq_true hx)
  · intro h b hb hx
    have hnear : (x - b.addr).toNat < 8 := of_decide_eq_true hx
    exact h b (List.mem_reverse.mp hb) hnear

/-- In ascending order the nearest breakpoint is written last. -/
theorem writer_of_nearest (hsorted : bps.Pairwise fun b c => b.addr ≤ c.addr) (hd : Distinct bps)
    (hbound : ∀ b ∈ bps, b.addr.toNat ≤ 2 ^ 64 - 8) (h : Nearest bps x b) :
    writer bps x = some b := by
  obtain ⟨below, above, hsplit⟩ := List.append_of_mem h.mem
  have hover : (x - b.addr).toNat < 8 := h.within
  refine List.find?_eq_some_iff_append.mpr ⟨decide_eq_true hover, above.reverse, below.reverse,
    by rw [hsplit]; simp, fun c hc => ?_⟩
  have hc' : c ∈ above := List.mem_reverse.mp hc
  have hmem : c ∈ bps := hsplit ▸ List.mem_append_right _ (List.mem_cons_of_mem b hc')
  have hle : b.addr ≤ c.addr := by
    rw [hsplit] at hsorted
    exact (List.pairwise_cons.mp (List.pairwise_append.mp hsorted).2.1).1 c hc'
  simp only [Bool.not_eq_true', decide_eq_false_iff_not]
  intro hover
  have hge : c.addr ≤ b.addr := h.greatest c hmem (le_of_mem_window (hbound c hmem) hover)
  obtain rfl : b = c := hd.eq h.mem hmem (BitVec.le_antisymm hle hge)
  have hnodup : (below ++ b :: above).Nodup := hsplit ▸ List.Nodup.of_map _ hd
  exact (List.nodup_cons.mp (List.nodup_append.mp hnodup).2.1).1 hc'

/-- What is written last is nearest. -/
theorem nearest_of_writer (hsorted : bps.Pairwise fun b c => b.addr ≤ c.addr)
    (h : writer bps x = some b) : Nearest bps x b := by
  obtain ⟨hover, above, below, hsplit, hmiss⟩ := List.find?_eq_some_iff_append.mp h
  have hlist : bps = below.reverse ++ b :: above.reverse := by
    rw [← List.reverse_reverse bps, hsplit]
    simp
  have hx : (x - b.addr).toNat < 8 := of_decide_eq_true hover
  rw [hlist] at hsorted
  obtain ⟨-, habove, hbelow⟩ := List.pairwise_append.mp hsorted
  refine ⟨by rw [hlist]; simp, hx, fun c hc hcx => ?_⟩
  rw [hlist] at hc
  rcases List.mem_append.mp hc with hc | hc
  · exact hbelow c hc b (List.mem_cons_self ..)
  · rcases List.mem_cons.mp hc with rfl | hc
    · exact BitVec.le_refl _
    · -- a later one at or below `x` would be over `x` itself
      have hle : b.addr ≤ c.addr := (List.pairwise_cons.mp habove).1 c hc
      have hno := hmiss c (List.mem_reverse.mp hc)
      simp only [Bool.not_eq_true', decide_eq_false_iff_not] at hno
      bv_omega

theorem sortedByAddr_pairwise : (sortedByAddr bps).Pairwise fun b c => b.addr ≤ c.addr :=
  List.pairwise_insertionSort _ bps

theorem Distinct.sorted (h : Distinct bps) : Distinct (sortedByAddr bps) :=
  ((List.perm_insertionSort _ bps).map Breakpoint.addr).nodup_iff.mpr h

theorem nearest_sortedByAddr : Nearest (sortedByAddr bps) x b ↔ Nearest bps x b := by
  constructor
  · exact fun h => ⟨mem_sortedByAddr.mp h.mem, h.within,
      fun c hc => h.greatest c (mem_sortedByAddr.mpr hc)⟩
  · exact fun h => ⟨mem_sortedByAddr.mpr h.mem, h.within,
      fun c hc => h.greatest c (mem_sortedByAddr.mp hc)⟩

theorem exists_nearest (hb : b ∈ bps) (hx : x ∈ window b.addr) : ∃ c, Nearest bps x c := by
  cases hw : writer (sortedByAddr bps) x with
  | some c => exact ⟨c, nearest_sortedByAddr.mp (nearest_of_writer sortedByAddr_pairwise hw)⟩
  | none => exact absurd hx (writer_eq_none.mp hw b (mem_sortedByAddr.mpr hb))

/-- A breakpoint is the nearest to itself. -/
theorem nearest_self (hb : b ∈ bps) : Nearest bps b.addr b :=
  ⟨hb, self_mem_window b.addr, fun _ _ hle => hle⟩

/-- **After `setallbreak` every breakpoint is armed, whatever the spacing.** -/
theorem allArmed_setallMem (hd : Distinct bps) (hbound : ∀ b ∈ bps, b.addr.toNat ≤ 2 ^ 64 - 8)
    (m : Mem) : AllArmed bps m (setallMem (sortedByAddr bps) m) := by
  have hlast : ∀ {x b}, Nearest bps x b → setallMem (sortedByAddr bps) m x =
      byteOf (withLow b.code 0xcc) (x - b.addr).toNat := by
    intro x b h
    rw [setallMem_apply, writer_of_nearest sortedByAddr_pairwise hd.sorted
      (fun c hc => hbound c (mem_sortedByAddr.mp hc)) (nearest_sortedByAddr.mpr h)]
  refine ⟨fun b hb => ?_, fun x hx b h => ?_, fun x _ hoff => ?_⟩
  · rw [hlast (nearest_self hb), BitVec.sub_self]
    exact byteOf_withLow_zero _ _
  · have hpos : 0 < (x - b.addr).toNat := by
      by_contra hzero
      have hx0 : x = b.addr + BitVec.ofNat 64 0 := eq_add_of_offset (by omega)
      rw [BitVec.add_zero] at hx0
      exact hx (hx0 ▸ mem_addrs h.mem)
    rw [hlast h, byteOf_withLow _ (by decide) hpos h.within]
  · rw [setallMem_apply, writer_eq_none.mpr fun b hb => hoff b (mem_sortedByAddr.mp hb)]

/-- The order of the list makes no difference. -/
theorem sortedByAddr_perm {bps' : List Breakpoint} (hd : Distinct bps) (h : bps'.Perm bps) :
    sortedByAddr bps' = sortedByAddr bps := by
  have hperm : (sortedByAddr bps').Perm (sortedByAddr bps) :=
    (List.perm_insertionSort _ bps').trans (h.trans (List.perm_insertionSort _ bps).symm)
  refine hperm.eq_of_pairwise (fun b c hb hc hle hge => ?_) sortedByAddr_pairwise
    sortedByAddr_pairwise
  have hb' : b ∈ bps := h.mem_iff.mp (mem_sortedByAddr.mp hb)
  exact hd.eq hb' (mem_sortedByAddr.mp hc) (BitVec.le_antisymm hle hge)

/-- Over saved words that are the text there is the text with its traps. -/
theorem AllArmed.trapped {m' : Mem} (h : AllArmed bps m m') (hs : Saved own bps)
    (hm : ∀ x, (∀ b ∈ bps, x ∉ window b.addr) → m x = own x) : Trapped own (addrs bps) m' := by
  refine ⟨fun x ⟨b, hb, hx⟩ => hx ▸ h.trap b hb, fun x hx => ?_⟩
  by_cases hnear : ∃ b ∈ bps, x ∈ window b.addr
  · obtain ⟨b, hb, hxb⟩ := hnear
    obtain ⟨c, hc⟩ := exists_nearest hb hxb
    rw [h.tail x hx c hc, hs c hc.mem _ hc.within, add_offset]
  · have hoff : ∀ b ∈ bps, x ∉ window b.addr := fun b hb hxb => hnear ⟨b, hb, hxb⟩
    rw [h.rest x hx hoff, hm x hoff]

theorem Trapped.setall (hd : Distinct bps) (hs : Saved own bps)
    (huser : ∀ b ∈ bps, b.addr.toNat < 2 ^ 63)
    (h : ∀ x, (∀ b ∈ bps, x ∉ window b.addr) → m x = own x) :
    Trapped own (addrs bps) (setallMem (sortedByAddr bps) m) :=
  (allArmed_setallMem hd (fun b hb => by have := huser b hb; omega) m).trapped hs h

theorem setallbreak_returns {w : World ρ} {s : State ρ} {c : Child ρ} (hc : s.proc = .stopped c)
    (hreach : ∀ b ∈ s.conf.bps, w.reaches b.addr = true) : setallbreak w s =
      .ok { s with proc := .stopped { c with mem := setallMem (sortedByAddr s.conf.bps) c.mem } } := by
  have hloop : ∀ (l : List Breakpoint) (s : State ρ) (c : Child ρ), s.proc = .stopped c →
      (∀ b ∈ l, w.reaches b.addr = true) →
      ∃ s', l.foldlM (fun s b => poketext w s b.addr (withLow b.code 0xcc)) s = .ok s' := by
    intro l
    induction l with
    | nil => exact fun s _ _ _ => ⟨s, rfl⟩
    | cons b rest ih =>
      intro s c hc hr
      obtain ⟨hb, hrest⟩ := List.forall_mem_cons.mp hr
      rw [List.foldlM_cons, poketext_stopped _ hc hb]
      exact ih _ _ rfl hrest
  obtain ⟨s', hs'⟩ := hloop _ s c hc fun b hb => hreach b (mem_sortedByAddr.mp hb)
  have hs'' : setallbreak w s = .ok s' := hs'
  rw [hs'', setallbreak_stopped hs'' hc]

/-- **`setallbreak` arms everything**: whatever the order and the saved words, the memory it
leaves is the list's `AllArmed`; it depends on the breakpoints only, and over saved words
that are the text it is the text with its traps. -/
theorem setallbreak_arms (hd : Distinct bps) (hbound : ∀ b ∈ bps, b.addr.toNat ≤ 2 ^ 64 - 8)
    (m : Mem) :
    AllArmed bps m (setallMem (sortedByAddr bps) m) ∧
    (∀ bps' : List Breakpoint, bps'.Perm bps →
      setallMem (sortedByAddr bps') m = setallMem (sortedByAddr bps) m) ∧
    (∀ own, Saved own bps → (∀ x, (∀ b ∈ bps, x ∉ window b.addr) → m x = own x) →
      Trapped own (addrs bps) (setallMem (sortedByAddr bps) m)) ∧
    ∀ (w : World ρ) (s : State ρ) (c : Child ρ), s.conf.bps = bps → s.proc = .stopped c →
      c.mem = m → (∀ b ∈ bps, w.reaches b.addr = true) → setallbreak w s =
        .ok { s with proc := .stopped { c with mem := setallMem (sortedByAddr bps) m } } := by
  have harmed := allArmed_setallMem hd hbound m
  refine ⟨harmed, fun bps' h => ?_, fun own hs hm => harmed.trapped hs hm, ?_⟩
  · rw [sortedByAddr_perm hd h]
  · rintro w s c rfl hc rfl hreach
    exact setallbreak_returns hc hreach

end

/-- Two words that overlap, the higher one first in the list. -/
def overlapping : List Breakpoint := [⟨0x401003, 0x1122334455667788⟩, ⟨0x401000, 0xaabbccddeeff0011⟩]

theorem setallbreak_overlapping :
    AllArmed overlapping (fun _ => 0) (setallMem (sortedByAddr overlapping) fun _ => 0) :=
  (setallbreak_arms (ρ := Unit) (by decide) (by decide) fun _ => 0).1

end Apue.Sdb

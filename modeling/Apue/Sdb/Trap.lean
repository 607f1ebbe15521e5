import Apue.Memory.Patch
import Apue.Sdb.Core

/-! What the debugger's writes do to the traps in the child.

The child's memory is the memory it would have by itself with traps at a set `A` of
addresses (`Trapped`). Each of the five kinds of word the debugger writes is, as long as
the saved words are right, one operation on that set: `break` inserts an address,
`resetbreak` adds every breakpoint in its window, `restoreifbreak` takes out its whole
window, `deletebreak` adds its window but its own address, and `setallbreak` adds
everything. -/
namespace Apue.Sdb
open Memory CLib Transition

variable {ρ : Type}

/-- `own` with traps at `A`. -/
abbrev Trapped (own : Mem) (A : Set Addr) (m : Mem) : Prop := Patched 0xcc own A m

/-- Every saved word is what `m` has at the breakpoint. -/
def Saved (m : Mem) (bps : List Breakpoint) : Prop :=
  ∀ b ∈ bps, ∀ k < 8, byteOf b.code k = m (b.addr + BitVec.ofNat 64 k)

/-- No breakpoint is mistaken for a near one, and the last byte of the word is at none. -/
structure Clean (bps : List Breakpoint) (a : Addr) : Prop where
  untruncated : Untruncated bps a
  clearAtSeven : ClearAtSeven bps a

theorem clean_nil (a : Addr) : Clean [] a := ⟨nofun, nofun⟩

section Words
variable {own m : Mem} {A : Set Addr} {bps : List Breakpoint} {b : Breakpoint}

theorem Saved.zero (h : Saved own bps) (hb : b ∈ bps) : byteOf b.code 0 = own b.addr := by
  have h0 := h b hb 0 (by decide)
  rwa [BitVec.add_zero] at h0

theorem Saved.newByte_false (h : Saved own bps) (hb : b ∈ bps) : newByte false b = own b.addr :=
  h.zero hb

/-- The word with a trap at every breakpoint, as `resetbreak` and `deletebreak` write it. -/
theorem byteOf_armed (hs : Saved own bps) (hd : Distinct bps) (hb : b ∈ bps)
    (hc : Clean bps b.addr) (includeSelf : Bool) {k : Nat} (hk : k < 8)
    (hself : includeSelf = true ∨ 0 < k) :
    (b.addr + BitVec.ofNat 64 k ∈ addrs bps →
      byteOf (alternate bps b.code b.addr true includeSelf) k = 0xcc) ∧
    (b.addr + BitVec.ofNat 64 k ∉ addrs bps →
      byteOf (alternate bps b.code b.addr true includeSelf) k = own (b.addr + BitVec.ofNat 64 k)) := by
  refine ⟨fun ⟨c, hc', hca⟩ => ?_, fun hoff => ?_⟩
  · exact byteOf_alternate_replaced hc.untruncated hc.clearAtSeven hd b.code true includeSelf hk
      hc' hca hself
  · rw [byteOf_alternate_off hc.untruncated b.code true includeSelf hk hoff, hs b hb k hk]

/-- The word without traps, as `restoreifbreak` writes it: the last byte is or-ed with
itself. -/
theorem byteOf_restored (hs : Saved own bps) (hd : Distinct bps) (hb : b ∈ bps)
    (hu : Untruncated bps b.addr) {k : Nat} (hk : k < 8) :
    byteOf (alternate bps b.code b.addr false false) k = own (b.addr + BitVec.ofNat 64 k) := by
  rw [← hs b hb k hk]
  by_cases hk0 : k = 0
  · rw [hk0, byteOf_alternate_self hu b.code false]
  by_cases hon : b.addr + BitVec.ofNat 64 k ∈ addrs bps
  · obtain ⟨c, hc, hca⟩ := hon
    have hnew : newByte false c = byteOf b.code k := by
      rw [hs.newByte_false hc, hca, hs b hb k hk]
    rw [byteOf_alternate_at hu hd b.code false false hk hc hca (.inr (by omega)), hnew, mixed]
    split
    · exact BitVec.or_self
    · rfl
  · exact byteOf_alternate_off hu b.code false false hk hon

/-- The word `setbreak` saves: memory with the breakpoints' own bytes put back, but the
last byte is or-ed with what is there. -/
theorem byteOf_captured (h : Set.EqOn m own ((addrs bps)ᶜ)) (hs : Saved own bps)
    (hd : Distinct bps) {a : Addr} (hu : Untruncated bps a) :
    (∀ k < 8, k ≠ 7 ∨ a + 7 ∉ addrs bps →
      byteOf (alternate bps (peek m a) a false true) k = own (a + BitVec.ofNat 64 k)) ∧
    (a + 7 ∈ addrs bps →
      byteOf (alternate bps (peek m a) a false true) 7 = m (a + 7) ||| own (a + 7)) := by
  have hat : ∀ k < 8, a + BitVec.ofNat 64 k ∈ addrs bps →
      byteOf (alternate bps (peek m a) a false true) k =
        mixed k (m (a + BitVec.ofNat 64 k)) (own (a + BitVec.ofNat 64 k)) := by
    intro k hk ⟨c, hc, hca⟩
    rw [byteOf_alternate_at hu hd _ false true hk hc hca (.inl rfl), byteOf_peek m a hk,
      hs.newByte_false hc, hca]
  refine ⟨fun k hk h7 => ?_, fun h7 => hat 7 (by decide) h7⟩
  by_cases hon : a + BitVec.ofNat 64 k ∈ addrs bps
  · rw [hat k hk hon, mixed, if_neg]
    rintro rfl
    exact h7.elim (fun hne => hne rfl) fun hoff => hoff hon
  · rw [byteOf_alternate_off hu _ false true hk hon, byteOf_peek m a hk]
    exact h hon

/-! ### The five writes -/

theorem Trapped.reset (h : Trapped own A m) (hA : A ⊆ addrs bps) (hs : Saved own bps)
    (hd : Distinct bps) (hb : b ∈ bps) (hc : Clean bps b.addr) :
    Trapped own (A ∪ (addrs bps ∩ window b.addr))
      (poke m b.addr (alternate bps b.code b.addr true true)) := by
  refine Patched.poke h (fun x hx => ?_) (fun k hk hmem => ?_) (fun k hk hmem => ?_)
  · exact ⟨fun hmem => hmem.resolve_right fun hw => hx hw.2, .inl⟩
  · exact (byteOf_armed hs hd hb hc true hk (.inl rfl)).1 (hmem.elim (fun hx => hA hx) And.left)
  · refine (byteOf_armed hs hd hb hc true hk (.inl rfl)).2 fun hon => hmem (.inr ⟨hon, ?_⟩)
    exact mem_window b.addr hk

theorem Trapped.restore (h : Trapped own A m) (hs : Saved own bps) (hd : Distinct bps)
    (hb : b ∈ bps) (hu : Untruncated bps b.addr) :
    Trapped own (A \ window b.addr)
      (poke m b.addr (alternate bps b.code b.addr false false)) := by
  refine Patched.poke h (fun x hx => ?_) (fun k hk hmem => ?_) (fun k hk _ => ?_)
  · exact ⟨And.left, fun hA => ⟨hA, hx⟩⟩
  · exact absurd (mem_window b.addr hk) hmem.2
  · exact byteOf_restored hs hd hb hu hk

theorem Trapped.delete (h : Trapped own A m) (hA : A ⊆ addrs bps) (hs : Saved own bps)
    (hd : Distinct bps) (hb : b ∈ bps) (hc : Clean bps b.addr) :
    Trapped own ((A ∪ (addrs bps ∩ window b.addr)) \ {b.addr})
      (poke m b.addr (alternate bps b.code b.addr true false)) := by
  have hne : ∀ k < 8, 0 < k → b.addr + BitVec.ofNat 64 k ≠ b.addr := by
    intro k hk hpos he
    have hoff := offset_add b.addr (show k < 2 ^ 64 by omega)
    rw [he] at hoff
    simp at hoff
    omega
  refine Patched.poke h (fun x hx => ?_) (fun k hk hmem => ?_) (fun k hk hmem => ?_)
  · have hxb : x ≠ b.addr := fun he => hx (he ▸ self_mem_window b.addr)
    refine ⟨fun hmem => hmem.1.resolve_right fun hw => hx hw.2, fun hx => ⟨.inl hx, hxb⟩⟩
  · have hk0 : 0 < k := by
      by_contra hk0
      obtain rfl : k = 0 := by omega
      exact hmem.2 (by simp)
    exact (byteOf_armed hs hd hb hc false hk (.inr hk0)).1 (hmem.1.elim (fun hx => hA hx) And.left)
  · by_cases hk0 : k = 0
    · rw [hk0, byteOf_alternate_self hc.untruncated b.code true, hs b hb 0 (by decide)]
    · refine (byteOf_armed hs hd hb hc false hk (.inr (by omega))).2 fun hon => hmem ?_
      exact ⟨.inr ⟨hon, mem_window b.addr hk⟩, hne k hk (by omega)⟩

theorem Trapped.insert (h : Trapped own A m) (a : Addr) :
    Trapped own (insert a A) (poke m a (withLow (peek m a) 0xcc)) :=
  Patched.poke_low (b := 0xcc) h a (by decide)

end Words

end Apue.Sdb

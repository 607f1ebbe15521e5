import Apue.Memory.Bytes
import Mathlib.Data.Set.Insert

/-! Memories that differ from another in marked bytes.

`Patched v own A m`: `m` is `own` with the byte `v` at the addresses in `A`. Marks are
placed and removed a word at a time, so each rule asks what the eight bytes of the word
are and says which set of marks results. -/
namespace Apue.Memory

/-- The addresses of the word at `a`. -/
def window (a : Addr) : Set Addr := {x | (x - a).toNat < 8}

theorem mem_window (a : Addr) {k : Nat} (hk : k < 8) : a + BitVec.ofNat 64 k ∈ window a := by
  show (a + BitVec.ofNat 64 k - a).toNat < 8
  rw [offset_add a (by omega)]
  exact hk

theorem self_mem_window (a : Addr) : a ∈ window a := by
  have h := mem_window a (show 0 < 8 by decide)
  rwa [BitVec.add_zero] at h

theorem exists_offset {a x : Addr} (h : x ∈ window a) : ∃ k < 8, x = a + BitVec.ofNat 64 k :=
  ⟨(x - a).toNat, h, (add_offset a x).symm⟩

/-- Writing a word changes its window only. -/
theorem poke_off {m : Mem} {a : Addr} {v : Word} {x : Addr} (hx : x ∉ window a) :
    poke m a v x = m x :=
  poke_outside m a v hx

/-- `m` is `own` with the byte `v` at the addresses in `A`. -/
structure Patched (v : Byte) (own : Mem) (A : Set Addr) (m : Mem) : Prop where
  mark : ∀ x ∈ A, m x = v
  clear : ∀ x, x ∉ A → m x = own x

variable {v : Byte} {own m : Mem} {A : Set Addr}

/-- Outside any set that holds the marks the two memories agree. -/
theorem Patched.eqOn {B : Set Addr} (h : Patched v own A m) (hAB : A ⊆ B) :
    Set.EqOn m own (Bᶜ) :=
  fun x hx => h.clear x fun hA => hx (hAB hA)

/-- Stores that touch no mark go through to both memories. -/
theorem Patched.store {st : Addr → Option Byte} (h : Patched v own A m)
    (hst : ∀ x ∈ A, st x = none) : Patched v (store own st) A (store m st) := by
  refine ⟨fun x hx => ?_, fun x hx => ?_⟩
  · rw [store_none m (hst x hx)]
    exact h.mark x hx
  · simp only [Memory.store, h.clear x hx]

/-- **The word rule**: after a word is written, the marks are `A'` if they were `A'`
outside the word and each of its bytes is the mark or the old byte accordingly. -/
theorem Patched.poke {A' : Set Addr} {a : Addr} {u : Word} (h : Patched v own A m)
    (hout : ∀ x, x ∉ window a → (x ∈ A' ↔ x ∈ A))
    (hmark : ∀ k < 8, a + BitVec.ofNat 64 k ∈ A' → byteOf u k = v)
    (hclear : ∀ k < 8, a + BitVec.ofNat 64 k ∉ A' → byteOf u k = own (a + BitVec.ofNat 64 k)) :
    Patched v own A' (poke m a u) := by
  refine ⟨fun x hx => ?_, fun x hx => ?_⟩
  all_goals
    by_cases hw : x ∈ window a
  · obtain ⟨k, hk, rfl⟩ := exists_offset hw
    rw [poke_apply m a u hk]
    exact hmark k hk hx
  · rw [poke_off hw]
    exact h.mark x ((hout x hw).mp hx)
  · obtain ⟨k, hk, rfl⟩ := exists_offset hw
    rw [poke_apply m a u hk]
    exact hclear k hk hx
  · rw [poke_off hw]
    exact h.clear x fun hA => hx ((hout x hw).mpr hA)

/-- Writing the word that is there with the mark as its low byte marks its address. -/
theorem Patched.poke_low {b : Word} (h : Patched (byteOf b 0) own A m) (a : Addr)
    (hb : b.toNat < 256) :
    Patched (byteOf b 0) own (insert a A) (Memory.poke m a (withLow (peek m a) b)) := by
  have hzero : a + BitVec.ofNat 64 0 = a := by simp
  have hne : ∀ k < 8, 0 < k → a + BitVec.ofNat 64 k ≠ a := by
    intro k hk hpos he
    have := add_inj a (show k < 2 ^ 64 by omega) (show 0 < 2 ^ 64 by decide) (he.trans hzero.symm)
    omega
  refine h.poke (fun x hx => ?_) (fun k hk hmem => ?_) (fun k hk hmem => ?_)
  · have hxa : x ≠ a := fun he => hx (he ▸ self_mem_window a)
    exact ⟨fun hins => hins.resolve_left hxa, Set.mem_insert_of_mem a⟩
  · by_cases hk0 : k = 0
    · rw [hk0, byteOf_withLow_zero]
    · rw [byteOf_withLow _ hb (by omega) hk, byteOf_peek m a hk]
      exact h.mark _ (hmem.resolve_left (hne k hk (by omega)))
  · have hk0 : k ≠ 0 := by
      rintro rfl
      rw [hzero] at hmem
      exact hmem (Set.mem_insert a A)
    rw [byteOf_withLow _ hb (by omega) hk, byteOf_peek m a hk]
    exact h.clear _ fun hA => hmem (Set.mem_insert_of_mem a hA)

/-- Memories that agree outside a set and a word still do after words with the same bytes
outside the set are written into both. -/
theorem eqOn_poke_poke {m' : Mem} {B : Set Addr} {a : Addr} {u u' : Word}
    (h : ∀ x, x ∉ B → x ∉ window a → m x = m' x)
    (hu : ∀ k < 8, a + BitVec.ofNat 64 k ∉ B → byteOf u k = byteOf u' k) :
    Set.EqOn (poke m a u) (poke m' a u') (Bᶜ) := by
  intro x hx
  by_cases hw : x ∈ window a
  · obtain ⟨k, hk, rfl⟩ := exists_offset hw
    rw [poke_apply m a u hk, poke_apply m' a u' hk]
    exact hu k hk hx
  · rw [poke_off hw, poke_off hw]
    exact h x hx hw

/-- Writing a memory's own word into it changes nothing. -/
theorem poke_same {u : Word} {a : Addr} (hu : ∀ k < 8, byteOf u k = m (a + BitVec.ofNat 64 k)) :
    poke m a u = m := by
  funext x
  by_cases hw : x ∈ window a
  · obtain ⟨k, hk, rfl⟩ := exists_offset hw
    rw [poke_apply m a u hk]
    exact hu k hk
  · exact poke_off hw

/-- Two memories that agree outside a set still do after a word whose bytes outside
the set are right is written. -/
theorem eqOn_poke {B : Set Addr} {a : Addr} {u : Word} (h : Set.EqOn m own (Bᶜ))
    (hu : ∀ k < 8, a + BitVec.ofNat 64 k ∉ B → byteOf u k = own (a + BitVec.ofNat 64 k)) :
    Set.EqOn (poke m a u) own (Bᶜ) := by
  have hown : poke own a (peek own a) = own := poke_same fun k hk => byteOf_peek own a hk
  rw [← hown]
  refine eqOn_poke_poke (fun x hx _ => h hx) fun k hk hx => ?_
  rw [byteOf_peek own a hk]
  exact hu k hk hx

/-- Writing back the word that is there with another low byte changes one address. -/
theorem eqOn_poke_low {B : Set Addr} (a : Addr) {b : Word} (h : Set.EqOn m own (Bᶜ))
    (hb : b.toNat < 256) :
    Set.EqOn (poke m a (withLow (peek m a) b)) own ((insert a B)ᶜ) := by
  refine eqOn_poke (fun x hx => h fun hB => hx (Set.mem_insert_of_mem a hB)) fun k hk hx => ?_
  have hk0 : 0 < k := by
    by_contra hk0
    obtain rfl : k = 0 := by omega
    exact hx (by simp)
  rw [byteOf_withLow _ hb hk0 hk, byteOf_peek m a hk]
  exact h fun hB => hx (Set.mem_insert_of_mem a hB)

end Apue.Memory

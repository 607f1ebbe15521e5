import Apue.Sdb.Alternate

/-! What `alternate` makes of every byte of a word.

Byte by byte the fold of `alternate` is a fold over the breakpoints that hit the byte:
the last of them has the byte, except at byte 7, where they are all or-ed together.
`overlays_iff`: that is the byte due there exactly when no breakpoint that only passes
for a near one is seen, and nothing or-ed into byte 7 adds a bit. -/
namespace Apue.Sdb
open Memory

/-! ### Bytes or-ed together -/

/-- All bits of `x` are bits of `v`. -/
def Bits (x v : Byte) : Prop := x ||| v = v

instance (x v : Byte) : Decidable (Bits x v) := inferInstanceAs (Decidable (_ = _))

theorem Bits.refl (x : Byte) : Bits x x := BitVec.or_self

theorem or_bits {x y v : Byte} : Bits (x ||| y) v ↔ Bits x v ∧ Bits y v := by
  unfold Bits
  constructor
  · intro h
    constructor
    · rw [← h, ← BitVec.or_assoc, ← BitVec.or_assoc, BitVec.or_self]
    · rw [← h, BitVec.or_comm x, BitVec.or_assoc, ← BitVec.or_assoc y, BitVec.or_self]
  · intro ⟨hx, hy⟩
    rw [BitVec.or_assoc, hy, hx]

theorem Bits.antisymm {x v : Byte} (h : Bits x v) (h' : Bits v x) : x = v := by
  rw [← h, BitVec.or_comm]
  exact h'.symm

theorem foldl_or_bits {x v : Byte} {l : List Byte} :
    Bits (l.foldl (· ||| ·) x) v ↔ Bits x v ∧ ∀ y ∈ l, Bits y v := by
  induction l generalizing x with
  | nil => simp
  | cons y l ih => rw [List.foldl_cons, ih, or_bits, List.forall_mem_cons, and_assoc]

/-- Bytes or-ed together give one of them exactly when it has the bits of all. -/
theorem foldl_or_iff {x v : Byte} {l : List Byte} (hv : v = x ∨ v ∈ l) :
    l.foldl (· ||| ·) x = v ↔ Bits x v ∧ ∀ y ∈ l, Bits y v := by
  rw [← foldl_or_bits]
  constructor
  · intro h
    rw [h]
    exact Bits.refl v
  · intro h
    obtain ⟨hx, hl⟩ := foldl_or_bits.mp (Bits.refl (l.foldl (· ||| ·) x))
    refine h.antisymm ?_
    rcases hv with rfl | hv
    · exact hx
    · exact hl v hv

/-- Bytes that replace each other leave the last. -/
theorem foldl_replace (x : Byte) (l : List Byte) :
    l.foldl (fun _ y => y) x = l.getLast?.getD x := by
  induction l generalizing x with
  | nil => rfl
  | cons y l ih => rw [List.foldl_cons, ih, List.getLast?_cons, Option.getD_some]

/-! ### The bytes of a word -/

section
variable (bps : List Breakpoint) (a : Addr) (to0xcc includeSelf : Bool)

instance (k : Nat) (b : Breakpoint) : Decidable (Hits a includeSelf k b) :=
  inferInstanceAs (Decidable (_ ∧ _))

/-- The breakpoints taken for one at byte `k`. -/
def hits (k : Nat) : List Breakpoint := bps.filter fun b => Hits a includeSelf k b

/-- The breakpoint at byte `k`. -/
def atByte (k : Nat) : Option Breakpoint :=
  bps.find? fun b => b.addr = a + BitVec.ofNat 64 k ∧ (includeSelf = true ∨ 0 < k)

/-- The byte due there. -/
def due (w : Word) (k : Nat) : Byte :=
  match atByte bps a includeSelf k with
  | some b => newByte to0xcc b
  | none => byteOf w k

/-- `v` is `w` with the byte of every breakpoint of the word put in. -/
def Overlays (w v : Word) : Prop :=
  ∀ k < 8,
    (∀ b ∈ bps, b.addr = a + BitVec.ofNat 64 k → includeSelf = true ∨ 0 < k →
      byteOf v k = newByte to0xcc b) ∧
    ((∀ b ∈ bps, b.addr = a + BitVec.ofNat 64 k → ¬ (includeSelf = true ∨ 0 < k)) →
      byteOf v k = byteOf w k)

variable {bps a to0xcc includeSelf}

theorem byteOf_alternate_fold (w : Word) {k : Nat} (hk : k < 8) :
    byteOf (alternate bps w a to0xcc includeSelf) k =
      ((hits bps a includeSelf k).map (newByte to0xcc)).foldl (mixed k) (byteOf w k) := by
  induction bps generalizing w with
  | nil => rfl
  | cons b bps ih =>
    have hsingle := byteOf_alternate_single a to0xcc includeSelf b w hk
    rw [alternate_cons, ih, hits, hits]
    by_cases hit : Hits a includeSelf k b
    · rw [hsingle.1 hit, List.filter_cons_of_pos (by simpa using hit), List.map_cons,
        List.foldl_cons]
    · rw [hsingle.2 hit, List.filter_cons_of_neg (by simpa using hit)]

/-- Below byte 7 the last breakpoint that hits has the byte. -/
theorem byteOf_alternate_last (w : Word) {k : Nat} (hk : k < 7) :
    byteOf (alternate bps w a to0xcc includeSelf) k =
      ((hits bps a includeSelf k).getLast?.map (newByte to0xcc)).getD (byteOf w k) := by
  have hmixed : mixed k = fun _ y => y := by
    funext x y
    exact if_neg (by omega)
  rw [byteOf_alternate_fold w (by omega), hmixed, foldl_replace, List.getLast?_map]

theorem byteOf_alternate_or (w : Word) :
    byteOf (alternate bps w a to0xcc includeSelf) 7 =
      ((hits bps a includeSelf 7).map (newByte to0xcc)).foldl (· ||| ·) (byteOf w 7) := by
  have hmixed : mixed 7 = fun x y => x ||| y := by
    funext x y
    exact if_pos rfl
  rw [byteOf_alternate_fold w (by decide), hmixed]

/-- Traps below byte 7 … -/
theorem byteOf_alternate_trap (w : Word) {k : Nat} (hk : k < 7) :
    byteOf (alternate bps w a true includeSelf) k =
      if hits bps a includeSelf k = [] then byteOf w k else 0xcc := by
  rw [byteOf_alternate_last w hk]
  cases hlast : (hits bps a includeSelf k).getLast? with
  | none =>
    rw [if_pos (List.getLast?_eq_none_iff.mp hlast)]
    rfl
  | some b =>
    have hne : hits bps a includeSelf k ≠ [] := by
      intro hnil
      rw [hnil] at hlast
      cases hlast
    rw [if_neg hne]
    rfl

/-- … and at it. -/
theorem byteOf_alternate_trap_last (w : Word) :
    byteOf (alternate bps w a true includeSelf) 7 =
      if hits bps a includeSelf 7 = [] then byteOf w 7 else byteOf w 7 ||| 0xcc := by
  have hor : ∀ (l : List Breakpoint) (x : Byte), l ≠ [] →
      (l.map (newByte true)).foldl (· ||| ·) x = x ||| 0xcc := by
    intro l
    induction l with
    | nil => exact fun _ hne => absurd rfl hne
    | cons b rest ih =>
      intro x _
      by_cases hrest : rest = []
      · rw [hrest]
        rfl
      · have hcc : newByte true b = 0xcc := rfl
        rw [List.map_cons, List.foldl_cons, ih _ hrest, hcc, BitVec.or_assoc, BitVec.or_self]
  rw [byteOf_alternate_or]
  split
  · next hnil =>
      rw [hnil]
      rfl
  · next hne => exact hor _ _ hne

/-- A breakpoint within eight bytes is taken for what it is. -/
theorem hits_of_addr {b : Breakpoint} {k : Nat} (hk : k < 8)
    (hb : b.addr = a + BitVec.ofNat 64 k) (hself : includeSelf = true ∨ 0 < k) :
    Hits a includeSelf k b := by
  have hoff : (b.addr - a).toNat = k := by rw [hb, offset_add a (by omega)]
  exact ⟨by rw [dist_of_near (by omega), hoff], hself⟩

theorem atByte_some {k : Nat} {b : Breakpoint} (h : atByte bps a includeSelf k = some b) :
    b ∈ bps ∧ b.addr = a + BitVec.ofNat 64 k ∧ (includeSelf = true ∨ 0 < k) :=
  ⟨List.mem_of_find?_eq_some h, by simpa using List.find?_some h⟩

theorem atByte_none {k : Nat} (h : atByte bps a includeSelf k = none) {b : Breakpoint}
    (hb : b ∈ bps) (haddr : b.addr = a + BitVec.ofNat 64 k) : ¬ (includeSelf = true ∨ 0 < k) := by
  have hno := List.find?_eq_none.mp h b hb
  simp only [decide_eq_true_eq] at hno
  exact fun hself => hno ⟨haddr, hself⟩

theorem overlays_iff_due (hd : Distinct bps) {w v : Word} :
    Overlays bps a to0xcc includeSelf w v ↔
      ∀ k < 8, byteOf v k = due bps a to0xcc includeSelf w k := by
  apply forall₂_congr
  intro k hk
  unfold due
  split
  · next b hb =>
      obtain ⟨hmem, haddr, hself⟩ := atByte_some hb
      constructor
      · exact fun h => h.1 b hmem haddr hself
      · refine fun h => ⟨fun c hc hcaddr _ => ?_, fun hno => absurd hself (hno b hmem haddr)⟩
        rw [h, hd.eq hmem hc (haddr.trans hcaddr.symm)]
  · next hnone =>
      constructor
      · exact fun h => h.2 fun b hb haddr => atByte_none hnone hb haddr
      · exact fun h => ⟨fun b hb haddr hself => absurd hself (atByte_none hnone hb haddr),
          fun _ => h⟩

/-- A byte that is replaced is the due one exactly when the last hit puts the due one. -/
theorem replaced_iff (w : Word) {k : Nat} (hk : k < 7) :
    byteOf (alternate bps w a to0xcc includeSelf) k = due bps a to0xcc includeSelf w k ↔
      ∀ b ∈ (hits bps a includeSelf k).getLast?,
        newByte to0xcc b = due bps a to0xcc includeSelf w k := by
  rw [byteOf_alternate_last w hk]
  cases hlast : (hits bps a includeSelf k).getLast? with
  | some b => simp
  | none =>
    have hnone : atByte bps a includeSelf k = none := by
      by_contra hne
      obtain ⟨b, hb⟩ := Option.ne_none_iff_exists'.mp hne
      obtain ⟨hmem, haddr, hself⟩ := atByte_some hb
      have hhit : b ∈ hits bps a includeSelf k :=
        List.mem_filter.mpr ⟨hmem, decide_eq_true (hits_of_addr (by omega) haddr hself)⟩
      rw [List.getLast?_eq_none_iff.mp hlast] at hhit
      cases hhit
    simp [due, hnone]

/-- The last byte is the due one exactly when nothing or-ed into it adds a bit. -/
theorem ored_iff (w : Word) :
    byteOf (alternate bps w a to0xcc includeSelf) 7 = due bps a to0xcc includeSelf w 7 ↔
      Bits (byteOf w 7) (due bps a to0xcc includeSelf w 7) ∧
      ∀ b ∈ hits bps a includeSelf 7, Bits (newByte to0xcc b) (due bps a to0xcc includeSelf w 7) := by
  have hdue : due bps a to0xcc includeSelf w 7 = byteOf w 7 ∨
      due bps a to0xcc includeSelf w 7 ∈ (hits bps a includeSelf 7).map (newByte to0xcc) := by
    unfold due
    split
    · next b hb =>
        obtain ⟨hmem, haddr, hself⟩ := atByte_some hb
        have hhit := hits_of_addr (by decide) haddr hself
        exact .inr (List.mem_map_of_mem (List.mem_filter.mpr ⟨hmem, decide_eq_true hhit⟩))
    · exact .inl rfl
  rw [byteOf_alternate_or, foldl_or_iff hdue, List.forall_mem_map]

/-- **`alternate` puts in every breakpoint's byte and nothing else exactly when, at each of
the first seven bytes, the last breakpoint taken for one there has the byte due there, and
at the last byte the word's byte and those of the breakpoints taken for one there have only
bits of the one due.** -/
theorem overlays_iff (hd : Distinct bps) (w : Word) :
    Overlays bps a to0xcc includeSelf w (alternate bps w a to0xcc includeSelf) ↔
      (∀ k < 7, ∀ b ∈ (hits bps a includeSelf k).getLast?,
        newByte to0xcc b = due bps a to0xcc includeSelf w k) ∧
      Bits (byteOf w 7) (due bps a to0xcc includeSelf w 7) ∧
      ∀ b ∈ hits bps a includeSelf 7,
        Bits (newByte to0xcc b) (due bps a to0xcc includeSelf w 7) := by
  rw [overlays_iff_due hd, ← ored_iff]
  constructor
  · intro h
    exact ⟨fun k hk => (replaced_iff w hk).mp (h k (by omega)), h 7 (by decide)⟩
  · intro ⟨hreplaced, h7⟩ k hk
    by_cases hk7 : k = 7
    · rw [hk7, h7]
    · have hlt : k < 7 := by omega
      exact (replaced_iff w hlt).mpr (hreplaced k hlt)

end

/-- A breakpoint 4 GiB away passes for one three bytes away. -/
example : Hits 0x401000 true 3 ⟨0x100401003, 0⟩ := by decide

/-- Two breakpoints of a word, put in and taken out. -/
theorem overlays_pair :
    let bps : List Breakpoint := [⟨0x401003, 0x55⟩, ⟨0x401000, 0x31⟩]
    let w : Word := 0x1122334455667788
    Overlays bps 0x401000 true true w (alternate bps w 0x401000 true true) ∧
      Overlays bps 0x401000 false false w (alternate bps w 0x401000 false false) :=
  have hd : Distinct [⟨0x401003, 0x55⟩, ⟨0x401000, 0x31⟩] := by decide
  ⟨(overlays_iff hd _).mpr (by decide), (overlays_iff hd _).mpr (by decide)⟩

/-- A trap seven bytes up is or-ed into the `nop` there: 0xdc. -/
theorem overlays_nop :
    let bps : List Breakpoint := [⟨0x401007, 0x9090909090909090⟩]
    let w : Word := 0x9090909090909090
    byteOf (alternate bps w 0x401000 true true) 7 = 0xdc ∧
      ¬ Overlays bps 0x401000 true true w (alternate bps w 0x401000 true true) := by
  intro bps w
  have hdc : byteOf (alternate bps w 0x401000 true true) 7 = 0xdc := by decide
  refine ⟨hdc, fun h => ?_⟩
  have hcc := (h 7 (by decide)).1 ⟨0x401007, 0x9090909090909090⟩ List.mem_cons_self rfl (.inl rfl)
  rw [hdc] at hcc
  exact absurd hcc (by decide)

end Apue.Sdb

import Apue.Sdb.Config
import Mathlib.Tactic.IntervalCases

/-! Mixing trap bytes into a word of text.

Every word the debugger writes into the child goes through `alternate`, which folds
over the breakpoint list and replaces one byte for each breakpoint within eight
bytes of the word. Two things about it matter everywhere later: the distance is an
`int`, so a far breakpoint can pass for a near one (`Untruncated` says none does),
and the mask for the last byte of the word is all ones, so that byte is or-ed
instead of replaced. -/
namespace Apue.Sdb
open Memory

/-- A natural number as a `double`: rounded to 53 significant bits, ties to even. -/
def toDouble (n : Nat) : Nat :=
  let e := Nat.log2 n - 52
  let q := n / 2 ^ e
  let r := n % 2 ^ e
  if 2 * r < 2 ^ e ∨ (2 * r = 2 ^ e ∧ q % 2 = 0) then q * 2 ^ e else (q + 1) * 2 ^ e

/-- `offset` counts from one. The shift counts are taken modulo 64, as the unoptimised
build does; `pow(16, …)` is exact for these exponents, its difference with one is not. -/
def alterpart (code : Word) (offset : Nat) (newCode : Word) : Word :=
  let filter := (BitVec.allOnes 64 <<< (8 * offset % 64)) |||
    BitVec.ofNat 64 (toDouble (toDouble (16 ^ ((offset - 1) * 2)) - 1))
  let alter := newCode <<< (8 * (offset - 1) % 64)
  (code &&& filter) ||| alter

/-- `int dist = b - a`. -/
def dist (a b : Addr) : Int := ((b - a).setWidth 32).toInt

def alternate (bps : List Breakpoint) (code : Word) (lladdr : Addr) (to0xcc includeSelf : Bool) :
    Word :=
  let s : Int := if includeSelf then 0 else 1
  bps.foldl (fun code bp =>
    let d := dist lladdr bp.addr
    if s ≤ d ∧ d < 8 then
      let newCode := if to0xcc then 0xcc else bp.code &&& 0xff
      alterpart code (d.toNat + 1) newCode
    else code) code

/-! ### One byte -/

/-- The mask keeps every byte but the one it is for, and the last one too. -/
theorem byteOf_filter : ∀ d : Fin 8, ∀ k : Fin 8,
    byteOf ((BitVec.allOnes 64 <<< (8 * (d.val + 1) % 64)) |||
      BitVec.ofNat 64 (toDouble (toDouble (16 ^ (d.val * 2)) - 1))) k =
      if k = d ∧ d.val ≠ 7 then 0 else BitVec.allOnes 8 := by
  decide +kernel

/-- Byte `k` of the word with the byte at distance `d` altered: the last byte is or-ed. -/
theorem byteOf_alterpart (code newCode : Word) (hnew : newCode.toNat < 256) {d k : Nat}
    (hd : d < 8) (hk : k < 8) :
    byteOf (alterpart code (d + 1) newCode) k =
      if k = d then (if d = 7 then byteOf code k ||| byteOf newCode 0 else byteOf newCode 0)
      else byteOf code k := by
  have hfilter := byteOf_filter ⟨d, hd⟩ ⟨k, hk⟩
  have hshift : 8 * d % 64 = 8 * d := Nat.mod_eq_of_lt (by omega)
  simp only [Fin.mk.injEq] at hfilter
  simp only [alterpart, Nat.add_sub_cancel, hshift]
  rw [byteOf_or, byteOf_and, hfilter, byteOf_shiftLeft _ _ hk]
  by_cases hkd : k = d
  · subst hkd
    by_cases h7 : k = 7
    · rw [if_neg (fun h => h.2 h7), BitVec.and_allOnes, if_pos (Nat.le_refl k), if_pos rfl,
        if_pos h7, Nat.sub_self]
    · rw [if_pos ⟨rfl, h7⟩]
      simp [h7]
  · have hzero : (if d ≤ k then byteOf newCode (k - d) else 0) = 0 := by
      split
      · exact byteOf_small hnew (by omega)
      · rfl
    rw [hzero, if_neg (by simp [hkd]), if_neg hkd, BitVec.and_allOnes]
    exact BitVec.or_zero

/-- The byte `alternate` puts in for a breakpoint. -/
def newByte (to0xcc : Bool) (b : Breakpoint) : Byte := if to0xcc then 0xcc else byteOf b.code 0

theorem byteOf_newCode (to0xcc : Bool) (b : Breakpoint) :
    byteOf (if to0xcc then 0xcc else b.code &&& 0xff) 0 = newByte to0xcc b := by
  cases to0xcc
  · have hmask : byteOf 0xff 0 = BitVec.allOnes 8 := by decide
    simp only [newByte, Bool.false_eq_true, if_false, byteOf_and, hmask, BitVec.and_allOnes]
  · rfl

theorem newCode_lt (to0xcc : Bool) (b : Breakpoint) :
    (if to0xcc then 0xcc else b.code &&& 0xff : Word).toNat < 256 := by
  cases to0xcc
  · simp only [Bool.false_eq_true, if_false, BitVec.toNat_and]
    exact lt_of_le_of_lt Nat.and_le_right (by decide)
  · rw [if_pos rfl]
    decide

/-- `b` is altered at byte `k` of the word at `a`. -/
def Hits (a : Addr) (includeSelf : Bool) (k : Nat) (b : Breakpoint) : Prop :=
  dist a b.addr = k ∧ (includeSelf = true ∨ 0 < k)

/-- What becomes of a byte with value `x` at byte `k`. -/
def mixed (k : Nat) (x new : Byte) : Byte := if k = 7 then x ||| new else new

theorem mixed_mixed (k : Nat) (x new : Byte) : mixed k (mixed k x new) new = mixed k x new := by
  unfold mixed
  split
  · rw [BitVec.or_assoc, BitVec.or_self]
  · rfl

section Fold
variable (a : Addr) (to0xcc includeSelf : Bool)

theorem alternate_cons (b : Breakpoint) (bps : List Breakpoint) (w : Word) :
    alternate (b :: bps) w a to0xcc includeSelf =
      alternate bps (alternate [b] w a to0xcc includeSelf) a to0xcc includeSelf := rfl

theorem byteOf_alternate_single (b : Breakpoint) (w : Word) {k : Nat} (hk : k < 8) :
    (Hits a includeSelf k b →
      byteOf (alternate [b] w a to0xcc includeSelf) k = mixed k (byteOf w k) (newByte to0xcc b)) ∧
    (¬ Hits a includeSelf k b → byteOf (alternate [b] w a to0xcc includeSelf) k = byteOf w k) := by
  simp only [alternate, List.foldl_cons, List.foldl_nil]
  by_cases hrange : (if includeSelf then 0 else 1) ≤ dist a b.addr ∧ dist a b.addr < 8
  · rw [if_pos hrange]
    have hd : (dist a b.addr).toNat < 8 := by split at hrange <;> omega
    rw [byteOf_alterpart _ _ (newCode_lt to0xcc b) hd hk, byteOf_newCode]
    constructor
    · rintro ⟨hdist, _⟩
      have hkd : k = (dist a b.addr).toNat := by omega
      rw [if_pos hkd, ← hkd]
      rfl
    · intro hmiss
      rw [if_neg]
      intro hkd
      apply hmiss
      refine ⟨by split at hrange <;> omega, ?_⟩
      cases includeSelf
      · simp only [Bool.false_eq_true, if_false] at hrange
        exact .inr (by omega)
      · exact .inl rfl
  · rw [if_neg hrange]
    refine ⟨?_, fun _ => rfl⟩
    rintro ⟨hdist, hself⟩
    exfalso
    apply hrange
    rcases hself with rfl | hpos
    · simp only [if_true]
      omega
    · split <;> omega

/-- A byte no breakpoint hits stays. -/
theorem byteOf_alternate_miss (bps : List Breakpoint) (w : Word) {k : Nat} (hk : k < 8)
    (h : ∀ b ∈ bps, ¬ Hits a includeSelf k b) :
    byteOf (alternate bps w a to0xcc includeSelf) k = byteOf w k := by
  induction bps generalizing w with
  | nil => rfl
  | cons b bps ih =>
    rw [alternate_cons, ih _ fun c hc => h c (List.mem_cons_of_mem _ hc)]
    exact (byteOf_alternate_single a to0xcc includeSelf b w hk).2 (h b (List.mem_cons_self ..))

/-- A byte that is hit is mixed with the hitting breakpoint's byte, when all that hit it
agree on that byte. -/
theorem byteOf_alternate_hit (bps : List Breakpoint) (w : Word) {k : Nat} (hk : k < 8) {v : Byte}
    (hv : ∀ b ∈ bps, Hits a includeSelf k b → newByte to0xcc b = v)
    (hex : ∃ b ∈ bps, Hits a includeSelf k b) :
    byteOf (alternate bps w a to0xcc includeSelf) k = mixed k (byteOf w k) v := by
  induction bps generalizing w with
  | nil =>
    obtain ⟨b, hb, -⟩ := hex
    cases hb
  | cons b bps ih =>
    have hv' : ∀ c ∈ bps, Hits a includeSelf k c → newByte to0xcc c = v :=
      fun c hc => hv c (List.mem_cons_of_mem _ hc)
    have hsingle := byteOf_alternate_single a to0xcc includeSelf b w hk
    have hhead : Hits a includeSelf k b →
        byteOf (alternate [b] w a to0xcc includeSelf) k = mixed k (byteOf w k) v := by
      intro hit
      rw [hsingle.1 hit, hv b (List.mem_cons_self ..) hit]
    rw [alternate_cons]
    by_cases htail : ∃ c ∈ bps, Hits a includeSelf k c
    · rw [ih _ hv' htail]
      by_cases hb : Hits a includeSelf k b
      · rw [hhead hb, mixed_mixed]
      · rw [hsingle.2 hb]
    · have hmiss : ∀ c ∈ bps, ¬ Hits a includeSelf k c := fun c hc hit => htail ⟨c, hc, hit⟩
      obtain ⟨c, hc, hit⟩ := hex
      rcases List.mem_cons.mp hc with rfl | hc
      · rw [byteOf_alternate_miss a to0xcc includeSelf bps _ hk hmiss, hhead hit]
      · exact absurd hit (hmiss c hc)

end Fold

/-! ### Distances -/

/-- The `int` distance of two addresses less than eight bytes apart is their distance. -/
theorem dist_of_near {a b : Addr} (h : (b - a).toNat < 8) : dist a b = ((b - a).toNat : Int) := by
  have hset : ((b - a).setWidth 32).toNat = (b - a).toNat := by
    rw [BitVec.toNat_setWidth]
    exact Nat.mod_eq_of_lt (by omega)
  unfold dist
  rw [BitVec.toInt_eq_toNat_of_lt (by omega), hset]

/-- No breakpoint passes for one within eight bytes above `a` because its distance
was cut to an `int`. -/
def Untruncated (bps : List Breakpoint) (a : Addr) : Prop :=
  ∀ b ∈ bps, 0 ≤ dist a b.addr → dist a b.addr < 8 → (b.addr - a).toNat < 8

/-- No breakpoint lies exactly seven bytes above `a`. -/
def ClearAtSeven (bps : List Breakpoint) (a : Addr) : Prop := ∀ b ∈ bps, (b.addr - a).toNat ≠ 7

/-- Under `Untruncated`, a breakpoint hits byte `k` exactly when it is at `a + k`. -/
theorem hits_iff {bps : List Breakpoint} {a : Addr} (hu : Untruncated bps a) (includeSelf : Bool)
    {k : Nat} (hk : k < 8) {b : Breakpoint} (hb : b ∈ bps) :
    Hits a includeSelf k b ↔ b.addr = a + BitVec.ofNat 64 k ∧ (includeSelf = true ∨ 0 < k) := by
  refine and_congr_left fun _ => ⟨fun hdist => ?_, fun haddr => ?_⟩
  · have hnear : (b.addr - a).toNat < 8 := hu b hb (by omega) (by omega)
    rw [dist_of_near hnear] at hdist
    exact eq_add_of_offset (by omega)
  · have hoff : (b.addr - a).toNat = k := by rw [haddr, offset_add a (by omega)]
    rw [dist_of_near (by omega), hoff]

section Words
variable {bps : List Breakpoint} {a : Addr}

/-- A byte that is at no breakpoint keeps its value, whatever the flags. -/
theorem byteOf_alternate_off (hu : Untruncated bps a) (w : Word) (to0xcc includeSelf : Bool)
    {k : Nat} (hk : k < 8) (hoff : a + BitVec.ofNat 64 k ∉ addrs bps) :
    byteOf (alternate bps w a to0xcc includeSelf) k = byteOf w k := by
  apply byteOf_alternate_miss _ _ _ _ _ hk
  intro b hb hit
  exact hoff ⟨b, hb, ((hits_iff hu includeSelf hk hb).mp hit).1⟩

/-- Without `includeSelf` the first byte keeps its value. -/
theorem byteOf_alternate_self (hu : Untruncated bps a) (w : Word) (to0xcc : Bool) :
    byteOf (alternate bps w a to0xcc false) 0 = byteOf w 0 := by
  apply byteOf_alternate_miss _ _ _ _ _ (by decide)
  intro b hb hit
  have := ((hits_iff hu false (by decide) hb).mp hit).2
  simp at this

/-- A byte at a breakpoint is mixed with that breakpoint's byte. -/
theorem byteOf_alternate_at (hu : Untruncated bps a) (hd : Distinct bps) (w : Word)
    (to0xcc includeSelf : Bool) {k : Nat} (hk : k < 8) {b : Breakpoint} (hb : b ∈ bps)
    (haddr : b.addr = a + BitVec.ofNat 64 k) (hself : includeSelf = true ∨ 0 < k) :
    byteOf (alternate bps w a to0xcc includeSelf) k =
      mixed k (byteOf w k) (newByte to0xcc b) := by
  apply byteOf_alternate_hit _ _ _ _ _ hk _
    ⟨b, hb, (hits_iff hu includeSelf hk hb).mpr ⟨haddr, hself⟩⟩
  intro c hc hit
  rw [hd.eq hc hb (((hits_iff hu includeSelf hk hc).mp hit).1.trans haddr.symm)]

/-- With nothing seven bytes above, a byte at a breakpoint is replaced. -/
theorem byteOf_alternate_replaced (hu : Untruncated bps a) (h7 : ClearAtSeven bps a)
    (hd : Distinct bps) (w : Word) (to0xcc includeSelf : Bool) {k : Nat} (hk : k < 8)
    {b : Breakpoint} (hb : b ∈ bps) (haddr : b.addr = a + BitVec.ofNat 64 k)
    (hself : includeSelf = true ∨ 0 < k) :
    byteOf (alternate bps w a to0xcc includeSelf) k = newByte to0xcc b := by
  rw [byteOf_alternate_at hu hd w to0xcc includeSelf hk hb haddr hself, mixed, if_neg]
  intro hk7
  apply h7 b hb
  rw [haddr, offset_add a (by omega), hk7]

/-- The trap of the breakpoint a word belongs to is always armed, whatever other
breakpoint passes for a near one. -/
theorem byteOf_alternate_armed {b : Breakpoint} (hb : b ∈ bps) (w : Word) :
    byteOf (alternate bps w b.addr true true) 0 = 0xcc := by
  have hself : dist b.addr b.addr = ((0 : Nat) : Int) := by
    have hzero : (b.addr - b.addr).toNat = 0 := by simp
    rw [dist_of_near (by omega), hzero]
  exact byteOf_alternate_hit _ _ _ _ _ (by decide) (fun _ _ _ => rfl) ⟨b, hb, hself, .inl rfl⟩

end Words

end Apue.Sdb

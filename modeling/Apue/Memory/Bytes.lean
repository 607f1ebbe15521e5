import Mathlib.Algebra.Ring.Int.Defs
import Mathlib.Algebra.Ring.Nat
import Mathlib.Data.Set.Basic

/-! Byte memory and little-endian words.

A memory gives every 64-bit address a byte, and addresses wrap. `peek` and `poke`
move eight bytes at a time, as `ptrace` and a 64-bit `mov` do; everything later
says about a word it says byte by byte, through `byteOf`. -/
namespace Apue.Memory

abbrev Addr := BitVec 64
abbrev Byte := BitVec 8
abbrev Word := BitVec 64
abbrev Mem := Addr → Byte

/-- Byte `k` of a word, the least significant first. -/
def byteOf (w : Word) (k : Nat) : Byte := w.extractLsb' (8 * k) 8

/-- The number whose bytes are `f 0`, …, `f (n - 1)`, the least significant first. -/
def ofBytes : (n : Nat) → (Nat → Byte) → BitVec (8 * n)
  | 0, _ => 0#0
  | n + 1, f => ofBytes n (fun k => f (k + 1)) ++ f 0

/-- The word at `a`. -/
def peek (m : Mem) (a : Addr) : Word := ofBytes 8 (fun k => m (a + BitVec.ofNat 64 k))

/-- The memory with the word `w` at `a`. -/
def poke (m : Mem) (a : Addr) (w : Word) : Mem :=
  fun x => if (x - a).toNat < 8 then byteOf w (x - a).toNat else m x

/-- The bytes a store leaves: what it names, and the old byte elsewhere. -/
def store (m : Mem) (st : Addr → Option Byte) : Mem := fun x => (st x).getD (m x)

/-! ### Offsets -/

theorem add_offset (a x : Addr) : a + BitVec.ofNat 64 (x - a).toNat = x := by
  rw [BitVec.ofNat_toNat, BitVec.setWidth_eq]
  bv_omega

theorem offset_add (a : Addr) {k : Nat} (hk : k < 2 ^ 64) :
    (a + BitVec.ofNat 64 k - a).toNat = k := by
  bv_omega

theorem eq_add_of_offset {a x : Addr} {k : Nat} (h : (x - a).toNat = k) :
    x = a + BitVec.ofNat 64 k := by
  rw [← h, add_offset]

theorem add_inj (a : Addr) {j k : Nat} (hj : j < 2 ^ 64) (hk : k < 2 ^ 64)
    (h : a + BitVec.ofNat 64 j = a + BitVec.ofNat 64 k) : j = k := by
  rw [← offset_add a hj, h, offset_add a hk]

/-! ### Words and their bytes -/

theorem extract_ofBytes (n : Nat) (f : Nat → Byte) {k : Nat} (hk : k < n) :
    (ofBytes n f).extractLsb' (8 * k) 8 = f k := by
  induction n generalizing f k with
  | zero => omega
  | succ n ih =>
    cases k with
    | zero =>
      ext i hi
      simp [ofBytes, BitVec.getElem_extractLsb', BitVec.getLsbD_append, hi]
    | succ k =>
      rw [← ih (fun k => f (k + 1)) (by omega)]
      ext i hi
      simp only [ofBytes, BitVec.getElem_extractLsb', BitVec.getLsbD_append,
        show ¬ 8 * (k + 1) + i < 8 by omega, if_false]
      congr 1
      omega

theorem byteOf_ofBytes (f : Nat → Byte) {k : Nat} (hk : k < 8) : byteOf (ofBytes 8 f) k = f k :=
  extract_ofBytes 8 f hk

theorem byteOf_peek (m : Mem) (a : Addr) {k : Nat} (hk : k < 8) :
    byteOf (peek m a) k = m (a + BitVec.ofNat 64 k) :=
  byteOf_ofBytes _ hk

theorem getLsbD_byteOf (w : Word) (k : Nat) {i : Nat} (hi : i < 8) :
    (byteOf w k).getLsbD i = w.getLsbD (8 * k + i) := by
  simp [byteOf, hi]

/-- Words with the same eight bytes are the same word. -/
theorem eq_of_byteOf {v w : Word} (h : ∀ k < 8, byteOf v k = byteOf w k) : v = w := by
  apply BitVec.eq_of_getLsbD_eq
  intro i hi
  have hb := congrArg (fun b => b.getLsbD (i % 8)) (h (i / 8) (by omega))
  simp only [getLsbD_byteOf _ _ (show i % 8 < 8 by omega)] at hb
  rwa [show 8 * (i / 8) + i % 8 = i by omega] at hb

/-! ### Reading back -/

theorem poke_apply (m : Mem) (a : Addr) (w : Word) {k : Nat} (hk : k < 8) :
    poke m a w (a + BitVec.ofNat 64 k) = byteOf w k := by
  simp only [poke, offset_add a (show k < 2 ^ 64 by omega), hk, if_true]

theorem poke_self (m : Mem) (a : Addr) (w : Word) : poke m a w a = byteOf w 0 := by
  have h := poke_apply m a w (show 0 < 8 by decide)
  rwa [BitVec.add_zero] at h

theorem poke_outside (m : Mem) (a : Addr) (w : Word) {x : Addr} (hx : ¬ (x - a).toNat < 8) :
    poke m a w x = m x := by
  simp only [poke, hx, if_false]

theorem peek_poke (m : Mem) (a : Addr) (w : Word) : peek (poke m a w) a = w :=
  eq_of_byteOf fun k hk => by rw [byteOf_peek _ _ hk, poke_apply _ _ _ hk]

theorem peek_congr {m m' : Mem} {a : Addr}
    (h : ∀ k < 8, m (a + BitVec.ofNat 64 k) = m' (a + BitVec.ofNat 64 k)) : peek m a = peek m' a :=
  eq_of_byteOf fun k hk => by rw [byteOf_peek _ _ hk, byteOf_peek _ _ hk, h k hk]

/-- Two eight-byte ranges with no address in common. -/
def Apart (a b : Addr) : Prop := ∀ x : Addr, (x - a).toNat < 8 → ¬ (x - b).toNat < 8

theorem peek_poke_apart (m : Mem) {a b : Addr} (w : Word) (h : Apart a b) :
    peek (poke m b w) a = peek m a :=
  peek_congr fun k hk =>
    poke_outside _ _ _ (h _ (by rw [offset_add a (show k < 2 ^ 64 by omega)]; exact hk))

/-- A range that shares no address with another lies apart from it in both senses. -/
theorem Apart.symm {a b : Addr} (h : Apart a b) : Apart b a := fun x hb ha => h x ha hb

theorem apart_of_offset {a b : Addr} (h : 8 ≤ (b - a).toNat) (h' : 8 ≤ (a - b).toNat) :
    Apart a b := by
  intro x ha hb
  bv_omega

theorem apart_add (a : Addr) {d e : Word} (h : 8 ≤ (e - d).toNat) (h' : 8 ≤ (d - e).toNat) :
    Apart (a + d) (a + e) := by
  apply apart_of_offset <;> bv_omega

theorem apart_sub (a : Addr) {d e : Word} (h : 8 ≤ (e - d).toNat) (h' : 8 ≤ (d - e).toNat) :
    Apart (a - d) (a - e) := by
  apply apart_of_offset <;> bv_omega

theorem store_none (m : Mem) {st : Addr → Option Byte} {x : Addr} (h : st x = none) :
    store m st x = m x := by
  simp [store, h]

/-! ### Bytewise arithmetic -/

theorem byteOf_and (v w : Word) (k : Nat) : byteOf (v &&& w) k = byteOf v k &&& byteOf w k := by
  ext i hi
  simp [byteOf]

theorem byteOf_or (v w : Word) (k : Nat) : byteOf (v ||| w) k = byteOf v k ||| byteOf w k := by
  ext i hi
  simp [byteOf]

/-- A shift by whole bytes moves bytes up and brings zeros in. -/
theorem byteOf_shiftLeft (w : Word) (d : Nat) {k : Nat} (hk : k < 8) :
    byteOf (w <<< (8 * d)) k = if d ≤ k then byteOf w (k - d) else 0 := by
  ext i hi
  by_cases hd : d ≤ k
  · have hlt : ¬ 8 * k + i < 8 * d := by omega
    have hidx : 8 * k + i - 8 * d = 8 * (k - d) + i := by omega
    have hrange : 8 * k + i < 64 := by omega
    simp only [byteOf, BitVec.getElem_extractLsb', BitVec.getLsbD_shiftLeft, hd, if_true, hlt, hidx,
      hrange, decide_true, decide_false, Bool.not_false, Bool.true_and]
  · have hlt : 8 * k + i < 8 * d := by omega
    simp [byteOf, hd, hlt]

/-- A word below 256 is its low byte. -/
theorem byteOf_small {b : Word} (hb : b.toNat < 256) {k : Nat} (h0 : 0 < k) : byteOf b k = 0 := by
  have hlt : b.toNat < 2 ^ (8 * k) :=
    lt_of_lt_of_le hb (Nat.pow_le_pow_right (show 0 < 2 by decide) (show 8 ≤ 8 * k by omega))
  apply BitVec.eq_of_toNat_eq
  simp only [byteOf, BitVec.extractLsb'_toNat, Nat.shiftRight_eq_div_pow]
  rw [Nat.div_eq_of_lt hlt]
  rfl

/-- The word `w` with `b` as its low byte: `(w & 0xffffffffffffff00) | b`. -/
def withLow (w : Word) (b : Word) : Word := (w &&& 0xffffffffffffff00) ||| b

theorem byteOf_withLow_zero (w b : Word) : byteOf (withLow w b) 0 = byteOf b 0 := by
  have hmask : byteOf 0xffffffffffffff00 0 = 0 := by decide
  rw [withLow, byteOf_or, byteOf_and, hmask]
  simp

theorem byteOf_withLow (w : Word) {b : Word} (hb : b.toNat < 256) {k : Nat} (h0 : 0 < k)
    (hk : k < 8) : byteOf (withLow w b) k = byteOf w k := by
  have hmask : ∀ j : Fin 8, 0 < j.val → byteOf 0xffffffffffffff00 j = BitVec.allOnes 8 := by decide
  rw [withLow, byteOf_or, byteOf_and, hmask ⟨k, hk⟩ h0, byteOf_small hb h0, BitVec.and_allOnes]
  exact BitVec.or_zero

end Apue.Memory

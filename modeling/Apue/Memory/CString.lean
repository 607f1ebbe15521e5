import Apue.Memory.Bytes
import Mathlib.Data.List.GetD

/-! Strings in memory, ended by a zero byte.

`stringAt` reads one, in a memory with unmapped places; `stringAt_iff` says which. What is
read depends on the places up to the zero only (`Ends.congr`), and where there is no zero
among the first places it depends on the next ones (`stringAt_changed`). -/
namespace Apue.Memory

/-- A memory in which a place may be unmapped. -/
abbrev Pages := Addr → Option Byte

def stringAtAux (m : Pages) : Nat → Addr → Option (List Byte)
  | 0, _ => none
  | n + 1, a =>
    match m a with
    | none => none
    | some b => if b = 0 then some [] else (stringAtAux m n (a + 1)).map (b :: ·)

/-- The string at an address, if it is not the null pointer and a zero comes before any
unmapped place. -/
def stringAt (m : Pages) (a : Addr) : Option (List Byte) :=
  if a = 0 then none else stringAtAux m (2 ^ 64) a

/-- The bytes at `a`, none of them zero, and a zero after them. -/
def Ends (m : Pages) : Addr → List Byte → Prop
  | a, [] => m a = some 0
  | a, b :: bs => m a = some b ∧ b ≠ 0 ∧ Ends m (a + 1) bs

/-- Two memories have the same first `n` places at `a`. -/
def Agree (n : Nat) (a : Addr) (m m' : Pages) : Prop :=
  ∀ i < n, m' (a + BitVec.ofNat 64 i) = m (a + BitVec.ofNat 64 i)

variable {m m' : Pages} {a : Addr} {bs bs' : List Byte} {n : Nat}

theorem stringAtAux_iff : stringAtAux m n a = some bs ↔ bs.length < n ∧ Ends m a bs := by
  induction n generalizing a bs with
  | zero => exact iff_of_false nofun fun h => absurd h.1 (Nat.not_lt_zero _)
  | succ n ih =>
    unfold stringAtAux
    cases hb : m a with
    | none =>
      refine iff_of_false nofun fun h => ?_
      cases bs with
      | nil => exact absurd (hb.symm.trans h.2) nofun
      | cons b bs => exact absurd (hb.symm.trans h.2.1) nofun
    | some b =>
      by_cases hzero : b = 0
      · simp only [hzero, if_true, Option.some.injEq]
        cases bs with
        | nil => exact iff_of_true rfl ⟨Nat.zero_lt_succ n, hb.trans (congrArg some hzero)⟩
        | cons c cs =>
          refine iff_of_false nofun fun h => h.2.2.1 ?_
          rw [← Option.some.inj (hb.symm.trans h.2.1), hzero]
      · simp only [hzero, if_false, Option.map_eq_some_iff, ih]
        constructor
        · rintro ⟨cs, ⟨hlen, hends⟩, rfl⟩
          exact ⟨Nat.succ_lt_succ hlen, hb, hzero, hends⟩
        · rintro ⟨hlen, hends⟩
          cases bs with
          | nil => exact absurd (Option.some.inj (hb.symm.trans hends)) hzero
          | cons c cs =>
            refine ⟨cs, ⟨Nat.lt_of_succ_lt_succ hlen, hends.2.2⟩, ?_⟩
            rw [Option.some.inj (hb.symm.trans hends.1)]

/-- **What is read.** -/
theorem stringAt_iff : stringAt m a = some bs ↔ a ≠ 0 ∧ bs.length < 2 ^ 64 ∧ Ends m a bs := by
  unfold stringAt
  by_cases ha : a = 0
  · rw [if_pos ha]
    exact iff_of_false nofun fun h => h.1 ha
  · rw [if_neg ha, stringAtAux_iff]
    exact ⟨fun h => ⟨ha, h⟩, fun h => h.2⟩

theorem ends_succ (a : Addr) (i : Nat) : a + 1 + BitVec.ofNat 64 i = a + BitVec.ofNat 64 (i + 1) := by
  rw [BitVec.add_assoc, Nat.add_comm i 1, BitVec.ofNat_add]
  rfl

theorem Agree.succ (h : Agree (n + 1) a m m') : m' a = m a ∧ Agree n (a + 1) m m' := by
  constructor
  · have hhere := h 0 (Nat.zero_lt_succ n)
    rwa [BitVec.add_zero] at hhere
  · intro i hi
    rw [ends_succ]
    exact h (i + 1) (Nat.succ_lt_succ hi)

/-- The places up to the zero decide. -/
theorem Ends.congr (h : Ends m a bs) (hsame : Agree (bs.length + 1) a m m') : Ends m' a bs := by
  induction bs generalizing a with
  | nil => exact hsame.succ.1.trans h
  | cons b bs ih => exact ⟨hsame.succ.1.trans h.1, h.2.1, ih h.2.2 hsame.succ.2⟩

theorem Ends.unique (h : Ends m a bs) (h' : Ends m a bs') : bs' = bs := by
  induction bs generalizing a bs' with
  | nil =>
    cases bs' with
    | nil => rfl
    | cons c cs => exact absurd (Option.some.inj (h'.1.symm.trans h)) h'.2.1
  | cons b bs ih =>
    cases bs' with
    | nil => exact absurd (Option.some.inj (h.1.symm.trans h')) h.2.1
    | cons c cs => rw [Option.some.inj (h'.1.symm.trans h.1), ih h.2.2 h'.2.2]

/-- What is at a place of the string. -/
theorem Ends.get (h : Ends m a bs) : ∀ i ≤ bs.length, ∃ b, m (a + BitVec.ofNat 64 i) = some b ∧
    (b = 0 ↔ i = bs.length) := by
  induction bs generalizing a with
  | nil =>
    intro i hi
    obtain rfl : i = 0 := Nat.le_zero.mp hi
    exact ⟨0, by rw [BitVec.add_zero]; exact h, iff_of_true rfl rfl⟩
  | cons b bs ih =>
    intro i hi
    cases i with
    | zero => exact ⟨b, by rw [BitVec.add_zero]; exact h.1, iff_of_false h.2.1 nofun⟩
    | succ i =>
      obtain ⟨c, hc, hiff⟩ := ih h.2.2 i (Nat.le_of_succ_le_succ hi)
      refine ⟨c, by rw [← ends_succ]; exact hc, hiff.trans ?_⟩
      rw [List.length_cons, Nat.add_right_cancel_iff]

theorem Ends.zero (h : Ends m a bs) : m (a + BitVec.ofNat 64 bs.length) = some 0 := by
  obtain ⟨b, hb, hiff⟩ := h.get bs.length (Nat.le_refl _)
  exact hb.trans (congrArg some (hiff.mpr rfl))

/-- A string fits the address space. -/
theorem Ends.length_lt (h : Ends m a bs) : bs.length < 2 ^ 64 := by
  by_contra hge
  obtain ⟨b, hb, hiff⟩ := h.get (bs.length - 2 ^ 64) (Nat.sub_le _ _)
  have hwrap : a + BitVec.ofNat 64 (bs.length - 2 ^ 64) = a + BitVec.ofNat 64 bs.length := by
    have hmod : BitVec.ofNat 64 (bs.length - 2 ^ 64) = BitVec.ofNat 64 bs.length := by
      apply BitVec.eq_of_toNat_eq
      simp only [BitVec.toNat_ofNat]
      omega
    rw [hmod]
  rw [hwrap, h.zero] at hb
  have hlast := hiff.mp (Option.some.inj hb).symm
  omega

/-- A zero among the first `n` places ends the string there. -/
theorem Ends.length_lt_iff (h : Ends m a bs) :
    bs.length < n ↔ ∃ i < n, m (a + BitVec.ofNat 64 i) = some 0 := by
  constructor
  · exact fun hlt => ⟨bs.length, hlt, h.zero⟩
  · rintro ⟨i, hi, hzero⟩
    by_contra hge
    obtain ⟨b, hb, hiff⟩ := h.get i (by omega)
    have hlast := hiff.mp (Option.some.inj (hb.symm.trans hzero))
    omega

/-- Strings that end in the first `n` places, or right after them, are the same where these are. -/
theorem Ends.eq_of_agree (h : Ends m a bs) (h' : Ends m' a bs') (hsame : Agree n a m m')
    (hle : bs.length ≤ n) (hle' : bs'.length ≤ n) : bs' = bs := by
  have hlt : bs'.length < n ↔ bs.length < n := by
    rw [h.length_lt_iff, h'.length_lt_iff]
    exact exists_congr fun i => and_congr_right fun hi => by rw [hsame i hi]
  refine Ends.unique (h.congr fun i hi => ?_) h'
  by_cases hin : i < n
  · exact hsame i hin
  · have hlast : i = bs.length := by omega
    have hlast' : i = bs'.length := by omega
    rw [hlast, h.zero, ← hlast, hlast', h'.zero]

/-- The first places of a string and another end are a string. -/
theorem Ends.splice (h : Ends m a bs) (hn : n ≤ bs.length) (hsame : Agree n a m m')
    (hrest : Ends m' (a + BitVec.ofNat 64 n) bs') : Ends m' a (bs.take n ++ bs') := by
  induction n generalizing a bs with
  | zero => rwa [BitVec.add_zero] at hrest
  | succ n ih =>
    cases bs with
    | nil => exact absurd hn (Nat.not_succ_le_zero n)
    | cons b bs =>
      rw [← ends_succ] at hrest
      exact ⟨hsame.succ.1.trans h.1, h.2.1, ih h.2.2 (Nat.le_of_succ_le_succ hn) hsame.succ.2 hrest⟩

theorem place_ne (a : Addr) {i j : Nat} (hij : i < j) (hj : j < 2 ^ 64) :
    a + BitVec.ofNat 64 i ≠ a + BitVec.ofNat 64 j :=
  fun h => absurd (add_inj a (Nat.lt_trans hij hj) hj h) (Nat.ne_of_lt hij)

/-- Nothing is written to the first `n` places. -/
theorem agree_update {k : Nat} {b : Option Byte} (hn : n ≤ k) (hk : k < 2 ^ 64) :
    Agree n a m (Function.update m (a + BitVec.ofNat 64 k) b) :=
  fun _ hi => Function.update_of_ne (place_ne a (Nat.lt_of_lt_of_le hi hn) hk) ..

/-- A string that is ended after `n` bytes. -/
theorem stringAt_cut (h : stringAt m a = some bs) (hn : n ≤ bs.length) :
    stringAt (Function.update m (a + BitVec.ofNat 64 n) (some 0)) a = some (bs.take n) := by
  obtain ⟨ha, hlen, hends⟩ := stringAt_iff.mp h
  have htake : (bs.take n).length = n := by rw [List.length_take, Nat.min_eq_left hn]
  refine stringAt_iff.mpr ⟨ha, by omega, ?_⟩
  rw [← List.append_nil (bs.take n)]
  exact hends.splice hn (agree_update (Nat.le_refl n) (by omega)) (Function.update_self ..)

/-- A memory with a byte and a zero at a place. -/
def ended (m : Pages) (a : Addr) (k : Nat) (b : Byte) : Pages :=
  Function.update (Function.update m (a + BitVec.ofNat 64 k) (some b)) (a + BitVec.ofNat 64 (k + 1)) (some 0)

theorem agree_ended {k : Nat} {b : Byte} (hn : n ≤ k) (hk : k + 1 < 2 ^ 64) :
    Agree n a m (ended m a k b) := by
  intro i hi
  exact (agree_update (Nat.le_succ_of_le hn) hk i hi).trans (agree_update hn (by omega) i hi)

/-- A string with another byte. -/
theorem stringAt_snoc {b : Byte} (hb : b ≠ 0) (h : stringAt m a = some bs)
    (hlt : bs.length + 1 < 2 ^ 64) : stringAt (ended m a bs.length b) a = some (bs ++ [b]) := by
  obtain ⟨ha, -, hends⟩ := stringAt_iff.mp h
  have hlast : Ends (ended m a bs.length b) (a + BitVec.ofNat 64 bs.length) [b] := by
    refine ⟨?_, hb, ?_⟩
    · rw [ended, Function.update_of_ne (place_ne a (Nat.lt_succ_self _) hlt), Function.update_self]
    · have hnext : a + BitVec.ofNat 64 bs.length + 1 = a + BitVec.ofNat 64 (bs.length + 1) := by
        rw [BitVec.ofNat_add, ← BitVec.add_assoc]
        rfl
      rw [hnext]
      exact Function.update_self ..
  have hall := hends.splice (Nat.le_refl _) (agree_ended (Nat.le_refl _) hlt) hlast
  rw [List.take_length] at hall
  exact stringAt_iff.mpr ⟨ha, by rw [List.length_append]; exact hlt, hall⟩

/-- A string without a zero among the first `n` places can be ended right after them, or one
byte later. -/
theorem stringAt_changed (h : stringAt m a = some bs) (hn : n ≤ bs.length) (hlt : n + 1 < 2 ^ 64) :
    ∃ m' cs, stringAt m' a = some cs ∧ cs.length ≤ n + 1 ∧ cs.length ≠ bs.length ∧ Agree n a m m' := by
  by_cases hend : bs.length = n
  · subst hend
    exact ⟨_, _, stringAt_snoc (b := 0x41) (by decide) h hlt, by simp, by simp,
      agree_ended (Nat.le_refl _) hlt⟩
  · have htake : (bs.take n).length = n := by rw [List.length_take, Nat.min_eq_left hn]
    exact ⟨_, _, stringAt_cut h hn, by omega, by omega, agree_update (Nat.le_refl n) (by omega)⟩

theorem ends_replicate {b : Byte} (hb : b ≠ 0) (hrun : ∀ i < n, m (a + BitVec.ofNat 64 i) = some b)
    (hstop : m (a + BitVec.ofNat 64 n) = some 0) : Ends m a (List.replicate n b) := by
  induction n generalizing a with
  | zero => rwa [BitVec.add_zero] at hstop
  | succ n ih =>
    rw [List.replicate_succ]
    refine ⟨?_, hb, ih (fun i hi => ?_) ?_⟩
    · have := hrun 0 (Nat.zero_lt_succ n)
      rwa [BitVec.add_zero] at this
    · rw [ends_succ]
      exact hrun (i + 1) (Nat.succ_lt_succ hi)
    · rw [ends_succ]
      exact hstop

/-! ### Bytes -/

/-- The first `n` bytes at an address. -/
def bytesAt (m : Mem) : Nat → Addr → List Byte
  | 0, _ => []
  | n + 1, a => m a :: bytesAt m n (a + 1)

/-- Where every place is mapped. -/
abbrev mapped (m : Mem) : Pages := fun x => some (m x)

theorem Ends.bytesAt {m : Mem} (h : Ends (mapped m) a bs) : bytesAt m bs.length a = bs := by
  induction bs generalizing a with
  | nil => rfl
  | cons b bs ih =>
    obtain ⟨hb, -, hrest⟩ := h
    rw [List.length_cons, Memory.bytesAt, ih hrest, Option.some.inj hb]

/-- The bytes of a string, one place each. -/
theorem ends_of_getElem {m : Mem} (hbytes : ∀ i (hi : i < bs.length), m (a + BitVec.ofNat 64 i) = bs[i])
    (hnonzero : ∀ b ∈ bs, b ≠ 0) (hzero : m (a + BitVec.ofNat 64 bs.length) = 0) :
    Ends (mapped m) a bs := by
  induction bs generalizing a with
  | nil =>
    rw [List.length_nil, BitVec.add_zero] at hzero
    exact congrArg some hzero
  | cons b bs ih =>
    obtain ⟨hb, hrest⟩ := List.forall_mem_cons.mp hnonzero
    refine ⟨?_, hb, ih (fun i hi => ?_) hrest ?_⟩
    · have hfirst := hbytes 0 (Nat.succ_pos _)
      rw [BitVec.add_zero] at hfirst
      exact congrArg some hfirst
    · rw [ends_succ]
      exact hbytes (i + 1) (Nat.succ_lt_succ hi)
    · rw [ends_succ]
      exact hzero

/-- A memory with `bs` from `base` on, and zeros elsewhere. -/
def holding (base : Addr) (bs : List Byte) : Mem := fun a => bs.getD (a - base).toNat 0

/-- A string in the middle of it. -/
theorem stringAt_holding {base : Addr} (pre post : List Byte) (hnonzero : ∀ b ∈ bs, b ≠ 0)
    (hlen : base.toNat + pre.length + bs.length < 2 ^ 64) (hbase : base ≠ 0) :
    stringAt (mapped (holding base (pre ++ (bs ++ 0 :: post)))) (base + BitVec.ofNat 64 pre.length) =
      some bs := by
  have hplace : ∀ i ≤ bs.length, holding base (pre ++ (bs ++ 0 :: post))
      (base + BitVec.ofNat 64 pre.length + BitVec.ofNat 64 i) = (bs ++ 0 :: post).getD i 0 := by
    intro i hi
    have hoff : (base + BitVec.ofNat 64 pre.length + BitVec.ofNat 64 i - base).toNat =
        pre.length + i := by
      bv_omega
    rw [holding, hoff, List.getD_append_right _ _ _ _ (Nat.le_add_right ..), Nat.add_sub_cancel_left]
  refine stringAt_iff.mpr ⟨by bv_omega, by omega, ends_of_getElem (fun i hi => ?_) hnonzero ?_⟩
  · rw [hplace i (Nat.le_of_lt hi), List.getD_append _ _ _ _ hi, List.getD_eq_getElem _ _ hi]
  · rw [hplace _ (Nat.le_refl _), List.getD_append_right _ _ _ _ (Nat.le_refl _), Nat.sub_self]
    rfl

end Apue.Memory

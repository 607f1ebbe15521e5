import Mathlib.Order.BooleanAlgebra.Set
import Mathlib.Logic.Equiv.Defs

/-! Words as sets.

A type with `n` elements, numbered by `e`, has its subsets in the words of width `n`. Setting
a bit inserts, clearing a bit removes, and a sequence of both does to the word what it does to
the set (`elements_foldl`). -/
namespace Apue.Bits

variable {n : Nat} {α : Type*} {e : α ≃ Fin n} {v w : BitVec n} {a b : α}

/-- The elements whose bits are one. -/
def elements (e : α ≃ Fin n) (v : BitVec n) : Set α := {a | v.getLsbD (e a) = true}

theorem mem_elements : a ∈ elements e v ↔ v.getLsbD (e a) = true := Iff.rfl

/-- A word is known by its set. -/
theorem elements_inj : elements e v = elements e w ↔ v = w := by
  refine ⟨fun h => BitVec.eq_of_getLsbD_eq fun i hi => ?_, congrArg (elements e)⟩
  have hmem : e.symm ⟨i, hi⟩ ∈ elements e v ↔ e.symm ⟨i, hi⟩ ∈ elements e w := by rw [h]
  rw [mem_elements, mem_elements, Equiv.apply_symm_apply] at hmem
  exact Bool.eq_iff_iff.mpr hmem

theorem elements_zero (e : α ≃ Fin n) : elements e 0 = ∅ := by
  ext a
  simp [mem_elements]

theorem elements_allOnes (e : α ≃ Fin n) : elements e (BitVec.allOnes n) = Set.univ := by
  ext a
  simp [mem_elements]

theorem elements_or (v w : BitVec n) : elements e (v ||| w) = elements e v ∪ elements e w := by
  ext a
  rw [mem_elements, BitVec.getLsbD_or, Bool.or_eq_true]
  rfl

theorem elements_andNot (v w : BitVec n) : elements e (v &&& ~~~w) = elements e v \ elements e w := by
  ext a
  rw [mem_elements, BitVec.getLsbD_and, BitVec.getLsbD_not, Bool.and_eq_true, Bool.and_eq_true,
    decide_eq_true_eq, and_iff_right (e a).isLt, Bool.not_eq_true', ← Bool.not_eq_true]
  rfl

/-- A word with one bit. -/
theorem getLsbD_bit : (1#n <<< (e a : Nat)).getLsbD (e b) = true ↔ b = a := by
  rw [← BitVec.twoPow_eq, BitVec.getLsbD_twoPow, Bool.and_eq_true, decide_eq_true_eq,
    decide_eq_true_eq, and_iff_right (e a).isLt, ← Fin.ext_iff, e.injective.eq_iff]
  exact eq_comm

theorem elements_set (v : BitVec n) (a : α) :
    elements e (v ||| 1#n <<< (e a : Nat)) = insert a (elements e v) := by
  ext b
  rw [mem_elements, BitVec.getLsbD_or, Bool.or_eq_true, getLsbD_bit, or_comm]
  rfl

theorem elements_clear (v : BitVec n) (a : α) :
    elements e (v &&& ~~~(1#n <<< (e a : Nat))) = elements e v \ {a} := by
  ext b
  rw [mem_elements, BitVec.getLsbD_and, BitVec.getLsbD_not, Bool.and_eq_true, Bool.and_eq_true,
    decide_eq_true_eq, and_iff_right (e b).isLt, Bool.not_eq_true', ← Bool.not_eq_true, getLsbD_bit]
  rfl

/-- The bit of an element. -/
theorem one_and_shift (v : BitVec n) (i : Fin n) :
    1#n &&& v >>> (i : Nat) = if v.getLsbD i then 1#n else 0#n := by
  apply BitVec.eq_of_getLsbD_eq
  intro j hj
  rw [BitVec.getLsbD_and, BitVec.getLsbD_one, BitVec.getLsbD_ushiftRight]
  by_cases hzero : j = 0
  · subst hzero
    cases v.getLsbD i <;> simp [hj]
  · cases v.getLsbD i <;> simp [hzero]

/-! ### Operations on sets -/

inductive SetOp (α : Type*) where
  | empty
  | fill
  | insert (a : α)
  | delete (a : α)

def SetOp.on (s : Set α) : SetOp α → Set α
  | .empty => ∅
  | .fill => Set.univ
  | .insert a => Insert.insert a s
  | .delete a => s \ {a}

/-- An operation is about one element. -/
def SetOp.About (f : SetOp α) (a : α) : Prop := f = .insert a ∨ f = .delete a

/-- Operations on different elements commute. -/
theorem SetOp.on_comm (s : Set α) {f g : SetOp α} (hf : f.About a) (hg : g.About b) (hab : a ≠ b) :
    g.on (f.on s) = f.on (g.on s) := by
  have hdelete : ∀ {a b : α}, a ≠ b → Insert.insert a s \ {b} = Insert.insert a (s \ {b}) := fun h =>
    Set.insert_sdiff_of_notMem _ h
  rcases hf with rfl | rfl <;> rcases hg with rfl | rfl
  · exact Set.insert_comm b a s
  · exact hdelete hab
  · exact (hdelete hab.symm).symm
  · exact sdiff_sdiff_comm

/-- They leave other elements as they are. -/
theorem SetOp.mem_on {s : Set α} {f : SetOp α} (hf : f.About a) (hab : b ≠ a) :
    b ∈ f.on s ↔ b ∈ s := by
  rcases hf with rfl | rfl
  · exact Set.mem_insert_iff.trans (or_iff_right hab)
  · exact and_iff_left hab

/-- What an operation does to a word. -/
def SetOp.onWord (e : α ≃ Fin n) (v : BitVec n) : SetOp α → BitVec n
  | .empty => 0
  | .fill => BitVec.allOnes n
  | .insert a => v ||| 1#n <<< (e a : Nat)
  | .delete a => v &&& ~~~(1#n <<< (e a : Nat))

theorem elements_onWord (v : BitVec n) (f : SetOp α) :
    elements e (f.onWord e v) = f.on (elements e v) := by
  cases f with
  | empty => exact elements_zero e
  | fill => exact elements_allOnes e
  | insert a => exact elements_set v a
  | delete a => exact elements_clear v a

/-- **Any sequence of operations does to a word what it does to its set.** -/
theorem elements_foldl (fs : List (SetOp α)) (v : BitVec n) :
    elements e (fs.foldl (SetOp.onWord e) v) = fs.foldl SetOp.on (elements e v) := by
  induction fs generalizing v with
  | nil => rfl
  | cons f fs ih => rw [List.foldl_cons, List.foldl_cons, ih, elements_onWord]

end Apue.Bits

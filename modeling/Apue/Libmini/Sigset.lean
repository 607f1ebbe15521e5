import Apue.Bits.Sets
import Apue.Libmini.Wrappers

/-! Signal sets.

A `sigset_t` is an array of words, and there is one of them, so that each function has one
live branch. The bit of a signal is one below its number. -/
namespace Apue.Libmini
open Memory Bits

def nsig : Nat := 64
def nsigBpw : Nat := 64
def nsigWords : Nat := nsig / nsigBpw

@[ext] structure SigsetT where
  sig : Vector Word nsigWords
  deriving DecidableEq

namespace SigsetT

/-- `set->sig[i]`. -/
def word (set : SigsetT) (i : Nat) : Word := set.sig[i]?.getD 0

/-- `set->sig[i] = v`. -/
def setWord (set : SigsetT) (i : Nat) (v : Word) : SigsetT := ⟨set.sig.setIfInBounds i v⟩

end SigsetT

/-- The `switch` of `sigemptyset` and `sigfillset`; its second case falls through. -/
def setWords (v : Word) (set : SigsetT) : SigsetT :=
  match nsigWords with
  | 1 => set.setWord 0 v
  | 2 => (set.setWord 1 v).setWord 0 v
  | n => (List.range n).foldl (fun set i => set.setWord i v) set

def sigemptyset (set : SigsetT) : SigsetT := setWords 0 set

def sigfillset (set : SigsetT) : SigsetT := setWords (-1) set

/-- `unsigned long sig = _sig - 1`. -/
def bitOf (sig_ : Int) : Nat := ((sig_ - 1) % 2 ^ 64).toNat

def sigaddset (set : SigsetT) (sig_ : Int) : SigsetT :=
  let sig := bitOf sig_
  if nsigWords = 1 then set.setWord 0 (set.word 0 ||| 1#64 <<< sig)
  else set.setWord (sig / nsigBpw) (set.word (sig / nsigBpw) ||| 1#64 <<< (sig % nsigBpw))

def sigdelset (set : SigsetT) (sig_ : Int) : SigsetT :=
  let sig := bitOf sig_
  if nsigWords = 1 then set.setWord 0 (set.word 0 &&& ~~~(1#64 <<< sig))
  else set.setWord (sig / nsigBpw) (set.word (sig / nsigBpw) &&& ~~~(1#64 <<< (sig % nsigBpw)))

def sigismember (set : SigsetT) (sig_ : Int) : Int :=
  let sig := bitOf sig_
  if nsigWords = 1 then CType.int.convert (1#64 &&& set.word 0 >>> sig).toNat
  else CType.int.convert (1#64 &&& set.word (sig / nsigBpw) >>> (sig % nsigBpw)).toNat

theorem nsigWords_pos : 0 < nsigWords := by decide

@[simp] theorem SigsetT.word_setWord (set : SigsetT) (v : Word) : (set.setWord 0 v).word 0 = v := by
  rw [setWord, word, Vector.getElem?_setIfInBounds_self_of_lt nsigWords_pos]
  rfl

/-- The first word is all there is. -/
theorem SigsetT.eq_of_word {set set' : SigsetT} (h : set.word 0 = set'.word 0) : set = set' := by
  rw [word, word, Vector.getElem?_eq_getElem nsigWords_pos, Vector.getElem?_eq_getElem nsigWords_pos] at h
  refine SigsetT.ext (Vector.ext fun i hi => ?_)
  obtain rfl : i = 0 := Nat.lt_one_iff.mp hi
  exact h

/-! ### Signals -/

@[ext] structure Signal where
  number : Int
  low : 1 ≤ number
  high : number ≤ nsig
  deriving DecidableEq

theorem bitOf_signal (n : Signal) : (bitOf n.number : Int) = n.number - 1 := by
  obtain ⟨number, low, high⟩ := n
  simp only [bitOf, nsig] at high ⊢
  omega

/-- The signals are the bits of a word. -/
def Signal.bit : Signal ≃ Fin 64 where
  toFun n := ⟨bitOf n.number, by
    have hbit := bitOf_signal n
    have hhigh : n.number ≤ 64 := n.high
    omega⟩
  invFun i := ⟨i + 1, by omega, by
    have hi := i.isLt
    show (i : Int) + 1 ≤ 64
    omega⟩
  left_inv n := by
    have hbit := bitOf_signal n
    ext
    dsimp only
    omega
  right_inv i := by
    have hi := i.isLt
    ext
    simp only [bitOf]
    omega

/-- The signals in a set. -/
def SigsetT.signals (set : SigsetT) : Set Signal := elements Signal.bit (set.word 0)

/-- A set is known by its signals. -/
theorem SigsetT.eq_of_signals {set set' : SigsetT} (h : set.signals = set'.signals) : set = set' :=
  SigsetT.eq_of_word (elements_inj.mp h)

/-- A call of one of the four functions that change a set. -/
def sigop (set : SigsetT) : SetOp Signal → SigsetT
  | .empty => sigemptyset set
  | .fill => sigfillset set
  | .insert n => sigaddset set n.number
  | .delete n => sigdelset set n.number

theorem word_sigop (set : SigsetT) (f : SetOp Signal) :
    (sigop set f).word 0 = f.onWord Signal.bit (set.word 0) := by
  cases f with
  | empty => exact SigsetT.word_setWord set _
  | fill => exact SigsetT.word_setWord set _
  | insert n => exact SigsetT.word_setWord set _
  | delete n => exact SigsetT.word_setWord set _

/-- A call does to the word what it does to the set. -/
theorem signals_sigop (set : SigsetT) (f : SetOp Signal) :
    (sigop set f).signals = f.on set.signals := by
  rw [SigsetT.signals, word_sigop, elements_onWord]
  rfl

/-- And a sequence of calls does to the word what it does to the set. -/
theorem signals_foldl (fs : List (SetOp Signal)) (set : SigsetT) :
    (fs.foldl sigop set).signals = fs.foldl SetOp.on set.signals := by
  have hword : fs.foldl (SetOp.onWord Signal.bit) (set.word 0) = (fs.foldl sigop set).word 0 :=
    List.foldl_hom (fun set => set.word 0) fun set f => (word_sigop set f).symm
  rw [SigsetT.signals, ← hword, elements_foldl]
  rfl

theorem sigismember_signals (set : SigsetT) (n : Signal) :
    (n ∈ set.signals → sigismember set n.number = 1) ∧ (n ∉ set.signals → sigismember set n.number = 0) := by
  have hwords : nsigWords = 1 := by decide
  have hbit : bitOf n.number = (Signal.bit n : Nat) := rfl
  rw [SigsetT.signals, mem_elements, sigismember, if_pos hwords, hbit, one_and_shift]
  constructor
  · intro hbit
    rw [if_pos hbit]
    decide
  · intro hbit
    rw [if_neg hbit]
    decide

/-- **Signal sets are sets**: after any calls `sigismember` tells what is in the set that the same
operations make, and calls about different signals neither depend on their order nor touch each
other's membership. -/
theorem sigismember_set (fs : List (SetOp Signal)) (set : SigsetT) (n : Signal) :
    (n ∈ fs.foldl SetOp.on set.signals → sigismember (fs.foldl sigop set) n.number = 1) ∧
      (n ∉ fs.foldl SetOp.on set.signals → sigismember (fs.foldl sigop set) n.number = 0) ∧
      (∀ f g a b, SetOp.About f a → SetOp.About g b → a ≠ b →
        sigop (sigop set f) g = sigop (sigop set g) f) ∧
      ∀ f a, SetOp.About f a → n ≠ a →
        sigismember (sigop set f) n.number = sigismember set n.number := by
  obtain ⟨hin, hout⟩ := sigismember_signals (fs.foldl sigop set) n
  rw [signals_foldl] at hin hout
  refine ⟨hin, hout, fun f g a b hf hg hab => ?_, fun f a hf hn => ?_⟩
  · apply SigsetT.eq_of_signals
    simp only [signals_sigop]
    exact SetOp.on_comm set.signals hf hg hab
  · obtain ⟨hin, hout⟩ := sigismember_signals set n
    obtain ⟨hin', hout'⟩ := sigismember_signals (sigop set f) n
    rw [signals_sigop, SetOp.mem_on hf hn] at hin' hout'
    by_cases hmem : n ∈ set.signals
    · rw [hin hmem, hin' hmem]
    · rw [hout hmem, hout' hmem]

def sigint : Signal := ⟨2, by decide, by decide⟩
def sigterm : Signal := ⟨15, by decide, by decide⟩

/-- Two signals are taken out of the full set, and one of them is put back. -/
theorem sigismember_sigint :
    let set : SigsetT := [.fill, .delete sigint, .delete sigterm, .insert sigint].foldl sigop
      ⟨Vector.replicate nsigWords 0⟩
    sigismember set 2 = 1 ∧ sigismember set 15 = 0 := by
  let fs : List (SetOp Signal) := [.fill, .delete sigint, .delete sigterm, .insert sigint]
  obtain ⟨hin, -⟩ := sigismember_set fs ⟨Vector.replicate nsigWords 0⟩ sigint
  obtain ⟨-, hout, -⟩ := sigismember_set fs ⟨Vector.replicate nsigWords 0⟩ sigterm
  refine ⟨hin ?_, hout ?_⟩
  · simp [fs, SetOp.on]
  · have hne : sigterm ≠ sigint := by decide
    simp [fs, SetOp.on, hne]

end Apue.Libmini

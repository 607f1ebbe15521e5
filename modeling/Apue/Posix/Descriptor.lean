import Apue.Memory.Bytes
import Mathlib.Logic.Function.Basic

/-! Descriptors and files.

A process has a table of descriptors, each of them free or an open file description, which
is a file and an offset; several descriptors may have one description. `create` takes the
lowest free descriptor, and what is written goes to the offset of the description and moves
it. -/
namespace Apue.Posix
open Memory

structure Description (π : Type*) where
  file : π
  offset : Nat
  deriving DecidableEq, Repr

structure Kernel (π : Type*) where
  /-- The contents of the files there are. -/
  files : π → Option (List Byte)
  /-- The files that may be opened, or created, to read and write. -/
  permits : π → Bool
  opened : List (Description π)
  /-- The descriptors, by their descriptions; one beyond the list is free. -/
  table : List (Option Nat)

def lookup (table : List (Option Nat)) (fd : Nat) : Option Nat := table.getD fd none

/-- The table with a descriptor changed. -/
def put (table : List (Option Nat)) (fd : Nat) (d : Option Nat) : List (Option Nat) :=
  (table ++ List.replicate (fd + 1 - table.length) none).set fd d

/-- The lowest free descriptor. -/
def lowest (table : List (Option Nat)) : Nat := table.findIdx Option.isNone

/-- A file after a write; what was not there before the offset is filled with zeros. -/
def overwrite (content : List Byte) (offset : Nat) (bytes : List Byte) : List Byte :=
  content.take offset ++ List.replicate (offset - content.length) 0 ++ bytes ++
    content.drop (offset + bytes.length)

namespace Kernel
variable {π : Type*}

def get (k : Kernel π) (fd : Nat) : Option Nat := lookup k.table fd

/-- `dup2`; a descriptor that is free stays so, and the other as it is. -/
def dup2 (k : Kernel π) (oldfd : Option Nat) (newfd : Nat) : Kernel π :=
  match oldfd.bind k.get with
  | some d => { k with table := put k.table newfd (some d) }
  | none => k

def close (k : Kernel π) (fd : Option Nat) : Kernel π :=
  match fd with
  | some fd => { k with table := put k.table fd none }
  | none => k

variable [DecidableEq π]

/-- `open` with `O_RDWR | O_CREAT`: none is -1. -/
def create (k : Kernel π) (file : π) : Option Nat × Kernel π :=
  if k.permits file then
    (some (lowest k.table),
      { k with files := Function.update k.files file (some ((k.files file).getD []))
               opened := k.opened ++ [⟨file, 0⟩]
               table := put k.table (lowest k.table) (some k.opened.length) })
  else (none, k)

def write (k : Kernel π) (fd : Nat) (bytes : List Byte) : Kernel π :=
  match k.get fd with
  | none => k
  | some d =>
    match k.opened[d]? with
    | none => k
    | some o =>
      { k with
        files := Function.update k.files o.file
          (some (overwrite ((k.files o.file).getD []) o.offset bytes))
        opened := k.opened.set d { o with offset := o.offset + bytes.length } }

end Kernel

/-! ### What they do -/

variable {table : List (Option Nat)} {fd : Nat} {d : Option Nat}

theorem lookup_put (fd' : Nat) :
    lookup (put table fd d) fd' = if fd' = fd then d else lookup table fd' := by
  unfold lookup put
  grind

theorem lookup_lowest : lookup table (lowest table) = none := by
  unfold lookup lowest
  rw [List.getD_eq_getElem?_getD]
  by_cases h : table.findIdx Option.isNone < table.length
  · rw [List.getElem?_eq_getElem h]
    exact Option.isNone_iff_eq_none.mp (List.findIdx_getElem (w := h))
  · rw [List.getElem?_eq_none (Nat.not_lt.mp h)]
    rfl

/-- A write at the end of what was written so far. -/
theorem overwrite_end (front back bytes : List Byte) :
    overwrite (front ++ back) front.length bytes = (front ++ bytes) ++ back.drop bytes.length := by
  unfold overwrite
  simp

namespace Kernel
variable {π : Type*} {k : Kernel π}

@[simp]
theorem dup2_opened (oldfd : Option Nat) (newfd : Nat) : (k.dup2 oldfd newfd).opened = k.opened := by
  unfold dup2
  split <;> rfl

@[simp]
theorem dup2_files (oldfd : Option Nat) (newfd : Nat) : (k.dup2 oldfd newfd).files = k.files := by
  unfold dup2
  split <;> rfl

@[simp]
theorem close_opened (fd : Option Nat) : (k.close fd).opened = k.opened := by
  cases fd <;> rfl

@[simp]
theorem close_files (fd : Option Nat) : (k.close fd).files = k.files := by
  cases fd <;> rfl

theorem get_dup2 {fd newfd d : Nat} (h : k.get fd = some d) (fd' : Nat) :
    (k.dup2 (some fd) newfd).get fd' = if fd' = newfd then some d else k.get fd' := by
  have hbind : (some fd).bind k.get = some d := h
  rw [dup2, hbind]
  exact lookup_put fd'

theorem get_close (fd fd' : Nat) : (k.close (some fd)).get fd' = if fd' = fd then none else k.get fd' :=
  lookup_put fd'

variable [DecidableEq π]

/-- The file is open at its start, with what it had in it, on the lowest free descriptor. -/
theorem create_eq {file : π} (h : k.permits file = true) :
    ∃ k', k.create file = (some (lowest k.table), k') ∧
    (∀ fd, k'.get fd = if fd = lowest k.table then some k.opened.length else k.get fd) ∧
    k'.opened[k.opened.length]? = some ⟨file, 0⟩ ∧ k'.files file = some ((k.files file).getD []) := by
  refine ⟨_, if_pos h, fun fd => lookup_put fd, ?_, Function.update_self ..⟩
  exact List.getElem?_concat_length ..

/-- A write after all that was written through the same description. -/
theorem write_eq {fd d : Nat} {file : π} {front back : List Byte} (bytes : List Byte)
    (hget : k.get fd = some d) (hopened : k.opened[d]? = some ⟨file, front.length⟩) (hfile : k.files file = some (front ++ back)) :
    (k.write fd bytes).get = k.get ∧
      (k.write fd bytes).opened[d]? = some ⟨file, (front ++ bytes).length⟩ ∧
      (k.write fd bytes).files file = some ((front ++ bytes) ++ back.drop bytes.length) := by
  simp only [write, hget, hopened, hfile, Option.getD_some, overwrite_end, Function.update_self,
    List.length_append, and_true]
  refine ⟨rfl, ?_⟩
  obtain ⟨hlt, -⟩ := List.getElem?_eq_some_iff.mp hopened
  rw [List.getElem?_set_self hlt]

@[simp]
theorem write_get (fd : Nat) (bytes : List Byte) : (k.write fd bytes).get = k.get := by
  unfold write
  split
  · rfl
  · split <;> rfl

/-- A write through another description, to another file. -/
theorem write_apart {fd d : Nat} {o : Description π} (bytes : List Byte) (hget : k.get fd ≠ some d)
    (hopened : k.opened[d]? = some o)
    (hfile : ∀ d' o', k.get fd = some d' → k.opened[d']? = some o' → o'.file ≠ o.file) :
    (k.write fd bytes).opened[d]? = some o ∧ (k.write fd bytes).files o.file = k.files o.file := by
  unfold write
  split
  · exact ⟨hopened, rfl⟩
  · next d' hd' =>
    split
    · exact ⟨hopened, rfl⟩
    · next o' ho' =>
      have hne : d' ≠ d := fun h => hget (h ▸ hd')
      exact ⟨by rw [List.getElem?_set_ne hne, hopened],
        Function.update_of_ne (Ne.symm (hfile d' o' hd' ho')) ..⟩

end Kernel

end Apue.Posix

import Apue.Logger.Errno
import Mathlib.Data.List.Forall2

/-! A record is a line.

Everything that reaches a record is a name of the logger's own, a number or a quoted string,
so a record is printable but for the newline that ends it: `record_isLine`. -/
namespace Apue.Logger
open Memory CLib Transition

variable {ρ : Type}

/-- A line of the log: it begins with the name, ends with its only newline and is printable
before that. -/
def IsLine (f : Symbol) (line : List Byte) : Prop :=
  ascii "[logger] " ++ ascii f.func <+: line ∧ ∃ front, line = front ++ [byteOfChar '\n'] ∧
    byteOfChar '\n' ∉ front ∧ ∀ b ∈ front, printable b = true

/-- The log is one line for each call, in their order. -/
def Lined (cs : List Call) (log : List Byte) : Prop :=
  ∃ lines, log = lines.flatten ∧ List.Forall₂ (fun c line => IsLine c.func line) cs lines

/-! ### Printable text -/

def Printable (s : List Byte) : Prop := ∀ b ∈ s, printable b = true

instance (s : List Byte) : Decidable (Printable s) :=
  inferInstanceAs (Decidable (∀ b ∈ s, printable b = true))

theorem Printable.append {s t : List Byte} (hs : Printable s) (ht : Printable t) :
    Printable (s ++ t) := by
  intro b hb
  exact (List.mem_append.mp hb).elim (hs b) (ht b)

theorem printable_newline {s : List Byte} (h : Printable s) : byteOfChar '\n' ∉ s :=
  fun hmem => absurd (h _ hmem) (by decide)

theorem printable_dot (b : Byte) : printable (dot b) = true := by
  unfold dot
  split
  case isTrue h => exact h
  case isFalse => decide

theorem printable_quoted (s : List Byte) : Printable (quoted s) := by
  intro b hb
  simp only [quoted, List.mem_cons, List.mem_append, List.mem_map, List.not_mem_nil, or_false] at hb
  rcases hb with rfl | ⟨c, -, rfl⟩ | rfl
  · decide
  · exact printable_dot c
  · decide

/-- Digits are printable and no quotes. -/
theorem digit_byte : ∀ d < 16, printable (byteOfChar (Nat.digitChar d)) = true ∧
    byteOfChar (Nat.digitChar d) ≠ byteOfChar '"' := by
  decide

theorem mem_digits {base n : Nat} (hbase : 1 < base) (hle : base ≤ 16) {b : Byte}
    (hb : b ∈ (Nat.toDigits base n).map byteOfChar) : printable b = true ∧ b ≠ byteOfChar '"' := by
  obtain ⟨ds, -, hmap, hds, -⟩ := toDigits_map hbase n
  rw [hmap, List.map_map] at hb
  obtain ⟨d, hd, rfl⟩ := List.mem_map.mp hb
  exact digit_byte d (Nat.lt_of_lt_of_le (hds d hd) hle)

theorem mem_decimalInt {v : BitVec 32} {b : Byte} (hb : b ∈ decimalInt v) :
    printable b = true ∧ b ≠ byteOfChar '"' := by
  unfold decimalInt at hb
  split at hb
  case isTrue =>
    rw [List.map_cons] at hb
    rcases List.mem_cons.mp hb with rfl | hb
    · decide
    · exact mem_digits (by decide) (by decide) hb
  case isFalse => exact mem_digits (by decide) (by decide) hb

theorem printable_decimalInt (v : BitVec 32) : Printable (decimalInt v) :=
  fun _ hb => (mem_decimalInt hb).1

theorem printable_octal (v : BitVec 32) : Printable (octal v) := by
  intro b hb
  simp only [octal, List.map_append] at hb
  rcases List.mem_append.mp hb with hb | hb
  · rw [List.map_replicate] at hb
    rw [List.eq_of_mem_replicate hb]
    decide
  · exact (mem_digits (by decide) (by decide) hb).1

theorem printable_pointer (v : Value) : Printable (pointer v) := by
  have hnil : Printable (ascii "(nil)") := by decide
  have hhex : Printable (ascii "0x") := by decide
  unfold pointer
  split
  · exact hnil
  · exact hhex.append fun b hb => (mem_digits (by decide) (by decide) hb).1

theorem printable_func (f : Symbol) : Printable (ascii f.func) := by
  cases f <;> simp [Printable, ascii, Symbol.func, printable, byteOfChar]

theorem Arg.printable_text (a : Arg) (p : Process ρ) : Printable (a.text p) := by
  have hstring : Printable ((stringAt p.mem a.value).elim [] quoted) := by
    cases stringAt p.mem a.value with
    | none => nofun
    | some s => exact printable_quoted s
  unfold Arg.text
  cases resolution a.type with
  | none => exact hstring
  | some o =>
    cases o with
    | string => exact hstring
    | filePtr =>
      simp only
      cases p.fileno a.value with
      | none => nofun
      | some fd => exact printable_quoted _
    | constVoidPtr => exact hstring
    | int =>
      simp only
      split
      · exact printable_quoted _
      · split
        · exact printable_octal _
        · exact printable_decimalInt _

theorem Symbol.printable_result (f : Symbol) (ret : Value) : Printable (f.result ret) := by
  unfold Symbol.result
  split
  · exact printable_pointer ret
  · exact printable_decimalInt _

theorem printable_fields {fields : List (List Byte)} (h : ∀ text ∈ fields, Printable text) :
    Printable (fields.intersperse (ascii ", ")).flatten := by
  have hcomma : Printable (ascii ", ") := by decide
  induction fields with
  | nil => nofun
  | cons x rest ih =>
    obtain ⟨hx, hrest⟩ := List.forall_mem_cons.mp h
    cases rest with
    | nil =>
      intro b hb
      exact hx b (by simpa using hb)
    | cons y rest =>
      rw [List.intersperse_cons_cons, List.flatten_cons, List.flatten_cons]
      exact hx.append (hcomma.append (ih hrest))

/-- **Whatever is in it, a record is a line.** -/
theorem record_isLine (libc : Libc (Process ρ)) (c : Call) (s : State (Process ρ)) :
    IsLine c.func (c.record libc s).text := by
  have hopen : Printable (ascii "[logger] ") := by decide
  have hparen : Printable (ascii "(") := by decide
  have hclose : Printable (ascii ") = ") := by decide
  have hfields : Printable (((c.record libc s).fields.intersperse (ascii ", ")).flatten) := by
    refine printable_fields fun text htext => ?_
    rcases List.mem_append.mp htext with htext | htext
    · obtain ⟨a, -, rfl⟩ := List.mem_map.mp htext
      exact a.printable_text _
    · obtain ⟨a, -, rfl⟩ := List.mem_map.mp htext
      exact a.printable_text _
  have hfront := ((((hopen.append (printable_func c.func)).append hparen).append hfields).append
    hclose).append (c.func.printable_result (c.called libc s).1)
  refine ⟨?_, _, rfl, printable_newline hfront, hfront⟩
  simp only [Record.text, List.append_assoc, List.prefix_append_right_inj]
  exact List.prefix_append ..

/-- A line, with its newline, in the memory of a program. -/
def typed : Process Unit :=
  { piped with mem := fun a => if a = 0x1000 then some 0x61 else if a = 0x1001 then some 0x0a
                       else if a = 0x1002 then some 0 else none }

end Apue.Logger

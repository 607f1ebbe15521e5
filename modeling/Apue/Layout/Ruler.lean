import Apue.Layout.Columns
import Mathlib.Data.List.DropRight
import Mathlib.Data.List.SplitBy
import Mathlib.Data.List.SplitLengths

/-! Reading a table of padded columns back.

The header is a ruler: a column begins where something follows a blank. What stands there in another
row is a cell, up to the blanks at its end (`readTable_rows`). -/
namespace Apue.Layout

variable {α : Type*} [DecidableEq α]

/-- Whether the column of `a` goes on at `b`. -/
def goesOn (blank a b : α) : Bool := decide (a ≠ blank ∨ b = blank)

/-- The widths of the columns under a header. -/
def ruler (blank : α) (header : List α) : List Nat :=
  (header.splitBy (goesOn blank)).map List.length

/-- A cell without the blanks at its end. -/
def strip (blank : α) (cell : List α) : List α := cell.rdropWhile fun a => decide (a = blank)

def readRow (blank : α) (widths : List Nat) (line : List α) : List (List α) :=
  (widths.splitLengths line).map (strip blank)

/-- The rows below a header. -/
def readTable (blank : α) : List (List α) → List (List (List α))
  | [] => []
  | header :: lines => lines.map (readRow blank (ruler blank header))

variable {blank : α} {widths : List Nat} {cells : List (List α)}

/-! ### Cells -/

theorem strip_pad (width : Nat) (cell : List α) :
    strip blank (pad blank width cell) = strip blank cell := by
  rw [pad]
  generalize width - cell.length = n
  induction n with
  | zero => rw [List.replicate_zero, List.append_nil]
  | succ n ih =>
    rw [List.replicate_succ', ← List.append_assoc]
    exact (List.rdropWhile_concat_pos _ _ blank (decide_eq_true rfl)).trans ih

/-- A cell is read as it is when it does not end in a blank. -/
theorem strip_eq_self {cell : List α} : strip blank cell = cell ↔ cell.getLast? ≠ some blank := by
  rw [strip, List.rdropWhile_eq_self_iff]
  by_cases hne : cell = []
  · simp [hne]
  · rw [List.getLast?_eq_some_getLast hne]
    simp [hne]

theorem readRow_row (hlen : cells.length = widths.length)
    (hfit : ∀ p ∈ widths.zip cells, p.2.length ≤ p.1) :
    readRow blank widths (row blank widths cells) = cells.map (strip blank) := by
  induction widths generalizing cells with
  | nil =>
    rw [List.eq_nil_of_length_eq_zero hlen]
    rfl
  | cons w ws ih =>
    cases cells with
    | nil => cases hlen
    | cons c cs =>
      obtain ⟨hc, hcs⟩ := List.forall_mem_cons.mp hfit
      have hrow : row blank (w :: ws) (c :: cs) = pad blank w c ++ row blank ws cs := rfl
      have hread := ih (Nat.succ.inj hlen) hcs
      rw [readRow] at hread
      rw [readRow, hrow, List.splitLengths_cons, List.take_left' (length_pad hc),
        List.drop_left' (length_pad hc), List.map_cons, hread, strip_pad, List.map_cons]

/-! ### The header -/

/-- A cell that a header can have. -/
structure Heading (blank : α) (cell : List α) : Prop where
  nonempty : cell ≠ []
  solid : ∀ a ∈ cell, a ≠ blank

theorem pad_chain {cell : List α} (h : ∀ a ∈ cell, a ≠ blank) (width : Nat) :
    (pad blank width cell).IsChain fun a b => goesOn blank a b := by
  rw [pad]
  generalize width - cell.length = n
  induction cell with
  | nil =>
    induction n with
    | zero => exact .nil
    | succ n ih =>
      refine List.isChain_cons.mpr ⟨fun b hb => decide_eq_true (.inr ?_), ih⟩
      exact List.eq_of_mem_replicate (List.mem_of_mem_head? hb)
  | cons a cell ih =>
    obtain ⟨ha, hcell⟩ := List.forall_mem_cons.mp h
    exact List.isChain_cons.mpr ⟨fun b _ => decide_eq_true (.inl ha), ih hcell⟩

omit [DecidableEq α] in
theorem pad_head {cell : List α} (h : Heading blank cell) (width : Nat) :
    ∃ hne : pad blank width cell ≠ [], (pad blank width cell).head hne ≠ blank := by
  refine ⟨List.append_ne_nil_of_left_ne_nil h.nonempty _, ?_⟩
  have hhead : (pad blank width cell).head (List.append_ne_nil_of_left_ne_nil h.nonempty _) =
      cell.head h.nonempty := List.head_append_of_ne_nil h.nonempty
  rw [hhead]
  exact h.solid _ (List.head_mem h.nonempty)

omit [DecidableEq α] in
theorem pad_last (blank : α) {cell : List α} {width : Nat} (h : cell.length < width) :
    ∃ hne : pad blank width cell ≠ [], (pad blank width cell).getLast hne = blank := by
  obtain ⟨n, hn⟩ : ∃ n, width - cell.length = n + 1 := ⟨width - cell.length - 1, by omega⟩
  have hpad : pad blank width cell = cell ++ List.replicate n blank ++ [blank] := by
    rw [pad, hn, List.replicate_succ', List.append_assoc]
  simp [hpad]

/-- The columns are apart. -/
theorem row_chain (hlen : cells.length = widths.length) (hcells : ∀ c ∈ cells, Heading blank c)
    (hfit : ∀ p ∈ widths.zip cells, p.2.length < p.1) :
    (List.zipWith (pad blank) widths cells).IsChain fun a b =>
      ∃ ha hb, goesOn blank (a.getLast ha) (b.head hb) = false := by
  induction widths generalizing cells with
  | nil => exact .nil
  | cons w ws ih =>
    cases cells with
    | nil => exact .nil
    | cons c cs =>
      obtain ⟨-, hcs⟩ := List.forall_mem_cons.mp hcells
      obtain ⟨hw, hws⟩ := List.forall_mem_cons.mp hfit
      refine List.isChain_cons.mpr ⟨fun b hb => ?_, ih (Nat.succ.inj hlen) hcs hws⟩
      cases ws with
      | nil => cases hb
      | cons w' ws =>
        cases cs with
        | nil => cases hb
        | cons c' cs =>
          cases hb
          obtain ⟨hne, hlast⟩ := pad_last blank hw
          obtain ⟨hne', hhead⟩ := pad_head (hcs c' List.mem_cons_self) w'
          refine ⟨hne, hne', decide_eq_false ?_⟩
          rw [hlast]
          exact not_or.mpr ⟨not_not.mpr rfl, hhead⟩

/-- **A header tells the widths.** -/
theorem ruler_row (hlen : cells.length = widths.length) (hcells : ∀ c ∈ cells, Heading blank c)
    (hfit : ∀ p ∈ widths.zip cells, p.2.length < p.1) : ruler blank (row blank widths cells) = widths := by
  have hmem : ∀ block ∈ List.zipWith (pad blank) widths cells, ∃ w, ∃ c ∈ cells, block = pad blank w c := by
    intro block hblock
    rw [← List.map_uncurry_zip_eq_zipWith] at hblock
    obtain ⟨⟨w, c⟩, hp, rfl⟩ := List.mem_map.mp hblock
    exact ⟨w, c, (List.of_mem_zip hp).2, rfl⟩
  have hblocks : (row blank widths cells).splitBy (goesOn blank) =
      List.zipWith (pad blank) widths cells := by
    refine List.splitBy_flatten (fun hnil => ?_) (fun block hblock => ?_) (row_chain hlen hcells hfit)
    · obtain ⟨w, c, hc, heq⟩ := hmem [] hnil
      exact (pad_head (hcells c hc) w).1 heq.symm
    · obtain ⟨w, c, hc, rfl⟩ := hmem block hblock
      exact pad_chain (hcells c hc).solid w
  rw [ruler, hblocks]
  exact map_length_pad hlen fun p hp => Nat.le_of_lt (hfit p hp)

/-- **A table is read back** under its header, up to the blanks at the ends of its cells. -/
theorem readTable_rows {header : List (List α)} {table : List (List (List α))}
    (hlen : ∀ cells ∈ header :: table, cells.length = widths.length)
    (hheader : ∀ c ∈ header, Heading blank c)
    (hfit : ∀ cells ∈ header :: table, ∀ p ∈ widths.zip cells, p.2.length < p.1) :
    readTable blank ((header :: table).map (row blank widths)) = table.map (List.map (strip blank)) := by
  obtain ⟨hlen₀, hlen⟩ := List.forall_mem_cons.mp hlen
  obtain ⟨hfit₀, hfit⟩ := List.forall_mem_cons.mp hfit
  rw [List.map_cons, readTable, ruler_row hlen₀ hheader hfit₀, List.map_map]
  refine List.map_congr_left fun cells hcells => ?_
  exact readRow_row (hlen cells hcells) fun p hp => Nat.le_of_lt (hfit cells hcells p hp)

end Apue.Layout

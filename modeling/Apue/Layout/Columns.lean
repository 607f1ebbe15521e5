import Mathlib.Algebra.BigOperators.Group.List.Lemmas
import Mathlib.Algebra.Ring.Int.Defs
import Mathlib.Algebra.Ring.Nat
import Mathlib.Logic.Function.Basic

/-! Tables of padded columns.

Each cell is padded to the width of its column, and widths are running maxima. A row is laid out
at the same offsets as any other row of the same widths, as long as its cells fit (`row_laid`). -/
namespace Apue.Layout

variable {α κ : Type*} {blank : α}

/-! ### Rows -/

/-- Padding on the right, to at least `width`. -/
def pad (blank : α) (width : Nat) (cell : List α) : List α :=
  cell ++ List.replicate (width - cell.length) blank

def row (blank : α) (widths : List Nat) (cells : List (List α)) : List α :=
  (List.zipWith (pad blank) widths cells).flatten

/-- Where column `k` begins. -/
def offset (widths : List Nat) (k : Nat) : Nat := (widths.take k).sum

/-- The cells stand in `line` at the offsets, each with at least `gap` blanks behind it. -/
structure Laid (blank : α) (gap : Nat) (at_ : Nat → Nat) (cells : List (List α)) (line : List α) :
    Prop where
  start : at_ 0 = 0
  stop : line.length = at_ cells.length
  cell : ∀ (k : Nat) (h : k < cells.length), ∃ n, gap ≤ n ∧
    (line.take (at_ (k + 1))).drop (at_ k) = cells[k] ++ List.replicate n blank

theorem length_pad {width : Nat} {cell : List α} (h : cell.length ≤ width) :
    (pad blank width cell).length = width := by
  rw [pad, List.length_append, List.length_replicate]
  omega

theorem map_length_pad {widths : List Nat} {cells : List (List α)} (hlen : cells.length = widths.length)
    (hfit : ∀ p ∈ widths.zip cells, p.2.length ≤ p.1) :
    (List.zipWith (pad blank) widths cells).map List.length = widths := by
  induction widths generalizing cells with
  | nil => rfl
  | cons w ws ih =>
    cases cells with
    | nil => cases hlen
    | cons c cs =>
      obtain ⟨hc, hcs⟩ := List.forall_mem_cons.mp hfit
      rw [List.zipWith_cons_cons, List.map_cons, length_pad hc, ih (Nat.succ.inj hlen) hcs]

/-- **A row of cells that fit is laid out** at the offsets of its widths. -/
theorem row_laid {gap : Nat} {widths : List Nat} {cells : List (List α)}
    (hlen : cells.length = widths.length) (hfit : ∀ p ∈ widths.zip cells, p.2.length + gap ≤ p.1) :
    Laid blank gap (offset widths) cells (row blank widths cells) := by
  have hlengths : (List.zipWith (pad blank) widths cells).map List.length = widths :=
    map_length_pad hlen fun p hp => Nat.le_of_add_right_le (hfit p hp)
  refine ⟨rfl, ?_, fun k hk => ?_⟩
  · rw [row, List.length_flatten, hlengths, hlen, offset, List.take_length]
  · have hw : k < widths.length := hlen ▸ hk
    have hblock : k < (List.zipWith (pad blank) widths cells).length := by
      rw [List.length_zipWith]
      omega
    have hmem : (widths[k], cells[k]) ∈ widths.zip cells := by
      have hzip : k < (widths.zip cells).length := by
        rw [List.length_zip]
        omega
      have hget := List.getElem_mem hzip
      rwa [List.getElem_zip] at hget
    have hfits := hfit _ hmem
    simp only at hfits
    refine ⟨widths[k] - cells[k].length, by omega, ?_⟩
    have hdrop := List.drop_take_succ_flatten_eq_getElem (List.zipWith (pad blank) widths cells) k hblock
    rw [hlengths, List.getElem_zipWith] at hdrop
    exact hdrop

/-- **Cells of one width are read back** as far as both rows have them. -/
theorem take_of_cells {β : Type*} {f : β → List α} {width : Nat} (hwidth : ∀ b, (f b).length = width)
    (hinj : Function.Injective f) {xs ys : List β} {r r' : List α}
    (h : xs.flatMap f ++ r = ys.flatMap f ++ r') :
    xs.take (min xs.length ys.length) = ys.take (min xs.length ys.length) := by
  induction xs generalizing ys with
  | nil => simp
  | cons x xs ih =>
    cases ys with
    | nil => rfl
    | cons y ys =>
      rw [List.flatMap_cons, List.flatMap_cons, List.append_assoc, List.append_assoc] at h
      obtain ⟨hcell, hrest⟩ := List.append_inj h ((hwidth x).trans (hwidth y).symm)
      rw [List.length_cons, List.length_cons, Nat.add_min_add_right, List.take_succ_cons,
        List.take_succ_cons, hinj hcell, ih hrest]

/-! ### Widths -/

variable [DecidableEq κ]

/-- A width grows to what a cell needs. -/
def widen (width : κ → Int) (p : κ × Int) : κ → Int :=
  Function.update width p.1 (max (width p.1) p.2)

theorem le_widen (width : κ → Int) (p : κ × Int) (c : κ) : width c ≤ widen width p c := by
  unfold widen
  by_cases hc : c = p.1
  · rw [hc, Function.update_self]
    exact Int.le_max_left _ _
  · exact Int.le_of_eq (Function.update_of_ne hc _ _).symm

theorem le_widen_self (width : κ → Int) (p : κ × Int) : p.2 ≤ widen width p p.1 := by
  rw [widen, Function.update_self]
  exact Int.le_max_right _ _

theorem le_foldl_widen (width : κ → Int) (ps : List (κ × Int)) (c : κ) :
    width c ≤ ps.foldl widen width c := by
  induction ps generalizing width with
  | nil => exact Int.le_refl _
  | cons p ps ih => exact Int.le_trans (le_widen width p c) (ih _)

/-- Every cell that was looked at fits. -/
theorem le_foldl_widen_mem (width : κ → Int) {ps : List (κ × Int)} {p : κ × Int} (h : p ∈ ps) :
    p.2 ≤ ps.foldl widen width p.1 := by
  induction ps generalizing width with
  | nil => cases h
  | cons q ps ih =>
    rcases List.mem_cons.mp h with rfl | h
    · exact Int.le_trans (le_widen_self width p) (le_foldl_widen _ ps p.1)
    · exact ih _ h

theorem foldl_widen_of_notMem (width : κ → Int) {ps : List (κ × Int)} {c : κ} (h : ∀ p ∈ ps, p.1 ≠ c) :
    ps.foldl widen width c = width c := by
  induction ps generalizing width with
  | nil => rfl
  | cons p ps ih =>
    obtain ⟨hp, hps⟩ := List.forall_mem_cons.mp h
    rw [List.foldl_cons, ih _ hps, widen, Function.update_of_ne hp.symm]

/-- **A row widens each column to its cell.** -/
theorem map_foldl_widen {keys : List κ} (h : keys.Nodup) {sizes : List Int}
    (hlen : sizes.length = keys.length) (width : κ → Int) :
    keys.map ((keys.zip sizes).foldl widen width) = List.zipWith max (keys.map width) sizes := by
  induction keys generalizing sizes width with
  | nil => rfl
  | cons k ks ih =>
    cases sizes with
    | nil => cases hlen
    | cons n ns =>
      obtain ⟨hk, hks⟩ := List.nodup_cons.mp h
      have hother : ∀ p ∈ ks.zip ns, p.1 ≠ k := fun p hp hpk => hk (hpk ▸ (List.of_mem_zip hp).1)
      have hwidths : ks.map (widen width (k, n)) = ks.map width :=
        List.map_congr_left fun c hc => Function.update_of_ne (fun hck : c = k => hk (hck ▸ hc)) _ _
      rw [List.map_cons, List.zip_cons_cons, List.foldl_cons, foldl_widen_of_notMem _ hother,
        ih hks (Nat.succ.inj hlen), hwidths, widen, Function.update_self]
      rfl

/-! ### Widest cells -/

/-- The widths that a row needs, where there are others already. -/
def fitRow (widths : List Nat) (cells : List (List α)) : List Nat :=
  List.zipWith (fun width cell => max width cell.length) widths cells

/-- The order of the rows does not matter. -/
theorem foldl_fitRow_perm {table table' : List (List (List α))} (h : table.Perm table')
    (widths : List Nat) : table.foldl fitRow widths = table'.foldl fitRow widths := by
  have hswap : ∀ (widths : List Nat) (cells cells' : List (List α)),
      fitRow (fitRow widths cells) cells' = fitRow (fitRow widths cells') cells := by
    intro widths
    induction widths with
    | nil => intros; rfl
    | cons w ws ih =>
      intro cells cells'
      cases cells with
      | nil => cases cells' <;> rfl
      | cons c cs =>
        cases cells' with
        | nil => rfl
        | cons c' cs' => exact congrArg₂ List.cons (Nat.max_right_comm w c.length c'.length) (ih cs cs')
  exact h.foldl_eq' (fun cells _ cells' _ widths => hswap widths cells cells') widths

/-- Each cell fits the width of its column. -/
def FitsRow (widths : List Nat) (cells : List (List α)) : Prop :=
  List.Forall₂ (fun width cell => cell.length ≤ width) widths cells

theorem fitsRow_self {widths : List Nat} {cells : List (List α)} (h : cells.length = widths.length) :
    FitsRow (fitRow widths cells) cells := by
  induction widths generalizing cells with
  | nil =>
    rw [List.eq_nil_of_length_eq_zero h]
    exact .nil
  | cons w ws ih =>
    cases cells with
    | nil => cases h
    | cons c cs => exact .cons (Nat.le_max_right w c.length) (ih (Nat.succ.inj h))

theorem FitsRow.fitRow {widths : List Nat} {cells cells' : List (List α)} (h : FitsRow widths cells)
    (hlen : cells'.length = widths.length) : FitsRow (fitRow widths cells') cells := by
  induction h generalizing cells' with
  | nil => exact .nil
  | @cons w c ws cs hc _ ih =>
    cases cells' with
    | nil => cases hlen
    | cons c' cs' => exact .cons (Nat.le_trans hc (Nat.le_max_left w c'.length)) (ih (Nat.succ.inj hlen))

theorem length_fitRow {widths : List Nat} {cells : List (List α)} (h : cells.length = widths.length) :
    (fitRow widths cells).length = widths.length := by
  rw [fitRow, List.length_zipWith, h, Nat.min_self]

/-- **Every row fits the widths of the widest cells**, and what fitted before still does. -/
theorem foldl_fitRow_fits {table : List (List (List α))} {widths : List Nat}
    (hlen : ∀ cells ∈ table, cells.length = widths.length) :
    (∀ cells ∈ table, FitsRow (table.foldl fitRow widths) cells) ∧
      ∀ cells : List (List α), FitsRow widths cells → FitsRow (table.foldl fitRow widths) cells := by
  induction table generalizing widths with
  | nil => exact ⟨fun cells hcells => absurd hcells List.not_mem_nil, fun cells h => h⟩
  | cons row table ih =>
    obtain ⟨hrow, htable⟩ := List.forall_mem_cons.mp hlen
    obtain ⟨hrows, hkept⟩ := ih fun cells hcells => (htable cells hcells).trans (length_fitRow hrow).symm
    exact ⟨List.forall_mem_cons.mpr ⟨hkept row (fitsRow_self hrow), hrows⟩,
      fun cells h => hkept cells (h.fitRow hrow)⟩

end Apue.Layout

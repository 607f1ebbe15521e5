import Mathlib.Data.List.Basic

/-! What delimiters tell.

A stretch without some kind of item is known from what it is a part of when an item of that
kind follows it (`span_inj`). So are the parts before the first and after the last copy of an
item, the lines of a text (`lines_inj`), and the fields of a list in which each is led in by a
separator (`led_inj`). -/
namespace Apue.Layout

variable {α : Type*} {p : α → Prop} {a : α} {x x' y y' : List α}

/-- Where a stretch of one kind ends. -/
theorem span_inj (hx : ∀ b ∈ x, p b) (hx' : ∀ b ∈ x', p b) (hy : ∀ b ∈ y.head?, ¬ p b)
    (hy' : ∀ b ∈ y'.head?, ¬ p b) (h : x ++ y = x' ++ y') : x = x' ∧ y = y' := by
  induction x generalizing x' with
  | nil =>
    cases x' with
    | nil => exact ⟨rfl, h⟩
    | cons b x' =>
      subst h
      exact absurd (hx' b List.mem_cons_self) (hy b rfl)
  | cons b x ih =>
    cases x' with
    | nil =>
      have h' : y' = b :: (x ++ y) := h.symm
      subst h'
      exact absurd (hx b List.mem_cons_self) (hy' b rfl)
    | cons b' x' =>
      obtain ⟨rfl, htail⟩ := List.cons.inj h
      obtain ⟨rfl, hrest⟩ := ih (List.forall_mem_cons.mp hx).2 (List.forall_mem_cons.mp hx').2 htail
      exact ⟨rfl, hrest⟩

/-- The first copy of an item. -/
theorem first_inj (hx : a ∉ x) (hx' : a ∉ x') (h : x ++ a :: y = x' ++ a :: y') : x = x' ∧ y = y' := by
  have hne : ∀ {z : List α}, a ∉ z → ∀ b ∈ z, b ≠ a := fun hz b hb hba => hz (hba ▸ hb)
  have hstop : ∀ z : List α, ∀ b ∈ (a :: z).head?, ¬ b ≠ a := by
    intro z b hb
    rw [Option.some.inj hb]
    exact fun hn => hn rfl
  obtain ⟨rfl, hy⟩ := span_inj (hne hx) (hne hx') (hstop y) (hstop y') h
  exact ⟨rfl, (List.cons.inj hy).2⟩

/-- The last copy of an item. -/
theorem last_inj (hy : a ∉ y) (hy' : a ∉ y') (h : x ++ a :: y = x' ++ a :: y') : x = x' ∧ y = y' := by
  have hrev : y.reverse ++ a :: x.reverse = y'.reverse ++ a :: x'.reverse := by
    have hr := congrArg List.reverse h
    simpa using hr
  obtain ⟨hyy, hxx⟩ := first_inj (by simpa using hy) (by simpa using hy') hrev
  exact ⟨List.reverse_injective hxx, List.reverse_injective hyy⟩

/-- A text is its lines. -/
theorem lines_inj {ls ls' : List (List α)} (h : ∀ l ∈ ls, ∃ front, l = front ++ [a] ∧ a ∉ front)
    (h' : ∀ l ∈ ls', ∃ front, l = front ++ [a] ∧ a ∉ front) (hflat : ls.flatten = ls'.flatten) :
    ls = ls' := by
  induction ls generalizing ls' with
  | nil =>
    cases ls' with
    | nil => rfl
    | cons l' ls' =>
      obtain ⟨front, rfl, -⟩ := h' l' List.mem_cons_self
      simp at hflat
  | cons l ls ih =>
    obtain ⟨front, rfl, hfront⟩ := h l List.mem_cons_self
    cases ls' with
    | nil => simp at hflat
    | cons l' ls' =>
      obtain ⟨front', rfl, hfront'⟩ := h' l' List.mem_cons_self
      simp only [List.flatten_cons, List.append_assoc, List.singleton_append] at hflat
      obtain ⟨rfl, hrest⟩ := first_inj hfront hfront' hflat
      rw [ih (List.forall_mem_cons.mp h).2 (List.forall_mem_cons.mp h').2 hrest]

/-! ### Fields -/

/-- Each field with the separator before it. -/
def led (sep : List α) (fields : List (List α)) : List α := fields.flatMap (sep ++ ·)

/-- The separators between fields are before all but the first. -/
theorem flatten_intersperse (sep x : List α) (fields : List (List α)) :
    ((x :: fields).intersperse sep).flatten = x ++ led sep fields := by
  induction fields generalizing x with
  | nil => simp [led]
  | cons y fields ih => simp [List.intersperse_cons_cons, ih, led]

/-- As many fields are known from what they lead to, when none has the item that a separator
begins with, nor the one after the last. -/
theorem led_inj {sep : List α} {fields fields' : List (List α)} {z z' : List α}
    (hlen : fields.length = fields'.length) (hsep : ∀ b ∈ sep.head?, ¬ p b) (hne : sep ≠ [])
    (hf : ∀ f ∈ fields, ∀ b ∈ f, p b) (hf' : ∀ f ∈ fields', ∀ b ∈ f, p b)
    (hz : ∀ b ∈ z.head?, ¬ p b) (hz' : ∀ b ∈ z'.head?, ¬ p b)
    (h : led sep fields ++ z = led sep fields' ++ z') : fields = fields' ∧ z = z' := by
  have hstop : ∀ (fs : List (List α)) {z : List α}, (∀ b ∈ z.head?, ¬ p b) →
      ∀ b ∈ (led sep fs ++ z).head?, ¬ p b := by
    intro fs z hz
    cases fs with
    | nil => exact hz
    | cons f fs =>
      obtain ⟨b, sep, rfl⟩ := List.exists_cons_of_ne_nil hne
      exact hsep
  induction fields generalizing fields' with
  | nil =>
    obtain rfl := List.eq_nil_of_length_eq_zero hlen.symm
    exact ⟨rfl, h⟩
  | cons f fields ih =>
    cases fields' with
    | nil => cases hlen
    | cons f' fields' =>
      obtain ⟨hf, hfs⟩ := List.forall_mem_cons.mp hf
      obtain ⟨hf', hfs'⟩ := List.forall_mem_cons.mp hf'
      simp only [led, List.flatMap_cons, List.append_assoc, List.append_cancel_left_eq] at h
      obtain ⟨rfl, hrest⟩ := span_inj hf hf' (hstop fields hz) (hstop fields' hz') h
      obtain ⟨rfl, hzz⟩ := ih (Nat.succ.inj hlen) hfs hfs' hrest
      exact ⟨rfl, hzz⟩

end Apue.Layout

import Mathlib.Data.List.Basic

/-! Sweeping over items that know their own length.

A decoder reads one item at the head of a list, from the part of the list that the item
takes. A sweep reads item after item and ends where nothing can be read. By
`sweep_take` two lists with the same parts at their heads have the same items there, and
by `decode_unique` an item read from either of two lists that agree as far as both read
is the same one. -/
namespace Apue.Sweep

/-- What is read at a place depends on the place and the part of the list it takes. -/
structure Decoder (P β α : Type*) where
  decode : P → List β → Option (α × Nat)
  next : P → Nat → P
  pos : ∀ {p l a n}, decode p l = some (a, n) → 0 < n
  fits : ∀ {p l a n}, decode p l = some (a, n) → n ≤ l.length
  part : ∀ {p l a n}, decode p l = some (a, n) → ∀ {l'}, l'.take n = l.take n → decode p l' = some (a, n)

/-- An item, where it is and the part it takes. -/
structure Item (P β α : Type*) where
  start : P
  part : List β
  val : α
  deriving DecidableEq

variable {P β α : Type*} (d : Decoder P β α)

/-- Up to `n` items. -/
def sweepAux : Nat → P → List β → List (Item P β α)
  | 0, _, _ => []
  | n + 1, p, l =>
    match d.decode p l with
    | some (a, k) => ⟨p, l.take k, a⟩ :: sweepAux n (d.next p k) (l.drop k)
    | none => []

/-- The items at the head of `l`, as many as there are. -/
def sweep (p : P) (l : List β) : List (Item P β α) := sweepAux d l.length p l

/-- The list is items to its end. -/
def Whole (p : P) (l : List β) : Prop := (sweep d p l).flatMap Item.part = l

/-- Where the items end. -/
def stop (p : P) (items : List (Item P β α)) : P := items.foldl (fun p it => d.next p it.part.length) p

/-- The items are at the head of `v`, and another one follows them there. -/
structure Followed (p : P) (items : List (Item P β α)) (v : List β) : Prop where
  shown : items.flatMap Item.part <+: v
  more : d.decode (stop d p items) (v.drop (items.flatMap Item.part).length) ≠ none

instance [DecidableEq β] (p : P) (items : List (Item P β α)) (v : List β) :
    Decidable (Followed d p items v) :=
  decidable_of_iff
    (items.flatMap Item.part <+: v ∧
      (d.decode (stop d p items) (v.drop (items.flatMap Item.part).length)).isSome)
    ⟨fun h => ⟨h.1, Option.isSome_iff_ne_none.mp h.2⟩,
      fun h => ⟨h.shown, Option.isSome_iff_ne_none.mpr h.more⟩⟩

instance [DecidableEq β] (p : P) (l : List β) : Decidable (Whole d p l) :=
  inferInstanceAs (Decidable (_ = l))

variable {d} {p : P} {l l' v : List β} {a a' : α} {n n' : Nat} {it : Item P β α}
  {items rest : List (Item P β α)}

theorem sweepAux_length (h : l.length ≤ n) : sweepAux d n p l = sweep d p l := by
  have hmore : ∀ n m p (l : List β), l.length ≤ n → l.length ≤ m → sweepAux d n p l = sweepAux d m p l := by
    intro n
    induction n with
    | zero =>
      intro m p l hn hm
      cases m with
      | zero => rfl
      | succ m =>
        cases hdec : d.decode p l with
        | none => simp [sweepAux, hdec]
        | some r =>
          have hpos := d.pos hdec
          have hfits := d.fits hdec
          omega
    | succ n ih =>
      intro m p l hn hm
      cases hdec : d.decode p l with
      | none => cases m <;> simp [sweepAux, hdec]
      | some r =>
        have hpos := d.pos hdec
        have hfits := d.fits hdec
        obtain ⟨m, rfl⟩ : ∃ m', m = m' + 1 := ⟨m - 1, by omega⟩
        have hlen : (l.drop r.2).length ≤ n ∧ (l.drop r.2).length ≤ m := by
          rw [List.length_drop]
          omega
        simp only [sweepAux, hdec, ih m _ _ hlen.1 hlen.2]
  exact hmore n l.length p l h (Nat.le_refl _)

theorem sweep_some (h : d.decode p l = some (a, n)) :
    sweep d p l = ⟨p, l.take n, a⟩ :: sweep d (d.next p n) (l.drop n) := by
  have hpos := d.pos h
  have hfits := d.fits h
  have hlen : (l.drop n).length ≤ l.length - 1 := by
    rw [List.length_drop]
    omega
  obtain ⟨m, hm⟩ : ∃ m, l.length = m + 1 := ⟨l.length - 1, by omega⟩
  rw [hm, Nat.add_sub_cancel] at hlen
  rw [sweep, hm]
  simp only [sweepAux, h, sweepAux_length hlen]

theorem sweep_none (h : d.decode p l = none) : sweep d p l = [] := by
  rw [sweep]
  cases l.length <;> simp [sweepAux, h]

theorem sweep_eq_cons (h : sweep d p l = it :: rest) :
    ∃ n, d.decode p l = some (it.val, n) ∧ it.start = p ∧ it.part = l.take n ∧
      it.part.length = n ∧ rest = sweep d (d.next p n) (l.drop n) := by
  cases hdec : d.decode p l with
  | none =>
    rw [sweep_none hdec] at h
    cases h
  | some r =>
    have hlen : (l.take r.2).length = r.2 := List.length_take_of_le (d.fits hdec)
    rw [sweep_some hdec] at h
    cases h
    exact ⟨r.2, rfl, rfl, rfl, hlen, rfl⟩

/-- The first item of a sweep, and the sweep after it. -/
theorem sweep_of_pos (h : 0 < (sweep d p l).length) :
    ∃ it n, sweep d p l = it :: sweep d (d.next p n) (l.drop n) ∧
      d.decode p l = some (it.val, n) ∧ it.start = p ∧ it.part = l.take n ∧ it.part.length = n := by
  obtain ⟨it, rest, hs⟩ := List.exists_cons_of_length_pos h
  obtain ⟨n, hdec, hstart, hpart, hlen, rfl⟩ := sweep_eq_cons hs
  exact ⟨it, n, hs, hdec, hstart, hpart, hlen⟩

theorem take_of_prefix {x y v : List β} (h : x ++ y <+: v) : v.take x.length = x ∧ y <+: v.drop x.length := by
  obtain ⟨tail, rfl⟩ := h
  rw [List.append_assoc, List.take_left, List.drop_left]
  exact ⟨rfl, tail, rfl⟩

/-- **Where the parts of the first `k` items of `l` are at the head of `v`, these are the
first `k` items of `v`.** -/
theorem sweep_take {k : Nat} (hk : k ≤ (sweep d p l).length)
    (h : ((sweep d p l).take k).flatMap Item.part <+: v) :
    (sweep d p v).take k = (sweep d p l).take k := by
  induction k generalizing p l v with
  | zero => rfl
  | succ k ih =>
    obtain ⟨it, n, hs, hdec, hstart, hpart, hlen⟩ := sweep_of_pos (Nat.zero_lt_of_lt hk)
    rw [hs, List.take_succ_cons, List.flatMap_cons] at h
    obtain ⟨htake, hrest⟩ := take_of_prefix h
    rw [hlen] at htake hrest
    have hdec' : d.decode p v = some (it.val, n) := d.part hdec (htake.trans hpart)
    rw [hs, List.length_cons] at hk
    have hit : (⟨p, v.take n, it.val⟩ : Item P β α) = it := by
      rw [htake, ← hstart]
    rw [hs, sweep_some hdec', List.take_succ_cons, List.take_succ_cons, hit, ih (by omega) hrest]

theorem stop_cons (hlen : it.part.length = n) :
    stop d p (it :: items) = stop d (d.next p n) items := by
  rw [← hlen]
  rfl

theorem stop_append : stop d p (items ++ rest) = stop d (stop d p items) rest := List.foldl_append

/-- What follows the first `k` items. -/
theorem sweep_drop {k : Nat} (hk : k ≤ (sweep d p l).length) :
    (sweep d p l).drop k = sweep d (stop d p ((sweep d p l).take k))
      (l.drop (((sweep d p l).take k).flatMap Item.part).length) := by
  induction k generalizing p l with
  | zero => rfl
  | succ k ih =>
    obtain ⟨it, n, hs, -, -, -, hlen⟩ := sweep_of_pos (Nat.zero_lt_of_lt hk)
    rw [hs, List.length_cons] at hk
    rw [hs, List.drop_succ_cons, List.take_succ_cons, ih (by omega), List.flatMap_cons,
      List.length_append, hlen, stop_cons hlen, ← List.drop_drop]

/-! ### What follows -/

theorem followed_nil : Followed d p [] v ↔ d.decode p v ≠ none :=
  ⟨fun h => h.more, fun h => ⟨List.nil_prefix, h⟩⟩

theorem followed_cons (hpart : it.part = v.take n) (hlen : it.part.length = n) :
    Followed d p (it :: items) v ↔ Followed d (d.next p n) items (v.drop n) := by
  have hparts : (it :: items).flatMap Item.part <+: v ↔ items.flatMap Item.part <+: v.drop n := by
    conv_lhs => rw [← List.take_append_drop n v]
    rw [List.flatMap_cons, hpart, List.prefix_append_right_inj]
  have hdrop : v.drop ((it :: items).flatMap Item.part).length =
      (v.drop n).drop (items.flatMap Item.part).length := by
    rw [List.flatMap_cons, List.length_append, hlen, List.drop_drop]
  constructor
  · intro h
    refine ⟨hparts.mp h.shown, ?_⟩
    rw [← stop_cons hlen, ← hdrop]
    exact h.more
  · intro h
    refine ⟨hparts.mpr h.shown, ?_⟩
    rw [stop_cons hlen, hdrop]
    exact h.more

/-- **Items of `l` that are followed in `v` are the first ones of `v`, and not all of them.** -/
theorem sweep_followed {k : Nat} (hk : k ≤ (sweep d p l).length)
    (h : Followed d p ((sweep d p l).take k) v) :
    (sweep d p v).take k = (sweep d p l).take k ∧ k < (sweep d p v).length := by
  have htake := sweep_take hk h.shown
  have hle : k ≤ (sweep d p v).length := by
    have hlen := congrArg List.length htake
    rw [List.length_take, List.length_take] at hlen
    omega
  refine ⟨htake, ?_⟩
  by_contra hge
  have hdrop := sweep_drop hle
  rw [List.drop_eq_nil_of_le (by omega), htake] at hdrop
  obtain ⟨⟨a, n⟩, hdec⟩ := Option.ne_none_iff_exists'.mp h.more
  rw [sweep_some hdec] at hdrop
  cases hdrop

/-! ### One item -/

/-- **An item begins where those before it end, and its part is in the list.** -/
theorem start_of_sweep (h : sweep d p l = items ++ it :: rest) :
    it.start = stop d p items ∧ (items.flatMap Item.part).length < l.length ∧
      sweep d it.start (l.drop (items.flatMap Item.part).length) = it :: rest := by
  have hk : items.length ≤ (sweep d p l).length := by
    rw [h, List.length_append]
    omega
  have hdrop := sweep_drop hk
  rw [h, List.drop_left, List.take_left] at hdrop
  obtain ⟨n, hdec, hstart, -⟩ := sweep_eq_cons hdrop.symm
  have hfits := d.fits hdec
  have hpos := d.pos hdec
  rw [List.length_drop] at hfits
  rw [hstart]
  exact ⟨rfl, by omega, hdrop.symm⟩

/-- **Two lists that agree as far as both reads go have the same item at their heads.** -/
theorem decode_unique (h : d.decode p l = some (a, n)) (h' : d.decode p l' = some (a', n'))
    (hagree : l.take (min n n') = l'.take (min n n')) : a = a' ∧ n = n' := by
  rcases Nat.le_total n n' with hle | hle
  · rw [Nat.min_eq_left hle] at hagree
    have hsame := (d.part h hagree.symm).symm.trans h'
    exact Prod.mk.inj (Option.some.inj hsame)
  · rw [Nat.min_eq_right hle] at hagree
    have hsame := h.symm.trans (d.part h' hagree)
    exact Prod.mk.inj (Option.some.inj hsame)

end Apue.Sweep

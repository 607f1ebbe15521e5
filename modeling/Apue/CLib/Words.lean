import Apue.CLib.Strto

/-! Reading a stream by words, with `>>`, and by lines, with `getline`. -/
namespace Apue.CLib

/-- Reading with `>>`: words between blanks. -/
def tokensAux : List Char → List Char → List (List Char)
  | [], [] => []
  | [], cur => [cur.reverse]
  | c :: cs, cur =>
    if isspace c then (if cur = [] then tokensAux cs [] else cur.reverse :: tokensAux cs [])
    else tokensAux cs (c :: cur)

def words (cs : List Char) : List (List Char) := tokensAux cs []

/-- Reading with `getline`: the last line needs no newline. -/
def linesAux : List Char → List Char → List (List Char)
  | [], [] => []
  | [], cur => [cur.reverse]
  | c :: cs, cur => if c = '\n' then cur.reverse :: linesAux cs [] else linesAux cs (c :: cur)

def lines (cs : List Char) : List (List Char) := linesAux cs []

/-- `to_string` of an unsigned number. -/
def decimal (n : Nat) : List Char := Nat.toDigits 10 n

structure IsWord (w : List Char) : Prop where
  nonempty : w ≠ []
  solid : ∀ c ∈ w, isspace c = false

instance (w : List Char) : Decidable (∀ c ∈ w, isspace c = false) :=
  decidable_of_iff (w.all fun c => !isspace c) (by simp)

instance (w : List Char) : Decidable (IsWord w) :=
  decidable_of_iff (w ≠ [] ∧ ∀ c ∈ w, isspace c = false)
    ⟨fun ⟨hne, hsolid⟩ => ⟨hne, hsolid⟩, fun h => ⟨h.nonempty, h.solid⟩⟩

/-! ### Words -/

theorem tokensAux_solid {w : List Char} (h : ∀ c ∈ w, isspace c = false) (cs cur : List Char) :
    tokensAux (w ++ cs) cur = tokensAux cs (w.reverse ++ cur) := by
  induction w generalizing cur with
  | nil => rfl
  | cons c w ih =>
    obtain ⟨hc, hw⟩ := List.forall_mem_cons.mp h
    rw [List.cons_append, tokensAux, hc, if_neg (by decide), ih hw, List.reverse_cons,
      List.append_assoc]
    rfl

theorem words_blank {c : Char} (hc : isspace c = true) (cs : List Char) :
    words (c :: cs) = words cs := by
  rw [words, tokensAux, if_pos hc, if_pos rfl]
  rfl

theorem words_blanks (n : Nat) (cs : List Char) : words (List.replicate n ' ' ++ cs) = words cs := by
  induction n with
  | zero => rfl
  | succ n ih => exact (words_blank rfl _).trans ih

/-- A word that a blank ends is read. -/
theorem words_cons {w : List Char} (h : IsWord w) {c : Char} (hc : isspace c = true) (cs : List Char) :
    words (w ++ c :: cs) = w :: words cs := by
  have hrev : w.reverse ≠ [] := mt List.reverse_eq_nil_iff.mp h.nonempty
  rw [words, tokensAux_solid h.solid, List.append_nil, tokensAux, if_pos hc, if_neg hrev,
    List.reverse_reverse]
  rfl

theorem words_self {w : List Char} (h : IsWord w) : words w = [w] := by
  have htokens := tokensAux_solid h.solid [] []
  rw [List.append_nil, List.append_nil] at htokens
  rw [words, htokens]
  cases hrev : w.reverse with
  | nil => exact absurd (List.reverse_eq_nil_iff.mp hrev) h.nonempty
  | cons c cs => rw [tokensAux, ← hrev, List.reverse_reverse]; exact List.cons_ne_nil c cs

theorem isWord_reverse {cur : List Char} (hcur : ∀ c ∈ cur, isspace c = false) (hne : cur ≠ []) :
    IsWord cur.reverse :=
  ⟨mt List.reverse_eq_nil_iff.mp hne, fun c hc => hcur c (List.mem_reverse.mp hc)⟩

/-- What is read is a word, and stands where it was read. -/
theorem mem_tokensAux {cs cur w : List Char} (hw : w ∈ tokensAux cs cur)
    (hcur : ∀ c ∈ cur, isspace c = false) : IsWord w ∧ w <:+: cur.reverse ++ cs := by
  induction cs generalizing cur with
  | nil =>
    cases cur with
    | nil => cases hw
    | cons c cur =>
      rw [List.mem_singleton.mp hw]
      exact ⟨isWord_reverse hcur (List.cons_ne_nil c cur), (List.prefix_append _ _).isInfix⟩
  | cons c cs ih =>
    have hafter : w ∈ tokensAux cs [] → IsWord w ∧ w <:+: cur.reverse ++ c :: cs := by
      intro hw
      obtain ⟨hword, hinfix⟩ := ih hw nofun
      have hrest : cs <:+: cur.reverse ++ c :: cs := ⟨cur.reverse ++ [c], [], by simp⟩
      exact ⟨hword, hinfix.trans hrest⟩
    rw [tokensAux] at hw
    split at hw
    · split at hw
      · exact hafter hw
      · next hne =>
        rcases List.mem_cons.mp hw with rfl | hw
        · exact ⟨isWord_reverse hcur hne, (List.prefix_append _ _).isInfix⟩
        · exact hafter hw
    · next hc =>
      have hcur' : ∀ d ∈ c :: cur, isspace d = false :=
        List.forall_mem_cons.mpr ⟨Bool.not_eq_true _ ▸ hc, hcur⟩
      have hword := ih hw hcur'
      rwa [List.reverse_cons, List.append_assoc] at hword

theorem isWord_of_mem {cs w : List Char} (hw : w ∈ words cs) : IsWord w := (mem_tokensAux hw nofun).1

theorem infix_of_mem_words {cs w : List Char} (hw : w ∈ words cs) : w <:+: cs :=
  (mem_tokensAux hw nofun).2

/-- The first word is the whole text exactly where there is no blank. -/
theorem headD_words_iff {cs : List Char} :
    (words cs).headD [] = cs ↔ ∀ c ∈ cs, isspace c = false := by
  constructor
  · intro h
    rw [← h]
    cases hw : words cs with
    | nil => exact nofun
    | cons w ws => exact (isWord_of_mem (hw ▸ List.mem_cons_self)).solid
  · intro h
    by_cases hne : cs = []
    · rw [hne]
      rfl
    · rw [words_self ⟨hne, h⟩]
      rfl

/-! ### Cutting -/

/-- The text up to the first `c`, and after it. -/
def cut (c : Char) (cs : List Char) : List Char × List Char :=
  (cs.takeWhile (· ≠ c), (cs.dropWhile (· ≠ c)).drop 1)

theorem cut_append {c : Char} {cs : List Char} (h : c ∉ cs) (rest : List Char) :
    cut c (cs ++ c :: rest) = (cs, rest) := by
  have hall : ∀ x ∈ cs, decide (x ≠ c) = true := by
    intro x hx
    exact decide_eq_true fun hxc => h (hxc ▸ hx)
  rw [cut, List.takeWhile_append_of_pos hall, List.dropWhile_append_of_pos hall]
  simp

/-! ### Lines -/

theorem linesAux_append {l : List Char} (h : '\n' ∉ l) (cs cur : List Char) :
    linesAux (l ++ cs) cur = linesAux cs (l.reverse ++ cur) := by
  induction l generalizing cur with
  | nil => rfl
  | cons c l ih =>
    obtain ⟨hc, hl⟩ := not_or.mp (mt List.mem_cons.mpr h)
    rw [List.cons_append, linesAux, if_neg (Ne.symm hc), ih hl, List.reverse_cons, List.append_assoc]
    rfl

theorem lines_cons {l : List Char} (h : '\n' ∉ l) (cs : List Char) :
    lines (l ++ '\n' :: cs) = l :: lines cs := by
  rw [lines, linesAux_append h, List.append_nil, linesAux, if_pos rfl, List.reverse_reverse]
  rfl

theorem lines_flatMap {ls : List (List Char)} (h : ∀ l ∈ ls, '\n' ∉ l) :
    lines (ls.flatMap (· ++ ['\n'])) = ls := by
  induction ls with
  | nil => rfl
  | cons l ls ih =>
    obtain ⟨hl, hls⟩ := List.forall_mem_cons.mp h
    rw [List.flatMap_cons, List.append_assoc, List.singleton_append, lines_cons hl, ih hls]

theorem newline_of_mem_linesAux {cs cur l : List Char} (hcur : '\n' ∉ cur) (hl : l ∈ linesAux cs cur) :
    '\n' ∉ l := by
  induction cs generalizing cur with
  | nil =>
    cases cur with
    | nil => cases hl
    | cons c cur =>
      rw [List.mem_singleton.mp hl]
      exact mt List.mem_reverse.mp hcur
  | cons c cs ih =>
    rw [linesAux] at hl
    split at hl
    · rcases List.mem_cons.mp hl with rfl | hl
      · exact mt List.mem_reverse.mp hcur
      · exact ih List.not_mem_nil hl
    · next hc =>
      refine ih ?_ hl
      rw [List.mem_cons]
      exact not_or.mpr ⟨Ne.symm hc, hcur⟩

theorem newline_of_mem_lines {cs l : List Char} (hl : l ∈ lines cs) : '\n' ∉ l :=
  newline_of_mem_linesAux List.not_mem_nil hl

/-! ### Numbers -/

theorem decimal_inj {m n : Nat} : decimal m = decimal n ↔ m = n := by
  refine ⟨fun h => ?_, congrArg decimal⟩
  obtain ⟨ds, -, hm, hds, hvalue⟩ := toDigits_map (show 1 < 10 by decide) m
  obtain ⟨es, -, hn, hes, hvalue'⟩ := toDigits_map (show 1 < 10 by decide) n
  have hdigits := congrArg (digits 10) ((hm.symm.trans h).trans hn)
  rw [digits_map (by decide) hds, digits_map (by decide) hes] at hdigits
  rw [← hvalue, ← hvalue', hdigits]

theorem decimal_isWord (n : Nat) : IsWord (decimal n) := by
  obtain ⟨ds, hne, hmap, hds, -⟩ := toDigits_map (show 1 < 10 by decide) n
  rw [decimal, hmap]
  refine ⟨mt List.map_eq_nil_iff.mp hne, fun c hc => ?_⟩
  obtain ⟨d, hd, rfl⟩ := List.mem_map.mp hc
  exact (digitChar_plain ⟨d, Nat.lt_trans (hds d hd) (by decide)⟩).1

theorem decimal_ne_zero {n : Nat} : decimal n ≠ ['0'] ↔ n ≠ 0 :=
  not_congr (decimal_inj (n := 0))

end Apue.CLib

import Apue.Memory.Bytes

/-! Number parsing and printing as the C library does it.

`strtoull` is the base-16 conversion: leading blanks, a sign, an optional `0x`, the
longest run of hexadecimal digits, saturation at 2^64 - 1 and no error. `stoi` is
the checked base-10 conversion, which throws. -/
namespace Apue.CLib
open Memory

/-- `isspace` in the C locale. -/
def isspace (c : Char) : Bool :=
  c == ' ' || c == '\t' || c == '\n' || c == '\x0b' || c == '\x0c' || c == '\r'

/-- The value of a digit in the given base. -/
def digit (base : Nat) (c : Char) : Option Nat :=
  let v := if '0' ≤ c ∧ c ≤ '9' then c.toNat - '0'.toNat
    else if 'a' ≤ c ∧ c ≤ 'z' then c.toNat - 'a'.toNat + 10
    else if 'A' ≤ c ∧ c ≤ 'Z' then c.toNat - 'A'.toNat + 10
    else base
  if v < base then some v else none

/-- The longest prefix of digits, as their values. -/
def digits (base : Nat) : List Char → List Nat
  | [] => []
  | c :: cs =>
    match digit base c with
    | some v => v :: digits base cs
    | none => []

def value (base : Nat) (ds : List Nat) : Nat := ds.foldl (fun n d => n * base + d) 0

/-- An optional sign; `true` for minus. -/
def sign : List Char → Bool × List Char
  | '-' :: cs => (true, cs)
  | '+' :: cs => (false, cs)
  | cs => (false, cs)

def skip0x : List Char → List Char
  | '0' :: 'x' :: cs => cs
  | '0' :: 'X' :: cs => cs
  | cs => cs

/-- `strtoull(s, NULL, 16)`. -/
def strtoull (s : String) : Word :=
  let (neg, cs) := sign (s.toList.dropWhile isspace)
  let n := value 16 (digits 16 (skip0x cs))
  if 2 ^ 64 ≤ n then BitVec.allOnes 64
  else if neg then -BitVec.ofNat 64 n
  else BitVec.ofNat 64 n

/-- What `std::stoi` throws. -/
inductive StoiError where
  | invalidArgument
  | outOfRange
  deriving DecidableEq, Repr

/-- `std::stoi(s)`: trailing characters are ignored. -/
def stoi (s : String) : Except StoiError Int :=
  let (neg, cs) := sign (s.toList.dropWhile isspace)
  let ds := digits 10 cs
  if ds = [] then .error .invalidArgument
  else
    let n : Int := value 10 ds
    let v := if neg then -n else n
    if v < -2 ^ 31 ∨ 2 ^ 31 ≤ v then .error .outOfRange else .ok v

/-- The integer the whole string denotes: a sign, if there is one, and digits. -/
def denotes (s : String) : Option Int :=
  let (neg, cs) := sign s.toList
  let ds := digits 10 cs
  if ds ≠ [] ∧ ds.length = cs.length then
    some (if neg then -(value 10 ds : Int) else value 10 ds)
  else none

theorem digit_blank {c : Char} (h : isspace c = true) : digit 10 c = none ∧ c ≠ '-' ∧ c ≠ '+' := by
  simp only [isspace, Bool.or_eq_true, beq_iff_eq] at h
  rcases h with ((((rfl | rfl) | rfl) | rfl) | rfl) | rfl <;> decide

/-- A string that denotes an integer does not begin with a blank. -/
theorem dropWhile_of_denotes {s : String} {i : Int} (h : denotes s = some i) :
    s.toList.dropWhile isspace = s.toList := by
  cases hs : s.toList with
  | nil => rfl
  | cons c cs =>
    by_cases hblank : isspace c = true
    · obtain ⟨hdigit, hminus, hplus⟩ := digit_blank hblank
      have hsign : sign (c :: cs) = (false, c :: cs) := by
        unfold sign
        split
        · next heq => exact absurd (List.cons.inj heq).1 hminus
        · next heq => exact absurd (List.cons.inj heq).1 hplus
        · rfl
      simp [denotes, hs, hsign, digits, hdigit] at h
    · rw [List.dropWhile_cons_of_neg hblank]

/-- `stoi` reads what such a string denotes, if an `int` can hold it. -/
theorem stoi_of_denotes {s : String} {i : Int} (h : denotes s = some i) :
    stoi s = if i < -2 ^ 31 ∨ 2 ^ 31 ≤ i then .error .outOfRange else .ok i := by
  have hdrop := dropWhile_of_denotes h
  unfold denotes at h
  simp only [stoi, hdrop]
  simp only at h
  split at h
  case isTrue hds =>
    rw [if_neg hds.1, ← Option.some.inj h]
  case isFalse => cases h

/-- What is read is what is denoted. -/
theorem eq_of_denotes {t : String} {i j : Int} (hj : stoi t = .ok j) (hi : denotes t = some i) : j = i := by
  have hval := stoi_of_denotes hi
  rw [hj] at hval
  split at hval
  · cases hval
  · exact Except.ok.inj hval

/-! ### Printing -/

/-- `%llx`. -/
def hexDigits (w : Word) : String := String.ofList (Nat.toDigits 16 w.toNat)

/-- Padding on the left up to a width, as `%10llx` and `%016llx` do. -/
def padLeft (c : Char) (width : Nat) (s : String) : String :=
  String.ofList (List.replicate (width - s.length) c) ++ s

/-- Padding on the right, as `%-8llx` does. -/
def padRight (width : Nat) (s : String) : String :=
  s ++ String.ofList (List.replicate (width - s.length) ' ')

/-- `isprint` in the C locale. -/
def isprint (c : Char) : Bool := decide (' ' ≤ c ∧ c ≤ '~')

/-! ### Reading back what was printed -/

theorem digit_digitChar {b d : Nat} (hb : b ≤ 16) (hd : d < b) :
    digit b (Nat.digitChar d) = some d := by
  have hall : ∀ b : Fin 17, ∀ d : Fin 16, d.val < b.val → digit b (Nat.digitChar d) = some d.val := by
    decide
  exact hall ⟨b, by omega⟩ ⟨d, by omega⟩ hd

theorem digits_map {b : Nat} (hb : b ≤ 16) {ds : List Nat} (h : ∀ d ∈ ds, d < b) :
    digits b (ds.map Nat.digitChar) = ds := by
  induction ds with
  | nil => rfl
  | cons d ds ih =>
    obtain ⟨hd, hds⟩ := List.forall_mem_cons.mp h
    rw [List.map_cons, digits, digit_digitChar hb hd]
    exact congrArg (d :: ·) (ih hds)

theorem value_concat (b : Nat) (ds : List Nat) (d : Nat) :
    value b (ds ++ [d]) = value b ds * b + d := by
  rw [value, List.foldl_append]
  rfl

/-- The printed digits of a number are the digits of its value. -/
theorem toDigits_map {b : Nat} (hb : 1 < b) (n : Nat) : ∃ ds, ds ≠ [] ∧
    Nat.toDigits b n = ds.map Nat.digitChar ∧ (∀ d ∈ ds, d < b) ∧ value b ds = n := by
  induction n using Nat.strongRecOn with
  | ind n ih =>
    by_cases hn : n < b
    · refine ⟨[n], List.cons_ne_nil _ _, Nat.toDigits_of_lt_base hn, by simpa using hn, ?_⟩
      simp [value]
    · have hlt : n / b < n := Nat.div_lt_self (by omega) hb
      obtain ⟨ds, -, hmap, hds, hvalue⟩ := ih (n / b) hlt
      refine ⟨ds ++ [n % b], by simp, ?_, ?_, ?_⟩
      · rw [Nat.toDigits_of_base_le hb (by omega), hmap, List.map_append]
        rfl
      · intro d hd
        rcases List.mem_append.mp hd with hd | hd
        · exact hds d hd
        · rw [List.mem_singleton.mp hd]
          exact Nat.mod_lt n (by omega)
      · rw [value_concat, hvalue, Nat.mul_comm]
        exact Nat.div_add_mod n b

theorem digitChar_plain : ∀ d : Fin 16, isspace (Nat.digitChar d) = false ∧
    Nat.digitChar d ≠ '-' ∧ Nat.digitChar d ≠ '+' ∧ Nat.digitChar d ≠ 'x' ∧ Nat.digitChar d ≠ 'X' := by
  decide

/-- Digits begin with no blank and no sign, and none of them is an `x`. -/
theorem sign_digits {b : Nat} (hb : b ≤ 16) {ds : List Nat} (h : ∀ d ∈ ds, d < b) :
    sign ((ds.map Nat.digitChar).dropWhile isspace) = (false, ds.map Nat.digitChar) := by
  cases ds with
  | nil => rfl
  | cons d ds =>
    obtain ⟨hspace, hminus, hplus, -⟩ :=
      digitChar_plain ⟨d, lt_of_lt_of_le (h d List.mem_cons_self) hb⟩
    simp only at hspace hminus hplus
    rw [List.map_cons, List.dropWhile_cons_of_neg (by simp [hspace])]
    unfold sign
    split
    · next heq => exact absurd (List.cons.inj heq).1 hminus
    · next heq => exact absurd (List.cons.inj heq).1 hplus
    · rfl

theorem skip0x_digits {b : Nat} (hb : b ≤ 16) {ds : List Nat} (h : ∀ d ∈ ds, d < b) :
    skip0x (ds.map Nat.digitChar) = ds.map Nat.digitChar := by
  have hx : ∀ c ∈ ds.map Nat.digitChar, c ≠ 'x' ∧ c ≠ 'X' := by
    intro c hc
    obtain ⟨d, hd, rfl⟩ := List.mem_map.mp hc
    exact (digitChar_plain ⟨d, lt_of_lt_of_le (h d hd) hb⟩).2.2.2
  unfold skip0x
  split
  · next heq => exact absurd rfl (hx 'x' (heq ▸ by simp)).1
  · next heq => exact absurd rfl (hx 'X' (heq ▸ by simp)).2
  · rfl

/-- **`strtoull` reads back what `%llx` prints.** -/
theorem strtoull_hexDigits (w : Word) : strtoull (hexDigits w) = w := by
  obtain ⟨ds, -, hmap, hds, hvalue⟩ := toDigits_map (show 1 < 16 by decide) w.toNat
  have hlist : (hexDigits w).toList = ds.map Nat.digitChar := by
    rw [hexDigits, String.toList_ofList, hmap]
  have hlt : ¬ 2 ^ 64 ≤ w.toNat := Nat.not_le.mpr w.isLt
  simp only [strtoull, hlist, sign_digits (Nat.le_refl 16) hds, skip0x_digits (Nat.le_refl 16) hds,
    digits_map (Nat.le_refl 16) hds, hvalue, if_neg hlt, Bool.false_eq_true, if_false]
  exact BitVec.ofNat_toNat 64 w ▸ BitVec.setWidth_eq w

theorem stoi_toString (n : Nat) :
    stoi (toString n) = if n < 2 ^ 31 then .ok (n : Int) else .error .outOfRange := by
  obtain ⟨ds, hne, hmap, hds, hvalue⟩ := toDigits_map (show 1 < 10 by decide) n
  have hlist : (toString n).toList = ds.map Nat.digitChar := by
    rw [Nat.toString_eq_repr, Nat.toList_repr, hmap]
  simp only [stoi, hlist, sign_digits (show 10 ≤ 16 by decide) hds,
    digits_map (show 10 ≤ 16 by decide) hds, hne, hvalue, if_false, Bool.false_eq_true]
  by_cases hn : n < 2 ^ 31
  · rw [if_pos hn, if_neg (by omega)]
  · rw [if_neg hn, if_pos (by omega)]

/-! ### Hexadecimal numbers -/

structure IsHex (cs : List Char) : Prop where
  nonempty : cs ≠ []
  digit : ∀ c ∈ cs, (digit 16 c).isSome = true

instance (cs : List Char) : Decidable (IsHex cs) :=
  decidable_of_iff (cs ≠ [] ∧ cs.all (fun c => (digit 16 c).isSome) = true)
    ⟨fun ⟨hne, hdigit⟩ => ⟨hne, List.all_eq_true.mp hdigit⟩,
      fun h => ⟨h.nonempty, List.all_eq_true.mpr h.digit⟩⟩

/-- The number the digits at the head denote. -/
def hexValue (cs : List Char) : Nat := value 16 (digits 16 cs)

/-- A digit is no blank, no sign and no `x`. -/
theorem digit_plain {c : Char} (h : (digit 16 c).isSome = true) :
    isspace c = false ∧ c ≠ '-' ∧ c ≠ '+' ∧ c ≠ 'x' ∧ c ≠ 'X' := by
  have hne : ∀ c' : Char, (digit 16 c').isSome = false → c ≠ c' := by
    rintro c' hc' rfl
    rw [h] at hc'
    cases hc'
  refine ⟨?_, hne '-' rfl, hne '+' rfl, hne 'x' rfl, hne 'X' rfl⟩
  rw [Bool.eq_false_iff]
  intro hblank
  simp only [isspace, Bool.or_eq_true, beq_iff_eq] at hblank
  rcases hblank with ((((rfl | rfl) | rfl) | rfl) | rfl) | rfl
  all_goals exact absurd h (by decide)

/-- **`strtoull` reads a hexadecimal number, and saturates.** -/
theorem strtoull_hex {cs : List Char} (h : IsHex cs) : strtoull (String.ofList cs) =
    if 2 ^ 64 ≤ hexValue cs then BitVec.allOnes 64 else BitVec.ofNat 64 (hexValue cs) := by
  obtain ⟨c, rest, rfl⟩ := List.exists_cons_of_ne_nil h.nonempty
  obtain ⟨hc, hrest⟩ := List.forall_mem_cons.mp h.digit
  obtain ⟨hblank, hminus, hplus, -⟩ := digit_plain hc
  have hsign : sign ((c :: rest).dropWhile isspace) = (false, c :: rest) := by
    rw [List.dropWhile_cons_of_neg (by simp [hblank])]
    unfold sign
    split
    · next heq => exact absurd (List.cons.inj heq).1 hminus
    · next heq => exact absurd (List.cons.inj heq).1 hplus
    · rfl
  have hskip : skip0x (c :: rest) = c :: rest := by
    unfold skip0x
    split
    · next heq => exact absurd rfl (digit_plain (hrest 'x' ((List.cons.inj heq).2 ▸ by simp))).2.2.2.1
    · next heq => exact absurd rfl (digit_plain (hrest 'X' ((List.cons.inj heq).2 ▸ by simp))).2.2.2.2
    · rfl
  simp only [strtoull, String.toList_ofList, hsign, hskip, hexValue, Bool.false_eq_true, if_false]
  rfl

/-- Zeros on the left change nothing. -/
theorem hexValue_zeros (n : Nat) (cs : List Char) :
    hexValue (List.replicate n '0' ++ cs) = hexValue cs := by
  induction n with
  | zero => rfl
  | succ n ih =>
    have hzero : hexValue ('0' :: (List.replicate n '0' ++ cs)) = hexValue (List.replicate n '0' ++ cs) := rfl
    rw [List.replicate_succ, List.cons_append, hzero, ih]

theorem isHex_hexDigits (w : Word) : IsHex (hexDigits w).toList := by
  obtain ⟨ds, hne, hmap, hds, -⟩ := toDigits_map (show 1 < 16 by decide) w.toNat
  rw [hexDigits, String.toList_ofList, hmap]
  refine ⟨mt List.map_eq_nil_iff.mp hne, fun c hc => ?_⟩
  obtain ⟨d, hd, rfl⟩ := List.mem_map.mp hc
  rw [digit_digitChar (Nat.le_refl 16) (hds d hd)]
  rfl

/-- A printed number is read back, whatever follows that is no digit. -/
theorem hexValue_hexDigits (w : Word) {rest : List Char}
    (h : ∀ c ∈ rest.head?, digit 16 c = none) : hexValue ((hexDigits w).toList ++ rest) = w.toNat := by
  obtain ⟨ds, -, hmap, hds, hvalue⟩ := toDigits_map (show 1 < 16 by decide) w.toNat
  have hread : ∀ ds : List Nat, (∀ d ∈ ds, d < 16) → digits 16 (ds.map Nat.digitChar ++ rest) = ds := by
    intro ds hds
    induction ds with
    | nil =>
      cases rest with
      | nil => rfl
      | cons c rest => rw [List.map_nil, List.nil_append, digits, h c rfl]
    | cons d ds ih =>
      obtain ⟨hd, hds⟩ := List.forall_mem_cons.mp hds
      rw [List.map_cons, List.cons_append, digits, digit_digitChar (Nat.le_refl 16) hd]
      exact congrArg (d :: ·) (ih hds)
  rw [hexDigits, String.toList_ofList, hmap, hexValue, hread ds hds, hvalue]

/-- Blanks on the left are skipped. -/
theorem strtoull_padLeft (width : Nat) (s : String) : strtoull (padLeft ' ' width s) = strtoull s := by
  have hblank : ∀ k, (List.replicate k ' ' ++ s.toList).dropWhile isspace =
      s.toList.dropWhile isspace := by
    intro k
    induction k with
    | zero => rfl
    | succ k ih => exact ih
  simp only [strtoull, padLeft, String.toList_append, String.toList_ofList, hblank]

/-! ### What follows a number -/

theorem digits_followed {b : Nat} (hb : b ≤ 16) {ds : List Nat} (h : ∀ d ∈ ds, d < b)
    {rest : List Char} (hrest : ∀ c ∈ rest.head?, digit b c = none) :
    digits b (ds.map Nat.digitChar ++ rest) = ds := by
  induction ds with
  | nil =>
    cases rest with
    | nil => rfl
    | cons c rest => rw [List.map_nil, List.nil_append, digits, hrest c rfl]
  | cons d ds ih =>
    obtain ⟨hd, hds⟩ := List.forall_mem_cons.mp h
    rw [List.map_cons, List.cons_append, digits, digit_digitChar hb hd]
    exact congrArg (d :: ·) (ih hds)

theorem sign_followed {b : Nat} (hb : b ≤ 16) {ds : List Nat} (hne : ds ≠ [])
    (h : ∀ d ∈ ds, d < b) (rest : List Char) :
    sign ((ds.map Nat.digitChar ++ rest).dropWhile isspace) = (false, ds.map Nat.digitChar ++ rest) := by
  obtain ⟨d, ds, rfl⟩ := List.exists_cons_of_ne_nil hne
  obtain ⟨hspace, hminus, hplus, -⟩ :=
    digitChar_plain ⟨d, lt_of_lt_of_le (h d List.mem_cons_self) hb⟩
  simp only at hspace hminus hplus
  rw [List.map_cons, List.cons_append, List.dropWhile_cons_of_neg (by simp [hspace])]
  unfold sign
  split
  · next heq => exact absurd (List.cons.inj heq).1 hminus
  · next heq => exact absurd (List.cons.inj heq).1 hplus
  · rfl

/-- `stoi` reads a number up to what is no digit. -/
theorem stoi_followed {n : Nat} (hn : n < 2 ^ 31) {rest : List Char}
    (hrest : ∀ c ∈ rest.head?, digit 10 c = none) :
    stoi (String.ofList (Nat.toDigits 10 n ++ rest)) = .ok (n : Int) := by
  obtain ⟨ds, hne, hmap, hds, hvalue⟩ := toDigits_map (show 1 < 10 by decide) n
  simp only [stoi, String.toList_ofList, hmap, sign_followed (show 10 ≤ 16 by decide) hne hds,
    digits_followed (show 10 ≤ 16 by decide) hds hrest, hne, hvalue, if_false, Bool.false_eq_true]
  rw [if_neg (by omega)]

/-- So does `strtoull`. -/
theorem strtoull_followed (w : Word) {rest : List Char} (hrest : ∀ c ∈ rest.head?, digit 16 c = none)
    (hx : ∀ c ∈ rest.head?, c ≠ 'x' ∧ c ≠ 'X') :
    strtoull (String.ofList (Nat.toDigits 16 w.toNat ++ rest)) = w := by
  obtain ⟨ds, hne, hmap, hds, hvalue⟩ := toDigits_map (show 1 < 16 by decide) w.toNat
  have hskip : skip0x (ds.map Nat.digitChar ++ rest) = ds.map Nat.digitChar ++ rest := by
    have hsecond : ∀ c ∈ (ds.map Nat.digitChar ++ rest).tail.head?, c ≠ 'x' ∧ c ≠ 'X' := by
      intro c hc
      match ds, hne, hds with
      | [d], _, _ => exact hx c hc
      | d :: e :: ds, _, hds =>
        obtain rfl : Nat.digitChar e = c := Option.some.inj hc
        have he : e < 16 := hds e (List.mem_cons_of_mem _ List.mem_cons_self)
        exact (digitChar_plain ⟨e, he⟩).2.2.2
    unfold skip0x
    split
    · next heq => exact absurd rfl (hsecond 'x' (by rw [heq]; rfl)).1
    · next heq => exact absurd rfl (hsecond 'X' (by rw [heq]; rfl)).2
    · rfl
  have hlt : ¬ 2 ^ 64 ≤ w.toNat := Nat.not_le.mpr w.isLt
  simp only [strtoull, String.toList_ofList, hmap, sign_followed (Nat.le_refl 16) hne hds, hskip,
    digits_followed (Nat.le_refl 16) hds hrest, hvalue, if_neg hlt, Bool.false_eq_true, if_false]
  exact BitVec.ofNat_toNat 64 w ▸ BitVec.setWidth_eq w

/-- After `0x`, with any number of zeros. -/
theorem strtoull_0x (w : Word) (n : Nat) :
    strtoull (String.ofList ('0' :: 'x' :: (List.replicate n '0' ++ Nat.toDigits 16 w.toNat))) = w := by
  have hvalue : hexValue (List.replicate n '0' ++ Nat.toDigits 16 w.toNat) = w.toNat := by
    have hread : hexValue ((hexDigits w).toList ++ []) = w.toNat := hexValue_hexDigits w nofun
    rwa [List.append_nil, hexDigits, String.toList_ofList, ← hexValue_zeros n] at hread
  have hlt : ¬ 2 ^ 64 ≤ w.toNat := Nat.not_le.mpr w.isLt
  have hsign : ∀ cs, sign (('0' :: cs).dropWhile isspace) = (false, '0' :: cs) := fun cs => rfl
  rw [hexValue] at hvalue
  simp only [strtoull, String.toList_ofList, hsign, skip0x, hvalue, if_neg hlt, Bool.false_eq_true,
    if_false]
  exact BitVec.ofNat_toNat 64 w ▸ BitVec.setWidth_eq w

example : strtoull "0x401000" = 0x401000 := by decide
example : strtoull "-1" = BitVec.allOnes 64 := by decide
example : stoi "12abc" = .ok 12 := by decide

end Apue.CLib

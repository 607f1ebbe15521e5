import Apue.CLib.Getopt

/-! The command lines `getopt` accepts, where every option takes an argument.

A command line is a list of items, operands among options, and may end with `--` and
operands only. `getopt` reads each item as it is meant wherever it stands (`getopt_spell`),
and finds nothing to complain of in such command lines only (`accepted_iff`). -/
namespace Apue.CLib

inductive Item where
  | operand (a : List Char)
  /-- `-c a`, in two strings. -/
  | separate (c : Char) (a : List Char)
  /-- `-ca`, in one. -/
  | attached (c : Char) (a : List Char)
  deriving DecidableEq, Repr

def Item.spell : Item → List (List Char)
  | .operand a => [a]
  | .separate c a => [['-', c], a]
  | .attached c a => ['-' :: c :: a]

/-- Not to be taken for an option. -/
def isOperand : List Char → Bool
  | '-' :: _ :: _ => false
  | _ => true

def Item.Proper (optstring : List Char) : Item → Prop
  | .operand a => isOperand a = true
  | .separate c _ => takesArgument optstring c = some true ∧ c ≠ '-'
  | .attached c a => takesArgument optstring c = some true ∧ a ≠ []

instance (optstring : List Char) (i : Item) : Decidable (i.Proper optstring) :=
  match i with
  | .operand _ => inferInstanceAs (Decidable (_ = _))
  | .separate _ _ | .attached _ _ => inferInstanceAs (Decidable (_ ∧ _))

def Item.asOperand : Item → Option (List Char)
  | .operand a => some a
  | _ => none

def Item.asOption : Item → Option (Char × List Char)
  | .operand _ => none
  | .separate c a | .attached c a => some (c, a)

/-- A command line: its items, and what follows `--`, if there is one. -/
structure Spelling where
  items : List Item
  rest : Option (List (List Char)) := none
  deriving DecidableEq, Repr

def Spelling.argv (sp : Spelling) : List (List Char) :=
  sp.items.flatMap Item.spell ++
    match sp.rest with
    | none => []
    | some rest => ['-', '-'] :: rest

def Spelling.operands (sp : Spelling) : List (List Char) :=
  sp.items.filterMap Item.asOperand ++ sp.rest.getD []

def Spelling.options (sp : Spelling) : List (Char × List Char) := sp.items.filterMap Item.asOption

def Spelling.Proper (optstring : List Char) (sp : Spelling) : Prop :=
  ∀ i ∈ sp.items, i.Proper optstring

/-- The last argument of an option, if it is given. -/
def Spelling.last (sp : Spelling) (c : Char) : Option (List Char) :=
  ((sp.options.filter fun o => o.1 = c).map Prod.snd).getLast?

section
variable (optstring : List Char) {argv : List (List Char)} {opts : List Opt} {rest : List (List Char)}

theorem getopt_operand {a : List Char} (ha : isOperand a = true) (argv : List (List Char)) :
    getopt optstring none (a :: argv) =
      ((getopt optstring none argv).1, a :: (getopt optstring none argv).2) := by
  match a with
  | [] => rfl
  | [c] => simp [getopt]
  | c :: d :: cs =>
    have hc : c ≠ '-' := by
      rintro rfl
      cases ha
    simp [getopt, hc]

theorem getopt_attached {c : Char} (hc : takesArgument optstring c = some true) {a : List Char}
    (ha : a ≠ []) (argv : List (List Char)) :
    getopt optstring none (('-' :: c :: a) :: argv) =
      (.opt c (some a) :: (getopt optstring none argv).1, (getopt optstring none argv).2) := by
  have hcluster : cluster optstring (c :: a) = ([.opt c (some a)], none) := by
    simp [cluster, hc, ha]
  simp [getopt, hcluster, ha]

/-- **Items are read as they are meant.** -/
theorem getopt_spell {sp : Spelling} (h : sp.Proper optstring) :
    getopt optstring none sp.argv =
      (sp.options.map fun o => .opt o.1 (some o.2), sp.operands) := by
  obtain ⟨items, rest⟩ := sp
  induction items with
  | nil =>
    cases rest with
    | none => rfl
    | some rest => rfl
  | cons i items ih =>
    obtain ⟨hi, hitems⟩ := List.forall_mem_cons.mp h
    have hrest := ih hitems
    have hargv : (Spelling.mk (i :: items) rest).argv = i.spell ++ (Spelling.mk items rest).argv := by
      simp [Spelling.argv]
    rw [hargv]
    cases i with
    | operand a =>
      show getopt optstring none (a :: (Spelling.mk items rest).argv) = _
      rw [getopt_operand optstring hi, hrest]
      rfl
    | separate c a =>
      show getopt optstring none (['-', c] :: a :: (Spelling.mk items rest).argv) = _
      rw [getopt_argument optstring hi.1 hi.2, hrest]
      rfl
    | attached c a =>
      show getopt optstring none (('-' :: c :: a) :: (Spelling.mk items rest).argv) = _
      rw [getopt_attached optstring hi.1 hi.2, hrest]
      rfl

end

/-- What the items say is in the strings. -/
theorem Spelling.suffix_of_mem {sp : Spelling} {a : List Char}
    (ha : a ∈ sp.operands ∨ ∃ c, (c, a) ∈ sp.options) : ∃ s ∈ sp.argv, a <:+ s := by
  have hitem : ∀ i ∈ sp.items, ∀ s ∈ i.spell, s ∈ sp.argv := fun i hi s hs =>
    List.mem_append_left _ (List.mem_flatMap.mpr ⟨i, hi, hs⟩)
  rcases ha with ha | ⟨c, ha⟩
  · rcases List.mem_append.mp ha with ha | ha
    · obtain ⟨i, hi, hia⟩ := List.mem_filterMap.mp ha
      cases i with
      | operand b =>
        obtain rfl : b = a := Option.some.inj hia
        exact ⟨b, hitem _ hi b List.mem_cons_self, List.suffix_refl b⟩
      | separate | attached => cases hia
    · obtain ⟨items, rest⟩ := sp
      cases rest with
      | none => cases ha
      | some rest =>
        exact ⟨a, List.mem_append_right _ (List.mem_cons_of_mem _ ha), List.suffix_refl a⟩
  · obtain ⟨i, hi, hia⟩ := List.mem_filterMap.mp ha
    cases i with
    | operand => cases hia
    | separate d b =>
      obtain ⟨-, rfl⟩ := Prod.mk.inj (Option.some.inj hia)
      exact ⟨b, hitem _ hi b (List.mem_cons_of_mem _ List.mem_cons_self), List.suffix_refl b⟩
    | attached d b =>
      obtain ⟨-, rfl⟩ := Prod.mk.inj (Option.some.inj hia)
      exact ⟨'-' :: d :: b, hitem _ hi _ List.mem_cons_self, ['-', d], rfl⟩

theorem Spelling.mem_of_last {sp : Spelling} {c : Char} {a : List Char} (h : sp.last c = some a) :
    (c, a) ∈ sp.options := by
  obtain ⟨o, ho, rfl⟩ := List.mem_map.mp (List.mem_of_getLast? h)
  obtain ⟨hmem, hc⟩ := List.mem_filter.mp ho
  obtain rfl : o.1 = c := of_decide_eq_true hc
  exact hmem

/-- The calls return options with their arguments only. -/
def Accepted (optstring : List Char) (argv : List (List Char)) : Prop :=
  ∀ o ∈ (getopt optstring none argv).1, ∃ c a, o = .opt c (some a)

section
variable {optstring : List Char} (hall : ∀ c b, takesArgument optstring c = some b → b = true)
  {argv : List (List Char)}
include hall

/-- Where every option takes an argument, an accepted cluster is one option. -/
theorem cluster_accepted {c : Char} {cs : List Char} {opts : List Opt} {last : Option Char}
    (h : cluster optstring (c :: cs) = (opts, last)) (hok : ∀ o ∈ opts, ∃ c a, o = .opt c (some a)) :
    takesArgument optstring c = some true ∧
      (cs = [] ∧ opts = [] ∧ last = some c ∨ cs ≠ [] ∧ opts = [.opt c (some cs)] ∧ last = none) := by
  rw [cluster] at h
  cases ht : takesArgument optstring c with
  | none =>
    rw [ht] at h
    obtain ⟨rfl, -⟩ := Prod.mk.inj h
    obtain ⟨c', a, hopt⟩ := hok _ List.mem_cons_self
    cases hopt
  | some b =>
    obtain rfl : b = true := hall c b ht
    rw [ht] at h
    simp only at h
    split at h
    case isTrue hnil =>
      obtain ⟨rfl, rfl⟩ := Prod.mk.inj h
      exact ⟨rfl, .inl ⟨hnil, rfl, rfl⟩⟩
    case isFalse hne =>
      obtain ⟨rfl, rfl⟩ := Prod.mk.inj h
      exact ⟨rfl, .inr ⟨hne, rfl, rfl⟩⟩

/-- An accepted command line is spelled by items. -/
theorem exists_spelling :
    (Accepted optstring argv → ∃ sp : Spelling, sp.Proper optstring ∧ sp.argv = argv) ∧
    ∀ c, (∀ o ∈ (getopt optstring (some c) argv).1, ∃ c a, o = .opt c (some a)) →
      ∃ (a : List Char) (sp : Spelling), sp.Proper optstring ∧ argv = a :: sp.argv := by
  induction argv with
  | nil =>
    refine ⟨fun _ => ⟨⟨[], none⟩, nofun, rfl⟩, fun c h => ?_⟩
    obtain ⟨c', a, hopt⟩ := h (.missing c) List.mem_cons_self
    cases hopt
  | cons a argv ih =>
    obtain ⟨ihnone, ihsome⟩ := ih
    refine ⟨fun h => ?_, fun c h => ?_⟩
    case refine_2 =>
      obtain ⟨sp, hsp, hargv⟩ := ihnone fun o ho => h o (List.mem_cons_of_mem _ ho)
      exact ⟨a, sp, hsp, by rw [hargv]⟩
    have hcons : ∀ (i : Item) (sp : Spelling), i.Proper optstring → sp.Proper optstring →
        i.spell ++ sp.argv = a :: argv → ∃ sp : Spelling, sp.Proper optstring ∧ sp.argv = a :: argv := by
      intro i sp hi hsp hargv
      refine ⟨⟨i :: sp.items, sp.rest⟩, List.forall_mem_cons.mpr ⟨hi, hsp⟩, ?_⟩
      rw [← hargv]
      simp [Spelling.argv]
    unfold Accepted getopt at h
    split at h
    case h_1 => exact ⟨⟨[], some argv⟩, nofun, rfl⟩
    case h_2 c cs hne =>
      cases hcluster : cluster optstring (c :: cs) with
      | mk opts last =>
        rw [hcluster] at h
        simp only [List.mem_append] at h
        obtain ⟨ht, ⟨rfl, rfl, rfl⟩ | ⟨hcs, rfl, rfl⟩⟩ :=
          cluster_accepted hall hcluster fun o ho => h o (.inl ho)
        · obtain ⟨a, sp, hsp, rfl⟩ := ihsome c fun o ho => h o (.inr ho)
          have hdash : c ≠ '-' := by
            rintro rfl
            exact hne rfl rfl
          exact hcons (.separate c a) sp ⟨ht, hdash⟩ hsp rfl
        · obtain ⟨sp, hsp, rfl⟩ := ihnone fun o ho => h o (.inr ho)
          exact hcons (.attached c cs) sp ⟨ht, hcs⟩ hsp rfl
    case h_3 hdashes hdash =>
      obtain ⟨sp, hsp, rfl⟩ := ihnone h
      refine hcons (.operand a) sp ?_ hsp rfl
      show isOperand a = true
      unfold isOperand
      split
      case h_1 c cs => exact absurd rfl (hdash c cs)
      case h_2 => rfl

/-- **A command line is accepted exactly when items spell it.** -/
theorem accepted_iff :
    Accepted optstring argv ↔ ∃ sp : Spelling, sp.Proper optstring ∧ sp.argv = argv := by
  refine ⟨(exists_spelling hall).1, fun ⟨sp, hsp, hargv⟩ o ho => ?_⟩
  rw [← hargv, getopt_spell optstring hsp] at ho
  obtain ⟨p, -, rfl⟩ := List.mem_map.mp ho
  exact ⟨p.1, p.2, rfl⟩

end

end Apue.CLib

import Apue.Shell.Scan
import Mathlib.Data.List.TakeWhile

/-! How `sh` reads a line that is one simple command.

`read` gives the command's assignments and its `argv` where these are the same in every
environment, and nothing where the line is anything else: more commands than one, a pipeline,
a redirection, a syntax error, an expansion or a pattern, or something POSIX leaves open. -/
namespace Apue.Shell

structure Command where
  assigns : List (List Char × List Char)
  argv : List (List Char)
  deriving DecidableEq, Repr

/-! ### Words -/

/-- A tilde that a user's home directory may replace. -/
def tilde (w : Word) : Bool := w.head? == some ('~', false)

/-- Such a tilde after a colon. -/
def tildeAfterColon : Word → Bool
  | [] => false
  | c :: w => c == (':', false) && tilde w || tildeAfterColon w

/-- What follows a `[` closes it. A slash does not, nor does a `]` that comes first. -/
def bracket (w : Word) : Bool :=
  let set := if w.head? = some ('!', false) then w.tail else w
  (set.head?.any fun c => c.1 != '/') && (set.tail.takeWhile fun c => c.1 != '/').contains (']', false)

/-- A pattern, which file names may replace. -/
def pattern : Word → Bool
  | [] => false
  | c :: w => c == ('*', false) || c == ('?', false) || c == ('[', false) && bracket w || pattern w

/-- What a word is in `argv`. -/
def field (w : Word) : Option (List Char) := if tilde w || pattern w then none else some (chars w)

def fields : List Word → Option (List (List Char))
  | [] => some []
  | w :: ws => (field w).bind fun f => (fields ws).map (f :: ·)

/-- What a word is to the right of an assignment's `=`. -/
def value (w : Word) : Option (List Char) :=
  if tilde w || tildeAfterColon w then none else some (chars w)

def nameChar (c : Char × Bool) : Bool := !c.2 && (c.1.isAlphanum || c.1 == '_')

def name (w : Word) : Bool := w.head?.any (fun c => !c.1.isDigit) && w.all nameChar

def reserved : List (List Char) :=
  ["!", "\x7b", "\x7d", "case", "do", "done", "elif", "else", "esac", "fi", "for", "if", "in", "then",
    "until", "while"].map String.toList

/-! ### Commands -/

/-- Assignments come first. Whether a word is one is left open where it has an `=` after
something that is no name. -/
def command : List Word → Option Command
  | [] => some ⟨[], []⟩
  | w :: ws =>
    let left := w.takeWhile (· != ('=', false))
    match w.dropWhile (· != ('=', false)) with
    | [] => (fields (w :: ws)).map fun argv => ⟨[], argv⟩
    | _ :: right =>
      if left = [] then (fields (w :: ws)).map fun argv => ⟨[], argv⟩
      else if name left then
        (value right).bind fun v =>
          (command ws).map fun c => { c with assigns := (chars left, v) :: c.assigns }
      else none

/-- The end of the last command. -/
def ends : List Token → Bool
  | .op ';' :: ts => ts.all (· == .op '\n')
  | ts => ts.all (· == .op '\n')

/-- The words before the end. -/
def words : List Token → Option (List Word)
  | .word w :: ts => (words ts).map (w :: ·)
  | ts => if ends ts then some [] else none

/-- A reserved word first makes another kind of command. -/
def parse (ts : List Token) : Option Command :=
  match words (ts.dropWhile (· == .op '\n')) with
  | some (w :: ws) => if w ∈ reserved.map bare then none else command (w :: ws)
  | _ => none

def read (line : List Char) : Option Command := (tokens line).bind parse

example : read "A=b 'c d' e\\ f # g".toList = some ⟨[(['A'], ['b'])], [['c', ' ', 'd'], ['e', ' ', 'f']]⟩ := by
  decide +kernel

/-! ### What a command is read from -/

theorem fields_eq {ws : List Word} {fs : List (List Char)} (h : fields ws = some fs) :
    fs = ws.map chars := by
  induction ws generalizing fs with
  | nil =>
    cases h
    rfl
  | cons w ws ih =>
    obtain ⟨f, hf, h⟩ := Option.bind_eq_some_iff.mp h
    obtain ⟨fs', hfs, rfl⟩ := Option.map_eq_some_iff.mp h
    have hfield : f = chars w := by
      rw [field] at hf
      split_ifs at hf
      cases hf
      rfl
    rw [hfield, ih hfs, List.map_cons]

/-- The words of a command. -/
def Command.texts (c : Command) : List (List Char) :=
  c.assigns.map (fun a => a.1 ++ '=' :: a.2) ++ c.argv

theorem value_eq {w : Word} {v : List Char} (h : value w = some v) : v = chars w := by
  rw [value] at h
  split_ifs at h
  cases h
  rfl

theorem dropWhile_cons {w : Word} {c : Char × Bool} {right : Word}
    (h : w.dropWhile (· != ('=', false)) = c :: right) :
    w = w.takeWhile (· != ('=', false)) ++ ('=', false) :: right := by
  have hc : c = ('=', false) := by
    have hhead := List.head?_dropWhile_not (· != ('=', false)) w
    rw [h] at hhead
    simpa using hhead
  have hw := List.takeWhile_append_dropWhile (p := (· != ('=', false))) (l := w)
  rw [h, hc] at hw
  exact hw.symm

theorem command_texts {ws : List Word} {c : Command} (h : command ws = some c) :
    c.texts = ws.map chars := by
  induction ws generalizing c with
  | nil =>
    cases h
    rfl
  | cons w ws ih =>
    have hfields : ∀ {c : Command}, (fields (w :: ws)).map (fun argv => ⟨[], argv⟩) = some c →
        c.texts = (w :: ws).map chars := by
      intro c hc
      obtain ⟨fs, hfs, rfl⟩ := Option.map_eq_some_iff.mp hc
      exact fields_eq hfs
    rw [command] at h
    split at h
    next => exact hfields h
    next c' right hright =>
      split_ifs at h with hleft hname
      · exact hfields h
      · obtain ⟨v, hv, h⟩ := Option.bind_eq_some_iff.mp h
        obtain ⟨rest, hrest, rfl⟩ := Option.map_eq_some_iff.mp h
        have hw := congrArg chars (dropWhile_cons hright)
        rw [List.map_cons, hw, ← ih hrest, value_eq hv]
        simp [Command.texts, chars]

theorem word?_of_ends {ts : List Token} (h : ends ts = true) : ts.filterMap Token.word? = [] := by
  have hlines : ∀ {ts : List Token}, ts.all (· == .op '\n') = true → ts.filterMap Token.word? = [] := by
    intro ts hts
    refine List.filterMap_eq_nil_iff.mpr fun t ht => ?_
    rw [eq_of_beq (List.all_eq_true.mp hts t ht)]
    rfl
  unfold ends at h
  split at h
  next ts => exact (hlines h : ts.filterMap Token.word? = [])
  next => exact hlines h

theorem words_eq {ts : List Token} {ws : List Word} (h : words ts = some ws) :
    ts.filterMap Token.word? = ws := by
  induction ts generalizing ws with
  | nil =>
    cases h
    rfl
  | cons t ts ih =>
    cases t with
    | word w =>
      obtain ⟨ws', hws', rfl⟩ := Option.map_eq_some_iff.mp h
      rw [← ih hws']
      rfl
    | op c =>
      simp only [words] at h
      split_ifs at h with hends
      cases h
      exact word?_of_ends hends

theorem parse_texts {ts : List Token} {c : Command} (h : parse ts = some c) : texts ts = c.texts := by
  have hlines : ∀ ts : List Token,
      (ts.dropWhile (· == .op '\n')).filterMap Token.word? = ts.filterMap Token.word? := by
    intro ts
    induction ts with
    | nil => rfl
    | cons t ts ih =>
      by_cases ht : t = .op '\n'
      · subst ht
        exact ih
      · rw [List.dropWhile_cons_of_neg (by simpa using ht)]
  rw [parse] at h
  split at h
  next w ws hwords =>
    split_ifs at h
    rw [command_texts h, ← words_eq hwords, hlines]
    rfl
  next => cases h

/-- A command that is read has the words of its line. -/
theorem read_texts {line : List Char} {c : Command} (h : read line = some c) :
    (tokens line).map texts = some c.texts := by
  obtain ⟨ts, hts, hparse⟩ := Option.bind_eq_some_iff.mp h
  rw [hts, Option.map_some, parse_texts hparse]

/-! ### Words joined by blanks -/

theorem words_map_word (ws : List Word) : words (ws.map .word) = some ws := by
  induction ws with
  | nil => rfl
  | cons w ws ih => rw [List.map_cons, words, ih, Option.map_some]

theorem read_join {w : List Char} {ws : List (List Char)} (h : ∀ v ∈ w :: ws, Plain v)
    (hw : w ∉ reserved) : read (join (w :: ws)) = command ((w :: ws).map bare) := by
  have hbare : (w :: ws).map (fun v => Token.word (bare v)) = ((w :: ws).map bare).map .word := by
    rw [List.map_map]
    rfl
  have hfirst : bare w ∉ reserved.map bare := fun hmem => by
    obtain ⟨v, hv, hvw⟩ := List.mem_map.mp hmem
    have hchars := congrArg chars hvw
    rw [chars_bare, chars_bare] at hchars
    exact hw (hchars ▸ hv)
  have hlines : (((w :: ws).map bare).map Token.word).dropWhile (· == .op '\n') =
      ((w :: ws).map bare).map Token.word :=
    List.dropWhile_cons_of_neg (by simp)
  rw [read, tokens_join h, hbare, Option.bind_some, parse, hlines, words_map_word, List.map_cons]
  exact if_neg hfirst

theorem fields_bare {args : List (List Char)} : fields (args.map bare) = some args ↔
    ∀ a ∈ args, tilde (bare a) = false ∧ pattern (bare a) = false := by
  induction args with
  | nil => simp [fields]
  | cons a args ih =>
    have hfield : field (bare a) = some a ↔ tilde (bare a) = false ∧ pattern (bare a) = false := by
      simp [field]
    rw [List.forall_mem_cons, ← ih, ← hfield, List.map_cons, fields]
    cases field (bare a) <;> cases fields (args.map bare) <;> simp

section First
variable {w : Word} {ws : List Word}

/-- A first word that is no assignment. -/
theorem command_fields (h : ('=', false) ∈ w → w.head? = some ('=', false)) :
    command (w :: ws) = (fields (w :: ws)).map fun argv => ⟨[], argv⟩ := by
  rw [command]
  cases hright : w.dropWhile (· != ('=', false)) with
  | nil => rfl
  | cons c right =>
    have hw := dropWhile_cons hright
    have hmem : ('=', false) ∈ w := by
      rw [hw]
      simp
    have hleft : w.takeWhile (· != ('=', false)) = [] := by
      obtain ⟨w', rfl⟩ := List.head?_eq_some_iff.mp (h hmem)
      simp
    simp [hleft]

/-- A first word that is one, or may be one. -/
theorem assigns_ne_nil {c : Command} (hmem : ('=', false) ∈ w) (hhead : w.head? ≠ some ('=', false))
    (h : command (w :: ws) = some c) : c.assigns ≠ [] := by
  have hleft : w.takeWhile (· != ('=', false)) ≠ [] := by
    intro hnil
    cases w with
    | nil => cases hmem
    | cons d w =>
      have hd : d ≠ ('=', false) := fun hd => hhead (by rw [hd]; rfl)
      rw [List.takeWhile_cons_of_pos (by simpa using hd)] at hnil
      cases hnil
  rw [command] at h
  split at h
  next hright =>
    have hall := List.dropWhile_eq_nil_iff.mp hright ('=', false) hmem
    simp at hall
  next c' right hright =>
    rw [if_neg hleft] at h
    split_ifs at h
    obtain ⟨v, -, h⟩ := Option.bind_eq_some_iff.mp h
    obtain ⟨rest, -, rfl⟩ := Option.map_eq_some_iff.mp h
    exact List.cons_ne_nil _ _

end First

/-- A command without assignments. -/
theorem command_bare {args : List (List Char)} : command (args.map bare) = some ⟨[], args⟩ ↔
    (∀ a ∈ args, tilde (bare a) = false ∧ pattern (bare a) = false) ∧
      ∀ a ∈ args.head?, '=' ∈ a → a.head? = some '=' := by
  cases args with
  | nil => simp [command]
  | cons a args =>
    have hmem : ('=', false) ∈ bare a ↔ '=' ∈ a := by simp [bare]
    have hhead : (bare a).head? = some ('=', false) ↔ a.head? = some '=' := by
      cases a <;> simp [bare]
    rw [← fields_bare]
    constructor
    · intro h
      have hfirst : ('=', false) ∈ bare a → (bare a).head? = some ('=', false) := by
        intro hm
        by_contra hne
        exact assigns_ne_nil hm hne h rfl
      refine ⟨?_, by simpa [hmem, hhead] using hfirst⟩
      rw [List.map_cons, command_fields hfirst] at h
      simpa using h
    · rintro ⟨hfields, hfirst⟩
      have hfirst' : ('=', false) ∈ bare a → (bare a).head? = some ('=', false) := by
        rw [hmem, hhead]
        exact hfirst a rfl
      rw [List.map_cons, command_fields hfirst', ← List.map_cons, hfields, Option.map_some]

/-- What a shell takes as it is written: an assignment of `value` and then `args`. -/
structure AsWritten (value : List Char) (args : List (List Char)) : Prop where
  chars : ∀ w ∈ value :: args, ∀ c ∈ w, c ∉ special
  value : tilde (bare value) = false ∧ tildeAfterColon (bare value) = false
  filled : ∀ a ∈ args, a ≠ []
  literal : ∀ a ∈ args, a.head? ≠ some '#' ∧ tilde (bare a) = false ∧ pattern (bare a) = false
  command : ∀ a ∈ args.head?, '=' ∈ a → a.head? = some '='

section Assign
variable {n v : List Char} {args : List (List Char)} (hn : name (bare n) = true)
include hn

theorem name_chars : ∀ c ∈ n, c.isAlphanum = true ∨ c = '_' := by
  intro c hc
  have hall := (Bool.and_eq_true_iff.mp hn).2
  have hmem : (c, false) ∈ bare n := List.mem_map_of_mem hc
  simpa [nameChar] using List.all_eq_true.mp hall (c, false) hmem

theorem plain_assign : Plain (n ++ '=' :: v) ↔ ∀ c ∈ v, c ∉ special := by
  have hspecial : ∀ d ∈ '#' :: special, d.isAlphanum = false ∧ d ≠ '_' ∧ d ≠ '=' := by
    have hall : (('#' :: special).all fun d => !d.isAlphanum && d != '_' && d != '=') = true := rfl
    simpa [and_assoc] using List.all_eq_true.mp hall
  have hchars : ∀ c ∈ n ++ ['='], c ∉ '#' :: special := by
    intro c hc hmem
    obtain ⟨halnum, hunder, hequals⟩ := hspecial c hmem
    rcases List.mem_append.mp hc with hn' | hc
    · simpa [halnum, hunder] using name_chars hn c hn'
    · exact hequals (List.mem_singleton.mp hc)
  constructor
  · exact fun h c hc => h.chars c (by simp [hc])
  · intro h
    refine ⟨by simp, fun c hc => ?_, fun hhead => ?_⟩
    · rw [List.append_cons] at hc
      rcases List.mem_append.mp hc with hc | hc
      · exact fun hmem => hchars c hc (List.mem_cons_of_mem _ hmem)
      · exact h c hc
    · have hmem : '#' ∈ n ++ ['='] := by
        cases n with
        | nil => cases hhead
        | cons d n => simpa using Or.inl (Option.some.inj hhead).symm
      exact hchars '#' hmem List.mem_cons_self

theorem command_assign (ws : List Word) :
    command (bare (n ++ '=' :: v) :: ws) =
      (value (bare v)).bind fun u => (command ws).map fun c => { c with assigns := (n, u) :: c.assigns } := by
  have hequals : ∀ c ∈ bare n, (c != ('=', false)) = true := by
    intro c hc
    obtain ⟨d, hd, rfl⟩ := List.mem_map.mp hc
    have hne : d ≠ '=' := by
      rintro rfl
      exact absurd (name_chars hn '=' hd) (by decide)
    simpa [bne] using hne
  have hbare : bare (n ++ '=' :: v) = bare n ++ ('=', false) :: bare v := by simp [bare]
  have hleft : (bare (n ++ '=' :: v)).takeWhile (· != ('=', false)) = bare n := by
    rw [hbare, List.takeWhile_append_of_pos hequals]
    simp
  have hright : (bare (n ++ '=' :: v)).dropWhile (· != ('=', false)) = ('=', false) :: bare v := by
    rw [hbare, List.dropWhile_append_of_pos hequals]
    simp
  have hnil : bare n ≠ [] := by
    intro hnil
    rw [hnil] at hn
    cases hn
  rw [command, hleft, hright]
  simp [hnil, hn]

/-- **An assignment and a command joined by blanks** are read back exactly when they are as
written. -/
theorem read_assign :
    read (join ((n ++ '=' :: v) :: args)) = some ⟨[(n, v)], args⟩ ↔ AsWritten v args := by
  have hreserved : n ++ '=' :: v ∉ reserved := by
    intro hmem
    have hequals : ∀ r ∈ reserved, '=' ∉ r := by decide +kernel
    exact hequals _ hmem (by simp)
  have hcommand : command (((n ++ '=' :: v) :: args).map bare) = some ⟨[(n, v)], args⟩ ↔
      value (bare v) = some v ∧ command (args.map bare) = some ⟨[], args⟩ := by
    rw [List.map_cons, command_assign hn]
    constructor
    · intro h
      obtain ⟨u, hu, h⟩ := Option.bind_eq_some_iff.mp h
      obtain ⟨⟨assigns, argv⟩, hc, hcu⟩ := Option.map_eq_some_iff.mp h
      cases hcu
      exact ⟨hu, hc⟩
    · rintro ⟨hv, hargs⟩
      rw [hv, hargs]
      rfl
  have hvalue : value (bare v) = some v ↔ tilde (bare v) = false ∧ tildeAfterColon (bare v) = false := by
    simp [value]
  constructor
  · intro h
    have hplain : ∀ w ∈ (n ++ '=' :: v) :: args, Plain w := texts_join.mp (read_texts h)
    rw [read_join hplain hreserved, hcommand, hvalue, command_bare] at h
    obtain ⟨hassign, hargs⟩ := List.forall_mem_cons.mp hplain
    refine ⟨List.forall_mem_cons.mpr ⟨(plain_assign hn).mp hassign, fun a ha => (hargs a ha).chars⟩,
      h.1, fun a ha => (hargs a ha).filled, fun a ha => ⟨(hargs a ha).noComment, h.2.1 a ha⟩, h.2.2⟩
  · intro h
    have hplain : ∀ w ∈ (n ++ '=' :: v) :: args, Plain w := by
      obtain ⟨hv, hargs⟩ := List.forall_mem_cons.mp h.chars
      exact List.forall_mem_cons.mpr ⟨(plain_assign hn).mpr hv,
        fun a ha => ⟨h.filled a ha, hargs a ha, (h.literal a ha).1⟩⟩
    rw [read_join hplain hreserved, hcommand, hvalue, command_bare]
    exact ⟨h.value, fun a ha => (h.literal a ha).2, h.command⟩

end Assign

end Apue.Shell

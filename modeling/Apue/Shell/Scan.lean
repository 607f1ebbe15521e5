import Mathlib.Data.List.Basic

/-! How `sh` splits a line into tokens.

One character at a time, in a mode. Quoting characters, blanks and comments do not reach
the words, so the words are what is left of the line (`scan_text`), and a line that
lost nothing but blanks had no special character in it (`literal_of_lossless`). A
character stands for a byte. -/
namespace Apue.Shell

/-- The characters of a word; `true` is for a quoted one. -/
abbrev Word := List (Char × Bool)

def chars (w : Word) : List Char := w.map Prod.fst

/-- A word with nothing quoted. -/
def bare (cs : List Char) : Word := cs.map fun c => (c, false)

@[simp] theorem chars_bare (cs : List Char) : chars (bare cs) = cs := by
  simp [chars, bare, Function.comp_def]

def apostrophe : Char := '\x27'
def quotationMark : Char := '\x22'
def backquote : Char := '\x60'

/-- The characters of operators, and the newline. -/
def operators : List Char := ['\n', ';', '&', '|', '<', '>', '(', ')']

/-- The characters that never stand for themselves. -/
def special : List Char :=
  ['\\', apostrophe, quotationMark, '$', backquote, ' ', '\t'] ++ operators

/-- Operators of several characters are several tokens. -/
inductive Token where
  | word (w : Word)
  | op (c : Char)
  deriving DecidableEq, Repr

inductive Mode where
  | bare
  | escaped
  | single
  | double
  | doubleEscaped
  | comment
  deriving DecidableEq, Repr

structure Scan where
  mode : Mode
  word : Option Word
  tokens : List Token
  deriving DecidableEq, Repr

namespace Scan

/-- Between two words, where a line begins. -/
def between (tokens : List Token) : Scan := ⟨.bare, none, tokens⟩

def push (s : Scan) (c : Char) (quoted : Bool) : Scan :=
  { s with word := some (s.word.getD [] ++ [(c, quoted)]) }

/-- An opening quote begins a word, be it an empty one. -/
def quote (s : Scan) (mode : Mode) : Scan := { s with mode, word := some (s.word.getD []) }

def flush (s : Scan) : Scan :=
  match s.word with
  | none => s
  | some w => { s with word := none, tokens := s.tokens ++ [.word w] }

def operator (s : Scan) (c : Char) : Scan := { s.flush with tokens := s.flush.tokens ++ [.op c] }

/-- `none` where what is read depends on more than the line. -/
def step (s : Scan) (c : Char) : Option Scan :=
  match s.mode with
  | .bare =>
    if c = '\\' then some { s with mode := .escaped }
    else if c = apostrophe then some (s.quote .single)
    else if c = quotationMark then some (s.quote .double)
    else if c = '$' ∨ c = backquote then none
    else if c = ' ' ∨ c = '\t' then some s.flush
    else if c ∈ operators then some (s.operator c)
    else if c = '#' ∧ s.word = none then some { s with mode := .comment }
    else some (s.push c false)
  | .escaped =>
    if c = '\n' then some { s with mode := .bare }
    else some { s.push c true with mode := .bare }
  | .single =>
    if c = apostrophe then some { s with mode := .bare }
    else some (s.push c true)
  | .double =>
    if c = quotationMark then some { s with mode := .bare }
    else if c = '\\' then some { s with mode := .doubleEscaped }
    else if c = '$' ∨ c = backquote then none
    else some (s.push c true)
  | .doubleEscaped =>
    if c = '\n' then some { s with mode := .double }
    else if c ∈ ['$', backquote, quotationMark, '\\'] then some { s.push c true with mode := .double }
    else some { (s.push '\\' true).push c true with mode := .double }
  | .comment =>
    if c = '\n' then some { s.operator c with mode := .bare }
    else some s

def run : Scan → List Char → Option Scan
  | s, [] => some s
  | s, c :: cs =>
    match s.step c with
    | some s' => run s' cs
    | none => none

end Scan

/-- The tokens of a line, `none` also where a quote is left open. -/
def tokens (line : List Char) : Option (List Token) :=
  match (Scan.between []).run line with
  | some s => if s.mode = .bare ∨ s.mode = .comment then some s.flush.tokens else none
  | none => none

/-! ### What is left of a line -/

def Token.chars : Token → List Char
  | .word w => Shell.chars w
  | .op _ => []

namespace Scan

/-- What has reached the words. -/
def text (s : Scan) : List Char := s.tokens.flatMap Token.chars ++ chars (s.word.getD [])

/-- What may still reach them. -/
def held (s : Scan) : List Char := if s.mode = .doubleEscaped then ['\\'] else []

@[simp] theorem text_push (s : Scan) (c : Char) (q : Bool) : (s.push c q).text = s.text ++ [c] := by
  simp [text, push, chars]

@[simp] theorem text_quote (s : Scan) (mode : Mode) : (s.quote mode).text = s.text := rfl

@[simp] theorem text_flush (s : Scan) : s.flush.text = s.text := by
  cases h : s.word <;> simp [flush, text, h, Token.chars, chars]

theorem word_flush (s : Scan) : s.flush.word = none := by
  cases h : s.word <;> simp [flush, h]

theorem flatMap_flush (s : Scan) : s.flush.tokens.flatMap Token.chars = s.text := by
  rw [← text_flush, text, word_flush]
  exact (List.append_nil _).symm

@[simp] theorem text_operator (s : Scan) (c : Char) : (s.operator c).text = s.text := by
  have hword : (s.operator c).word = none := s.word_flush
  rw [text, hword, ← flatMap_flush]
  simp [operator, Token.chars, chars]

@[simp] theorem text_mode (s : Scan) (mode : Mode) : { s with mode }.text = s.text := rfl

@[simp] theorem mode_push (s : Scan) (c : Char) (q : Bool) : (s.push c q).mode = s.mode := rfl

@[simp] theorem mode_quote (s : Scan) (mode : Mode) : (s.quote mode).mode = mode := rfl

@[simp] theorem mode_flush (s : Scan) : s.flush.mode = s.mode := by
  cases h : s.word <;> simp [flush, h]

@[simp] theorem mode_operator (s : Scan) (c : Char) : (s.operator c).mode = s.mode := s.mode_flush

/-- A step passes its character on or loses it. -/
theorem step_text {s s' : Scan} {c : Char} (h : s.step c = some s') :
    List.Sublist (s'.text ++ s'.held) (s.text ++ s.held ++ [c]) := by
  cases hmode : s.mode <;> simp only [step, hmode] at h <;> split_ifs at h
  all_goals
    cases h
    simp [held, hmode]
  -- a backslash between double quotes is held back
  simp [*]

theorem run_cons {s s' : Scan} {c : Char} {cs : List Char} :
    s.run (c :: cs) = some s' ↔ ∃ t, s.step c = some t ∧ t.run cs = some s' := by
  rw [run]
  cases s.step c <;> simp

theorem run_text {s s' : Scan} {line : List Char} (h : s.run line = some s') :
    List.Sublist (s'.text ++ s'.held) (s.text ++ s.held ++ line) := by
  induction line generalizing s with
  | nil =>
    cases h
    simp
  | cons c cs ih =>
    obtain ⟨t, hstep, hrest⟩ := run_cons.mp h
    have htext := (step_text hstep).append_right cs
    rw [List.append_assoc _ [c] cs, List.singleton_append] at htext
    exact (ih hrest).trans htext

/-! ### Lines without special characters -/

/-- What a character does that is not special. -/
def keep (s : Scan) (c : Char) : Scan := if c = ' ' then s.flush else s.push c false

/-- The characters that stand for themselves where they are, and the blanks between words. -/
def Stands (s : Scan) (c : Char) : Prop := c = ' ' ∨ c ∉ special ∧ (c = '#' → s.word ≠ none)

def Literal : Scan → List Char → Prop
  | _, [] => True
  | s, c :: cs => s.Stands c ∧ Literal (s.keep c) cs

@[simp] theorem mode_keep (s : Scan) (c : Char) : (s.keep c).mode = s.mode := by
  by_cases h : c = ' ' <;> simp [keep, h]

theorem text_keep (s : Scan) (c : Char) : (s.keep c).text = s.text ++ [c].filter (· ≠ ' ') := by
  by_cases h : c = ' ' <;> simp [keep, h]

theorem text_foldl_keep (s : Scan) (line : List Char) :
    (line.foldl keep s).text = s.text ++ line.filter (· ≠ ' ') := by
  induction line generalizing s with
  | nil => simp
  | cons c cs ih =>
    rw [List.foldl_cons, ih, text_keep, List.append_assoc, ← List.filter_append,
      List.singleton_append]

theorem step_stands {s : Scan} {c : Char} (hmode : s.mode = .bare) (h : s.Stands c) :
    s.step c = some (s.keep c) := by
  rcases h with rfl | ⟨hspecial, hcomment⟩
  · simp [step, hmode, keep, apostrophe, quotationMark, backquote]
  · have hc : ∀ d ∈ special, c ≠ d := fun d hd hcd => hspecial (hcd ▸ hd)
    have hop : c ∉ operators := fun hmem => hspecial (List.mem_append_right _ hmem)
    have hhash : ¬ (c = '#' ∧ s.word = none) := fun ⟨hc', hword⟩ => hcomment hc' hword
    have hspace : c ≠ ' ' := hc ' ' (by decide)
    simp [step, hmode, keep, hop, hhash, hspace, hc '\\' (by decide), hc apostrophe (by decide),
      hc quotationMark (by decide), hc '$' (by decide), hc backquote (by decide),
      hc '\t' (by decide)]

/-- Any other character is lost. -/
theorem step_loses {s s' : Scan} {c : Char} (hmode : s.mode = .bare) (hc : ¬ s.Stands c)
    (h : s.step c = some s') : s'.text = s.text ∧ s'.held = [] := by
  simp only [step, hmode] at h
  split_ifs at h with hbackslash hapostrophe hmark hdollar hblank hop hhash
  all_goals cases h
  all_goals simp [held, hmode]
  -- only an ordinary character is pushed
  exact hc (Or.inr ⟨by simp [special, *], fun h hword => hhash ⟨h, hword⟩⟩)

theorem run_literal {s : Scan} {line : List Char} (hmode : s.mode = .bare) (h : s.Literal line) :
    s.run line = some (line.foldl keep s) := by
  induction line generalizing s with
  | nil => rfl
  | cons c cs ih =>
    rw [run, step_stands hmode h.1]
    exact ih (by rw [mode_keep, hmode]) h.2

/-- **A line that loses nothing but blanks** has no special character. -/
theorem literal_of_lossless {s s' : Scan} {line : List Char} (hmode : s.mode = .bare)
    (h : s.run line = some s')
    (hkept : ∀ c, c ≠ ' ' → (s.text ++ line).count c ≤ s'.text.count c) : s.Literal line := by
  induction line generalizing s with
  | nil => trivial
  | cons c cs ih =>
    obtain ⟨t, hstep, hrest⟩ := run_cons.mp h
    by_cases hc : s.Stands c
    · cases (step_stands hmode hc).symm.trans hstep
      refine ⟨hc, ih (by rw [mode_keep, hmode]) hrest fun d hd => ?_⟩
      have hcount : ([c].filter (· ≠ ' ')).count d = [c].count d := by
        rw [List.count_filter (by simpa using hd)]
      have hd' := hkept d hd
      simp only [text_keep, List.count_append, hcount]
      rwa [List.count_append, ← List.singleton_append, List.count_append, ← Nat.add_assoc] at hd'
    · exfalso
      obtain ⟨htext, hheld⟩ := step_loses hmode hc hstep
      have hsub : List.Sublist s'.text (s.text ++ cs) := by
        have hrun := run_text hrest
        rw [htext, hheld, List.append_nil] at hrun
        exact (List.sublist_append_left _ _).trans hrun
      have hlost := hsub.count_le c
      have hc' := hkept c fun hblank => hc (Or.inl hblank)
      simp only [List.count_append, List.count_cons_self] at hlost hc'
      omega

end Scan

/-! ### Words with a blank after each -/

def join (ws : List (List Char)) : List Char := ws.flatMap (· ++ [' '])

/-- A word that is read as it is written. -/
structure Plain (w : List Char) : Prop where
  filled : w ≠ []
  chars : ∀ c ∈ w, c ∉ special
  noComment : w.head? ≠ some '#'

def Token.word? : Token → Option Word
  | .word w => some w
  | .op _ => none

/-- The words among tokens, without their quoting. -/
def texts (ts : List Token) : List (List Char) := (ts.filterMap Token.word?).map chars

theorem run_of_tokens {line : List Char} {ts : List Token} (h : tokens line = some ts) :
    ∃ s, (Scan.between []).run line = some s ∧ s.flush.tokens = ts := by
  rw [tokens] at h
  cases hrun : (Scan.between []).run line with
  | none => simp [hrun] at h
  | some s =>
    simp only [hrun] at h
    split_ifs at h
    cases h
    exact ⟨s, rfl, rfl⟩

theorem flatten_texts (ts : List Token) : (texts ts).flatten = ts.flatMap Token.chars := by
  induction ts with
  | nil => rfl
  | cons t ts ih =>
    cases t with
    | word w => simpa [texts, Token.word?, Token.chars] using ih
    | op c => exact ih

namespace Scan

theorem foldl_keep_word {v : Word} {ts : List Token} {w : List Char} (h : ' ' ∉ w) :
    w.foldl keep ⟨.bare, some v, ts⟩ = ⟨.bare, some (v ++ bare w), ts⟩ := by
  induction w generalizing v with
  | nil => simp [bare]
  | cons c w ih =>
    have hc : c ≠ ' ' := fun hc => h (hc ▸ List.mem_cons_self)
    rw [List.foldl_cons]
    simpa [keep, hc, push, bare] using ih (v := v ++ [(c, false)]) fun hw => h (List.mem_cons_of_mem c hw)

/-- A word and its blank. -/
theorem foldl_keep_blank {ts : List Token} {w : List Char} (h : ' ' ∉ w) :
    (w ++ [' ']).foldl keep (between ts) = between (ts ++ if w = [] then [] else [.word (bare w)]) := by
  rw [List.foldl_append]
  cases w with
  | nil => simp [keep, between, flush]
  | cons c w =>
    have hc : c ≠ ' ' := fun hc => h (hc ▸ List.mem_cons_self)
    have hpush : (between ts).keep c = ⟨.bare, some [(c, false)], ts⟩ := by
      simp [keep, hc, push, between]
    have hword : (c :: w).foldl keep (between ts) = ⟨.bare, some (bare (c :: w)), ts⟩ := by
      rw [List.foldl_cons, hpush, foldl_keep_word fun hw => h (List.mem_cons_of_mem c hw)]
      rfl
    rw [hword]
    rfl

theorem foldl_keep_join {ts : List Token} {ws : List (List Char)} (h : ∀ w ∈ ws, ' ' ∉ w) :
    (join ws).foldl keep (between ts) =
      between (ts ++ (ws.filter (· ≠ [])).map fun w => .word (bare w)) := by
  induction ws generalizing ts with
  | nil => simp [join]
  | cons w ws ih =>
    obtain ⟨hw, hws⟩ := List.forall_mem_cons.mp h
    have hjoin : join (w :: ws) = (w ++ [' ']) ++ join ws := List.flatMap_cons
    rw [hjoin, List.foldl_append, foldl_keep_blank hw, ih hws]
    by_cases hnil : w = [] <;> simp [hnil, between]

theorem literal_append {s : Scan} {line rest : List Char} :
    s.Literal (line ++ rest) ↔ s.Literal line ∧ (line.foldl keep s).Literal rest := by
  induction line generalizing s with
  | nil => simp [Literal]
  | cons c cs ih => simp [Literal, ih, and_assoc]

theorem literal_inside {v : Word} {ts : List Token} {w : List Char} (h : ' ' ∉ w) :
    Literal ⟨.bare, some v, ts⟩ w ↔ ∀ c ∈ w, c ∉ special := by
  induction w generalizing v with
  | nil => simp [Literal]
  | cons c w ih =>
    have hc : c ≠ ' ' := fun hc => h (hc ▸ List.mem_cons_self)
    have hpush : keep ⟨.bare, some v, ts⟩ c = ⟨.bare, some (v ++ [(c, false)]), ts⟩ := by
      simp [keep, hc, push]
    rw [Literal, hpush, ih fun hw => h (List.mem_cons_of_mem c hw)]
    simp [Stands, hc]

theorem literal_word {ts : List Token} {w : List Char} (h : ' ' ∉ w) :
    (between ts).Literal w ↔ (∀ c ∈ w, c ∉ special) ∧ w.head? ≠ some '#' := by
  cases w with
  | nil => simp [Literal]
  | cons c w =>
    have hc : c ≠ ' ' := fun hc => h (hc ▸ List.mem_cons_self)
    have hpush : (between ts).keep c = ⟨.bare, some [(c, false)], ts⟩ := by
      simp [keep, hc, push, between]
    rw [Literal, hpush, literal_inside fun hw => h (List.mem_cons_of_mem c hw)]
    simp [Stands, hc, between]
    tauto

theorem literal_join {ts : List Token} {ws : List (List Char)} (h : ∀ w ∈ ws, ' ' ∉ w) :
    (between ts).Literal (join ws) ↔
      ∀ w ∈ ws, (∀ c ∈ w, c ∉ special) ∧ w.head? ≠ some '#' := by
  induction ws generalizing ts with
  | nil => simp [join, Literal]
  | cons w ws ih =>
    obtain ⟨hw, hws⟩ := List.forall_mem_cons.mp h
    have hjoin : join (w :: ws) = (w ++ [' ']) ++ join ws := List.flatMap_cons
    have hblank : (w.foldl keep (between ts)).Literal [' '] := ⟨Or.inl rfl, trivial⟩
    rw [hjoin, literal_append, foldl_keep_blank hw, ih hws, literal_append, literal_word hw]
    simp [hblank]

end Scan

theorem tokens_join {ws : List (List Char)} (h : ∀ w ∈ ws, Plain w) :
    tokens (join ws) = some (ws.map fun w => .word (bare w)) := by
  have hblank : ∀ w ∈ ws, ' ' ∉ w := fun w hw hmem => (h w hw).chars ' ' hmem (by decide)
  have hliteral : (Scan.between []).Literal (join ws) :=
    (Scan.literal_join hblank).mpr fun w hw => ⟨(h w hw).chars, (h w hw).noComment⟩
  have hfilled : ws.filter (· ≠ []) = ws :=
    List.filter_eq_self.mpr fun w hw => by simpa using (h w hw).filled
  have hrun := Scan.run_literal rfl hliteral
  rw [Scan.foldl_keep_join hblank, hfilled, List.nil_append] at hrun
  rw [tokens, hrun]
  rfl

theorem filter_join (ws : List (List Char)) :
    (join ws).filter (· ≠ ' ') = ws.flatten.filter (· ≠ ' ') := by
  induction ws with
  | nil => rfl
  | cons w ws ih =>
    have hjoin : join (w :: ws) = (w ++ [' ']) ++ join ws := List.flatMap_cons
    have hblank : [' '].filter (· ≠ ' ') = [] := rfl
    rw [hjoin, List.flatten_cons, List.filter_append, List.filter_append, List.filter_append, ih,
      hblank, List.append_nil]

theorem count_join (ws : List (List Char)) {c : Char} (h : c ≠ ' ') :
    (join ws).count c = ws.flatten.count c := by
  have hc : decide (c ≠ ' ') = true := by simpa using h
  have hfilter : ∀ cs : List Char, (cs.filter (· ≠ ' ')).count c = cs.count c :=
    fun cs => List.count_filter hc
  rw [← hfilter, filter_join, hfilter]

/-- **Words joined by blanks are read back** exactly when every one of them is plain. -/
theorem texts_join {ws : List (List Char)} :
    (tokens (join ws)).map texts = some ws ↔ ∀ w ∈ ws, Plain w := by
  constructor
  · intro h
    obtain ⟨ts, htokens, hts⟩ := Option.map_eq_some_iff.mp h
    obtain ⟨s, hrun, rfl⟩ := run_of_tokens htokens
    have htext : s.text = ws.flatten := by
      rw [← s.flatMap_flush, ← flatten_texts, hts]
    have hliteral : (Scan.between []).Literal (join ws) :=
      Scan.literal_of_lossless rfl hrun fun c hc => by
        rw [htext, ← count_join ws hc]
        exact Nat.le_refl _
    cases (Scan.run_literal rfl hliteral).symm.trans hrun
    have hkept : ws.flatten = ws.flatten.filter (· ≠ ' ') := by
      rw [← filter_join, ← htext, Scan.text_foldl_keep]
      rfl
    have hblank : ∀ w ∈ ws, ' ' ∉ w := fun w hw hmem => by
      have hflat : ' ' ∈ ws.flatten := List.mem_flatten_of_mem hw hmem
      rw [hkept] at hflat
      simp at hflat
    have hfilled : ws.filter (· ≠ []) = ws := by
      rw [Scan.foldl_keep_join hblank] at hts
      simpa [Scan.flush, Scan.between, texts, Token.word?, Function.comp_def] using hts
    intro w hw
    obtain ⟨hchars, hhead⟩ := (Scan.literal_join hblank).mp hliteral w hw
    exact ⟨by simpa using List.filter_eq_self.mp hfilled w hw, hchars, hhead⟩
  · intro h
    rw [tokens_join h]
    simp [texts, Token.word?, Function.comp_def]

end Apue.Shell

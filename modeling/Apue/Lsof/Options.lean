import Apue.Lsof.Table
import Apue.Transition.Run

/-! The options of `lsof`.

The constructor of `Filter` goes through `argv` by index, where a pattern is read one index after its
option. The number of arguments is odd, so that this index is in range: `options_iff`. -/
namespace Apue.Lsof
open Transition

/-- How the constructor ends without a filter. A read at an index without an argument is `beyond`. -/
inductive Stop where
  | exit (code : Int)
  | regexError (pattern : Text)
  | beyond (index : Nat)
  deriving DecidableEq, Repr

/-- The options `-c`, `-f` and `-t`. -/
inductive Opt where
  | c | f | t
  deriving DecidableEq, Repr

def Filter.get (f : Filter) : Opt → Regex
  | .c => f.command
  | .f => f.filename
  | .t => f.type

def Filter.set (f : Filter) (o : Opt) (r : Regex) : Filter :=
  match o with
  | .c => { f with command := r }
  | .f => { f with filename := r }
  | .t => { f with type := r }

theorem Filter.get_set (f : Filter) (o o' : Opt) (r : Regex) :
    (f.set o r).get o' = if o = o' then r else f.get o' := by
  cases o <;> cases o' <;> rfl

/-- The option that follows a `-`. -/
def optionOf (name : Text) : Option Opt :=
  if name = "c".toList then some .c
  else if name = "f".toList then some .f
  else if name = "t".toList then some .t
  else none

def argAt (argv : List Text) (i : Nat) : Except Stop Text :=
  match argv[i]? with
  | some arg => .ok arg
  | none => .error (.beyond i)

/-- The constructor of `regex`, which throws at what is no regular expression. -/
def regex (compile : Text → Option Regex) (pattern : Text) : Except Stop Regex :=
  match compile pattern with
  | some r => .ok r
  | none => .error (.regexError pattern)

def filterLoop (compile : Text → Option Regex) (argv : List Text) (i : Nat) (f : Filter) :
    Except Stop Filter :=
  if i < argv.length then do
    let arg ← argAt argv i
    if arg.head? = some '-' then
      match optionOf (arg.drop 1) with
      | some o => do
        let pattern ← argAt argv (i + 1)
        let r ← regex compile pattern
        filterLoop compile argv (i + 2) (f.set o r)
      | none => .error (.exit 1)
    else .error (.exit 1)
  else .ok f
termination_by argv.length - i

def newFilter (compile : Text → Option Regex) (argv : List Text) : Except Stop Filter := do
  let command ← regex compile ".*".toList
  let filename ← regex compile ".*".toList
  let type ← regex compile ".*".toList
  if 1 < argv.length ∧ argv.length % 2 = 0 then .error (.exit 1)
  else filterLoop compile argv 1 ⟨command, filename, type⟩

/-! ### The grammar -/

def Opt.text : Opt → Text
  | .c => "-c".toList
  | .f => "-f".toList
  | .t => "-t".toList

/-- The arguments that give options their patterns. -/
def spell (ps : List (Opt × Text)) : List Text := ps.flatMap fun p => [p.1.text, p.2]

/-- The pattern of the last pair with the option. -/
def lastOf (o : Opt) (ps : List (Opt × Text)) : Option Text :=
  ((ps.filter fun p => decide (p.1 = o)).getLast?).map Prod.snd

/-- `.*` and the patterns of the pairs at the head are regular expressions. -/
structure Valid (compile : Text → Option Regex) (argv : List Text) : Prop where
  all : (compile ".*".toList).isSome = true
  patterns : ∀ ps rest, argv.drop 1 = spell ps ++ rest → ∀ p ∈ ps, (compile p.2).isSome = true

theorem optionOf_iff {arg : Text} {o : Opt} :
    arg.head? = some '-' ∧ optionOf (arg.drop 1) = some o ↔ arg = o.text := by
  constructor
  · intro ⟨hhead, hoption⟩
    obtain ⟨cs, rfl⟩ := List.head?_eq_some_iff.mp hhead
    rw [List.drop_one, List.tail_cons] at hoption
    unfold optionOf at hoption
    repeat' split at hoption
    all_goals cases hoption
    all_goals next h => rw [h]; rfl
  · rintro rfl
    cases o <;> decide

theorem lastOf_cons (o : Opt) (p : Opt × Text) (ps : List (Opt × Text)) :
    lastOf o (p :: ps) = (lastOf o ps).or (if p.1 = o then some p.2 else none) := by
  unfold lastOf
  by_cases h : p.1 = o
  · rw [List.filter_cons_of_pos (by simpa using h), List.getLast?_cons, if_pos h]
    cases (ps.filter fun p => decide (p.1 = o)).getLast? <;> rfl
  · rw [List.filter_cons_of_neg (by simpa using h), if_neg h, Option.or_none]

/-! ### The loop -/

variable {compile : Text → Option Regex} {argv : List Text} {i : Nat} {f : Filter}

theorem argAt_eq_ok {arg : Text} : argAt argv i = .ok arg ↔ argv[i]? = some arg := by
  unfold argAt
  cases argv[i]? <;> simp

theorem regex_eq_ok {pattern : Text} {r : Regex} :
    regex compile pattern = .ok r ↔ compile pattern = some r := by
  unfold regex
  cases compile pattern <;> simp

/-- One turn of the loop that goes on. -/
theorem filterLoop_ok {f' : Filter} (h : filterLoop compile argv i f = .ok f') :
    (argv.length ≤ i ∧ f' = f) ∨ ∃ o pattern r, argv[i]? = some o.text ∧ argv[i + 1]? = some pattern ∧
      compile pattern = some r ∧ filterLoop compile argv (i + 2) (f.set o r) = .ok f' := by
  rw [filterLoop] at h
  split at h
  case isFalse hi =>
    cases h
    exact .inl ⟨Nat.not_lt.mp hi, rfl⟩
  case isTrue hi =>
    obtain ⟨arg, harg, h⟩ := bind_ok.mp h
    split at h
    case isFalse => cases h
    case isTrue hhead =>
      split at h
      case h_2 => cases h
      case h_1 o hoption =>
        obtain ⟨pattern, hpattern, h⟩ := bind_ok.mp h
        obtain ⟨r, hr, h⟩ := bind_ok.mp h
        have htext := optionOf_iff.mp ⟨hhead, hoption⟩
        exact .inr ⟨o, pattern, r, htext ▸ argAt_eq_ok.mp harg, argAt_eq_ok.mp hpattern,
          regex_eq_ok.mp hr, h⟩

theorem drop_pair {option pattern : Text} (ho : argv[i]? = some option) (hp : argv[i + 1]? = some pattern) :
    argv.drop i = option :: pattern :: argv.drop (i + 2) := by
  obtain ⟨hi, rfl⟩ := List.getElem?_eq_some_iff.mp ho
  obtain ⟨hi', rfl⟩ := List.getElem?_eq_some_iff.mp hp
  rw [List.drop_eq_getElem_cons hi, List.drop_eq_getElem_cons hi']

/-- What is accepted is a sequence of pairs. -/
theorem spell_of_filterLoop {f' : Filter} (h : filterLoop compile argv i f = .ok f') :
    ∃ ps, argv.drop i = spell ps := by
  induction hn : argv.length - i using Nat.strongRecOn generalizing i f with
  | ind n ih =>
    rcases filterLoop_ok h with ⟨hi, -⟩ | ⟨o, pattern, r, ho, hp, -, hrest⟩
    · exact ⟨[], List.drop_eq_nil_of_le hi⟩
    · have hi : i < argv.length := (List.getElem?_eq_some_iff.mp ho).1
      obtain ⟨ps, hps⟩ := ih (argv.length - (i + 2)) (by omega) hrest rfl
      exact ⟨(o, pattern) :: ps, by rw [drop_pair ho hp, hps]; rfl⟩

/-- One turn for a pair whose pattern is a regular expression. -/
theorem filterLoop_pair {o : Opt} {pattern : Text} {r : Regex} (ho : argv[i]? = some o.text)
    (hp : argv[i + 1]? = some pattern) (hr : compile pattern = some r) :
    filterLoop compile argv i f = filterLoop compile argv (i + 2) (f.set o r) := by
  have hi : i < argv.length := (List.getElem?_eq_some_iff.mp ho).1
  obtain ⟨hhead, hoption⟩ := optionOf_iff.mpr (rfl : o.text = o.text)
  rw [filterLoop, if_pos hi, argAt_eq_ok.mpr ho]
  simp only [bind, Except.bind, hhead, if_true, hoption, argAt_eq_ok.mpr hp, regex_eq_ok.mpr hr]

/-- A sequence of pairs is accepted, and the last pattern of each option is kept. -/
theorem filterLoop_spell {ps : List (Opt × Text)} (h : argv.drop i = spell ps)
    (hvalid : ∀ p ∈ ps, (compile p.2).isSome = true) :
    ∃ f', filterLoop compile argv i f = .ok f' ∧
      ∀ o, some (f'.get o) = (lastOf o ps).elim (some (f.get o)) compile := by
  induction ps generalizing i f with
  | nil =>
    have hi : argv.length ≤ i := List.drop_eq_nil_iff.mp h
    refine ⟨f, ?_, fun o => rfl⟩
    rw [filterLoop, if_neg (Nat.not_lt.mpr hi)]
  | cons p ps ih =>
    obtain ⟨hp, hps⟩ := List.forall_mem_cons.mp hvalid
    obtain ⟨r, hr⟩ := Option.isSome_iff_exists.mp hp
    have hdrop : argv.drop i = p.1.text :: p.2 :: spell ps := h
    have ho : argv[i]? = some p.1.text := by
      rw [← List.head?_drop, hdrop, List.head?_cons]
    have htail : argv.drop (i + 1) = p.2 :: spell ps := by
      rw [← List.tail_drop, hdrop, List.tail_cons]
    have hpattern : argv[i + 1]? = some p.2 := by
      rw [← List.head?_drop, htail, List.head?_cons]
    have hrest : argv.drop (i + 2) = spell ps := by
      rw [← List.tail_drop, htail, List.tail_cons]
    obtain ⟨f', hloop, hget⟩ := ih (f := f.set p.1 r) hrest hps
    refine ⟨f', (filterLoop_pair ho hpattern hr).trans hloop, fun o => ?_⟩
    rw [hget, lastOf_cons, Filter.get_set]
    cases lastOf o ps with
    | some pattern => rfl
    | none =>
      by_cases hpo : p.1 = o
      · simp [hpo, hr]
      · simp [hpo]

/-- **The loop stays in range**: as many arguments are left as pairs need. -/
theorem filterLoop_inBounds (h : (argv.length - i) % 2 = 0) (j : Nat) :
    filterLoop compile argv i f ≠ .error (.beyond j) := by
  induction hn : argv.length - i using Nat.strongRecOn generalizing i f with
  | ind n ih =>
    rw [filterLoop]
    split
    case isFalse => exact nofun
    case isTrue hi =>
      have ho : argAt argv i = .ok argv[i] := argAt_eq_ok.mpr (List.getElem?_eq_getElem hi)
      have hi' : i + 1 < argv.length := by omega
      have hp : argAt argv (i + 1) = .ok argv[i + 1] := argAt_eq_ok.mpr (List.getElem?_eq_getElem hi')
      rw [ho]
      simp only [bind, Except.bind, hp]
      split
      case isFalse => exact nofun
      case isTrue =>
        split
        case h_2 => exact nofun
        case h_1 o _ =>
          cases hr : regex compile argv[i + 1] with
          | error e =>
            unfold regex at hr
            split at hr
            · cases hr
            · cases hr
              exact nofun
          | ok r => exact ih (argv.length - (i + 2)) (by omega) (by omega) rfl

/-! ### The constructor -/

theorem newFilter_eq {r : Regex} (h : compile ".*".toList = some r) : newFilter compile argv =
    if 1 < argv.length ∧ argv.length % 2 = 0 then .error (.exit 1) else filterLoop compile argv 1 ⟨r, r, r⟩ := by
  rw [newFilter, regex_eq_ok.mpr h]
  rfl

theorem newFilter_inBounds (compile : Text → Option Regex) (argv : List Text) (j : Nat) :
    newFilter compile argv ≠ .error (.beyond j) := by
  cases hr : compile ".*".toList with
  | none =>
    have hregex : regex compile ".*".toList = .error (.regexError ".*".toList) := by rw [regex, hr]
    rw [newFilter, hregex]
    exact nofun
  | some r =>
    rw [newFilter_eq hr]
    split
    · exact nofun
    · next hcount => exact filterLoop_inBounds (by omega) j

theorem length_spell (ps : List (Opt × Text)) : (spell ps).length = 2 * ps.length := by
  induction ps with
  | nil => rfl
  | cons p ps ih =>
    have hcons : spell (p :: ps) = p.1.text :: p.2 :: spell ps := rfl
    rw [hcons, List.length_cons, List.length_cons, List.length_cons, ih]
    omega

/-- A sequence of pairs is not turned away by the count, and gives the filter its patterns. -/
theorem newFilter_spell {ps : List (Opt × Text)} (hvalid : Valid compile argv) (h : argv.drop 1 = spell ps) :
    ∃ f, newFilter compile argv = .ok f ∧
      ∀ o, some (f.get o) = compile ((lastOf o ps).getD ".*".toList) := by
  obtain ⟨r, hr⟩ := Option.isSome_iff_exists.mp hvalid.all
  have hlen := congrArg List.length h
  rw [List.length_drop, length_spell] at hlen
  obtain ⟨f, hloop, hget⟩ := filterLoop_spell (f := ⟨r, r, r⟩) h
    (hvalid.patterns ps [] (by rw [List.append_nil, h]))
  refine ⟨f, ?_, fun o => ?_⟩
  · rw [newFilter_eq hr, if_neg (by omega), hloop]
  · rw [hget]
    cases lastOf o ps with
    | some pattern => rfl
    | none =>
      have hall : (⟨r, r, r⟩ : Filter).get o = r := by cases o <;> rfl
      rw [Option.elim_none, hall, Option.getD_none, hr]

/-- **The options are accepted exactly when they are pairs**, the last pattern of each counts, and
no argument is read that is not there. -/
theorem options_iff (compile : Text → Option Regex) (argv : List Text) :
    (∀ i, newFilter compile argv ≠ .error (.beyond i)) ∧
      (Valid compile argv →
        ((∃ f, newFilter compile argv = .ok f) ↔ ∃ ps, argv.drop 1 = spell ps) ∧
        ∀ ps f, argv.drop 1 = spell ps → newFilter compile argv = .ok f →
          ∀ o, some (f.get o) = compile ((lastOf o ps).getD ".*".toList)) := by
  refine ⟨newFilter_inBounds compile argv, fun hvalid => ⟨⟨?_, ?_⟩, ?_⟩⟩
  · intro ⟨f, hf⟩
    obtain ⟨r, hr⟩ := Option.isSome_iff_exists.mp hvalid.all
    rw [newFilter_eq hr] at hf
    split at hf
    · cases hf
    · exact spell_of_filterLoop hf
  · intro ⟨ps, hps⟩
    obtain ⟨f, hf, -⟩ := newFilter_spell hvalid hps
    exact ⟨f, hf⟩
  · intro ps f hps hf
    obtain ⟨f', hf', hget⟩ := newFilter_spell hvalid hps
    rw [hf] at hf'
    cases hf'
    exact hget

/-- Regular expressions without special characters, and `.*`. -/
def literal (pattern : Text) : Option Regex :=
  if pattern = ".*".toList then some ⟨fun _ => true, fun t => decide ('\n' ∉ t ∧ '\r' ∉ t)⟩
  else if pattern.all (fun c => c.isAlphanum || c == '-') then
    some ⟨fun t => decide (pattern <:+: t), fun t => decide (t = pattern)⟩
  else none

theorem mem_spell {p : Opt × Text} {ps : List (Opt × Text)} (h : p ∈ ps) : p.2 ∈ spell ps :=
  List.mem_flatMap.mpr ⟨p, h, by simp⟩

def sampleArgs : List Text :=
  ["lsof".toList, "-t".toList, "DIR".toList, "-c".toList, "-f".toList, "-t".toList, "REG".toList]

/-- A pattern that looks like an option, and an option given twice. -/
theorem options_pattern : ∃ f, newFilter literal sampleArgs = .ok f ∧
    some f.command = literal "-f".toList ∧ some f.filename = literal ".*".toList ∧
    some f.type = literal "REG".toList := by
  have hall : ∀ arg ∈ sampleArgs, (literal arg).isSome = true := by decide +kernel
  have hvalid : Valid literal sampleArgs := by
    refine ⟨by decide, fun ps rest hargs p hp => hall _ ?_⟩
    have hmem : p.2 ∈ sampleArgs.drop 1 := hargs ▸ List.mem_append_left rest (mem_spell hp)
    exact List.mem_of_mem_drop hmem
  obtain ⟨hiff, hlast⟩ := (options_iff literal sampleArgs).2 hvalid
  obtain ⟨f, hf⟩ := hiff.mpr ⟨[(.t, "DIR".toList), (.c, "-f".toList), (.t, "REG".toList)], rfl⟩
  have hget := hlast [(.t, "DIR".toList), (.c, "-f".toList), (.t, "REG".toList)] f rfl hf
  exact ⟨f, hf, hget .c, hget .f, hget .t⟩

end Apue.Lsof

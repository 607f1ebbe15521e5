import Apue.Logger.Record
import Mathlib.Data.Nat.Digits.Defs

/-! What is in a record.

`Arg.text` is the text of an argument whose string or stream is there, however long it is,
and a lookup leaves its mark on `errno` and on nothing else; with these `run_iff` says what a
call leaves and writes. -/
namespace Apue.Logger
open Memory CLib Transition

variable {ρ : Type}

/-! ### Quoting -/

def quoted (s : List Byte) : List Byte := byteOfChar '"' :: (s.map dot ++ [byteOfChar '"'])

theorem quoteFrom_eq {i : Nat} {s : List Byte} (hi : i < 2 ^ 31) :
    quoteFrom i s = if i + s.length < 2 ^ 31 then some (s.map dot) else none := by
  induction s generalizing i with
  | nil =>
    rw [quoteFrom, List.length_nil, Nat.add_zero, if_pos hi]
    rfl
  | cons b s ih =>
    unfold quoteFrom
    by_cases hlast : i + 1 = 2 ^ 31
    · rw [if_pos hlast, if_neg (by simp only [List.length_cons]; omega)]
    · rw [if_neg hlast, ih (by omega), List.length_cons, Nat.add_right_comm, Nat.add_assoc]
      split <;> rfl

theorem quote_eq (s : List Byte) : quote s = if s.length < 2 ^ 31 then some (quoted s) else none := by
  rw [quote, quoteFrom_eq (by decide), Nat.zero_add]
  split <;> rfl

theorem quoted_length (s : List Byte) : (quoted s).length = s.length + 2 := by
  simp [quoted]

/-- A field that `quote` can make: its `int` does not run over. -/
def Quotable (text : List Byte) : Prop := text.length < 2 ^ 31 + 2

instance (text : List Byte) : Decidable (Quotable text) :=
  inferInstanceAs (Decidable (text.length < 2 ^ 31 + 2))

/-- What `quote` gives is the quoted text, and it gives it if it can. -/
theorem quote_some {s text : List Byte} (h : quote s = some text) :
    Quotable (quoted s) ∧ text = quoted s := by
  rw [quote_eq] at h
  rw [Quotable, quoted_length]
  split at h
  case isTrue hlen => exact ⟨by omega, (Option.some.inj h).symm⟩
  case isFalse => cases h

theorem quote_of_quotable {s : List Byte} (h : Quotable (quoted s)) : quote s = some (quoted s) := by
  rw [Quotable, quoted_length] at h
  rw [quote_eq, if_pos (by omega)]

/-- No number is too long. -/
theorem quotable_decimalInt (v : BitVec 32) : Quotable (decimalInt v) := by
  have hrange : v.toInt.natAbs < 10 ^ 10 := by
    have hlow := v.le_toInt
    have hhigh := v.toInt_lt
    omega
  have hdigits : (decimal v.toInt.natAbs).length ≤ 10 := Nat.toDigits_length 10 _ 10 (by decide) hrange
  unfold Quotable decimalInt
  rw [List.length_map]
  split
  · rw [List.length_cons]
    omega
  · omega

theorem quotable_octal (v : BitVec 32) : Quotable (octal v) := by
  have hdigits : (Nat.toDigits 8 v.toNat).length ≤ 11 :=
    Nat.toDigits_length 8 _ 11 (by decide) (by omega)
  simp only [Quotable, octal, List.length_map, List.length_append, List.length_replicate]
  omega

/-! ### Arguments -/

/-- The text of a link. -/
def Process.target (p : Process ρ) (link : List Byte) : List Byte :=
  match p.readlink link with
  | .ok target => target.bytes.take 1023
  | .error _ => link

def Process.looked (p : Process ρ) : Option (List Byte) → Process ρ
  | none => p
  | some link => p.tried (p.readlink link)

/-- The link that is looked up. -/
def Arg.link (a : Arg) (p : Process ρ) : Option (List Byte) :=
  match resolution a.type with
  | some .filePtr => (p.fileno a.value).map fdPath
  | some .int => if a.tag = "fd" then some (fdPath (a.value.setWidth 32)) else none
  | _ => none

/-- The string or the stream is there. -/
def Arg.there (a : Arg) (p : Process ρ) : Bool :=
  match resolution a.type with
  | some .filePtr => (p.fileno a.value).isSome
  | some .int => true
  | _ => (stringAt p.mem a.value).isSome

def Arg.text (a : Arg) (p : Process ρ) : List Byte :=
  match resolution a.type with
  | some .filePtr => (p.fileno a.value).elim [] fun fd => quoted (p.target (fdPath fd))
  | some .int =>
    if a.tag = "fd" then quoted (p.target (fdPath (a.value.setWidth 32)))
    else if a.tag = "mode" ∨ a.tag = "flag" then octal (a.value.setWidth 32)
    else decimalInt (a.value.setWidth 32)
  | _ => (stringAt p.mem a.value).elim [] quoted

def lookedAll : List Arg → Process ρ → Process ρ
  | [], p => p
  | a :: rest, p => lookedAll rest (p.looked (a.link p))

theorem resolution_ne_string (type : CType) : resolution type ≠ some .string := by
  cases type <;> decide

theorem resolution_ne_none (type : CType) : resolution type ≠ none := by
  cases type <;> decide

theorem Arg.there_ptr {a : Arg} {p : Process ρ} (h : resolution a.type = some .constVoidPtr) :
    a.there p = (stringAt p.mem a.value).isSome := by
  rw [Arg.there, h]

theorem Arg.text_ptr {a : Arg} {p : Process ρ} {s : List Byte}
    (h : resolution a.type = some .constVoidPtr) (hs : stringAt p.mem a.value = some s) :
    a.text p = quoted s := by
  rw [Arg.text, h, hs]
  rfl

/-- A lookup changes `errno` at most. -/
theorem Process.looked_eq (p : Process ρ) (l : Option (List Byte)) :
    ∃ e, p.looked l = { p with errno := e } := by
  cases l with
  | none => exact ⟨p.errno, rfl⟩
  | some link =>
    rw [Process.looked]
    cases p.readlink link with
    | ok target => exact ⟨p.errno, rfl⟩
    | error e => exact ⟨e, rfl⟩

theorem lookedAll_eq (as : List Arg) (p : Process ρ) : ∃ e, lookedAll as p = { p with errno := e } := by
  induction as generalizing p with
  | nil => exact ⟨p.errno, rfl⟩
  | cons a rest ih =>
    obtain ⟨e, he⟩ := p.looked_eq (a.link p)
    obtain ⟨e', he'⟩ := ih (p.looked (a.link p))
    exact ⟨e', by rw [lookedAll, he', he]⟩

@[simp]
theorem Arg.text_looked (a : Arg) (p : Process ρ) (l : Option (List Byte)) :
    a.text (p.looked l) = a.text p := by
  obtain ⟨e, he⟩ := p.looked_eq l
  rw [he]
  rfl

@[simp]
theorem Arg.there_looked (a : Arg) (p : Process ρ) (l : Option (List Byte)) :
    a.there (p.looked l) = a.there p := by
  obtain ⟨e, he⟩ := p.looked_eq l
  rw [he]
  rfl

theorem safeReadlink_eq (link : List Byte) (p : Process ρ) :
    safeReadlink link p = (p.target link, p.looked (some link)) := by
  rw [safeReadlink, Process.target, Process.looked]
  cases p.readlink link <;> rfl

theorem resolveLink_eq (fd : BitVec 32) (p : Process ρ) : resolveLink fd p =
    (quote (p.target (fdPath fd))).map fun text => (text, p.looked (some (fdPath fd))) := by
  rw [resolveLink, safeReadlink_eq]

theorem resolveLink_some {fd : BitVec 32} {p q : Process ρ} {text : List Byte}
    (h : resolveLink fd p = some (text, q)) :
    Quotable (quoted (p.target (fdPath fd))) ∧ text = quoted (p.target (fdPath fd)) ∧
      q = p.looked (some (fdPath fd)) := by
  rw [resolveLink_eq] at h
  obtain ⟨text', hquote, heq⟩ := Option.map_eq_some_iff.mp h
  obtain ⟨rfl, rfl⟩ := Prod.mk.inj heq
  obtain ⟨hquotable, htext⟩ := quote_some hquote
  exact ⟨hquotable, htext, rfl⟩

/-- **What is resolved**: the text of the argument, if its string or stream is there. -/
theorem resolve_some {a : Arg} {p q : Process ρ} {text : List Byte} (h : resolve a p = some (text, q)) :
    a.there p ∧ Quotable (a.text p) ∧ text = a.text p ∧ q = p.looked (a.link p) := by
  unfold resolve at h
  unfold Arg.there Arg.text Arg.link
  cases hover : resolution a.type with
  | none => exact absurd hover (resolution_ne_none _)
  | some o =>
    cases o with
    | string => exact absurd hover (resolution_ne_string _)
    | filePtr =>
      simp only [hover, resolveStream] at h
      obtain ⟨fd, hfd, h⟩ := Option.bind_eq_some_iff.mp h
      simp only [hfd]
      exact ⟨rfl, resolveLink_some h⟩
    | constVoidPtr =>
      simp only [hover, resolvePtr] at h
      obtain ⟨s, hs, h⟩ := Option.bind_eq_some_iff.mp h
      obtain ⟨text', hquote, heq⟩ := Option.bind_eq_some_iff.mp h
      obtain ⟨rfl, rfl⟩ := Prod.mk.inj (Option.some.inj heq)
      obtain ⟨hquotable, htext⟩ := quote_some hquote
      simp only [hs]
      exact ⟨rfl, hquotable, htext, rfl⟩
    | int =>
      simp only [hover, resolveInt] at h
      refine ⟨rfl, ?_⟩
      by_cases hfd : a.tag = "fd"
      · rw [if_pos hfd] at h
        simp only [if_pos hfd]
        exact resolveLink_some h
      · rw [if_neg hfd] at h
        simp only [if_neg hfd]
        by_cases hmode : a.tag = "mode" ∨ a.tag = "flag"
        · rw [if_pos hmode] at h
          obtain ⟨rfl, rfl⟩ := Prod.mk.inj (Option.some.inj h)
          rw [if_pos hmode]
          exact ⟨quotable_octal _, rfl, rfl⟩
        · rw [if_neg hmode] at h
          obtain ⟨rfl, rfl⟩ := Prod.mk.inj (Option.some.inj h)
          rw [if_neg hmode]
          exact ⟨quotable_decimalInt _, rfl, rfl⟩

/-- A text that is there and can be quoted is resolved. -/
theorem resolve_of_there {a : Arg} {p : Process ρ} (h : a.there p) (hlen : Quotable (a.text p)) :
    resolve a p = some (a.text p, p.looked (a.link p)) := by
  unfold Arg.there at h
  unfold Arg.text at hlen
  unfold resolve Arg.text Arg.link
  cases hover : resolution a.type with
  | none => exact absurd hover (resolution_ne_none _)
  | some o =>
    cases o with
    | string => exact absurd hover (resolution_ne_string _)
    | filePtr =>
      simp only [hover] at h hlen
      obtain ⟨fd, hfd⟩ := Option.isSome_iff_exists.mp h
      simp only [hfd, Option.elim] at hlen
      simp [resolveStream, hfd, resolveLink_eq, quote_of_quotable hlen]
    | constVoidPtr =>
      simp only [hover] at h hlen
      obtain ⟨s, hs⟩ := Option.isSome_iff_exists.mp h
      simp only [hs, Option.elim] at hlen
      simp [resolvePtr, hs, quote_of_quotable hlen, Process.looked]
    | int =>
      simp only [hover] at hlen
      by_cases hfd : a.tag = "fd"
      · rw [if_pos hfd] at hlen
        simp [resolveInt, hfd, resolveLink_eq, quote_of_quotable hlen]
      · by_cases hmode : a.tag = "mode" ∨ a.tag = "flag"
        · simp [resolveInt, hfd, hmode, Process.looked]
        · simp [resolveInt, hfd, hmode, Process.looked]

theorem resolveAll_some {as : List Arg} {p q : Process ρ} {texts : List (List Byte)}
    (h : resolveAll as p = some (texts, q)) :
    (∀ a ∈ as, a.there p) ∧ (∀ text ∈ texts, Quotable text) ∧ texts = as.map (·.text p) ∧
      q = lookedAll as p := by
  induction as generalizing p texts with
  | nil =>
    obtain ⟨rfl, rfl⟩ := Prod.mk.inj (Option.some.inj h)
    exact ⟨List.forall_mem_nil _, List.forall_mem_nil _, rfl, rfl⟩
  | cons a rest ih =>
    obtain ⟨⟨text, p'⟩, ha, h⟩ := Option.bind_eq_some_iff.mp h
    obtain ⟨⟨texts', q'⟩, hrest, heq⟩ := Option.bind_eq_some_iff.mp h
    obtain ⟨rfl, rfl⟩ := Prod.mk.inj (Option.some.inj heq)
    obtain ⟨hthere, hquotable, htext, hlooked⟩ := resolve_some ha
    obtain ⟨htheres, hquotables, htexts, hq⟩ := ih hrest
    rw [hlooked] at htheres htexts hq
    simp only [Arg.there_looked, Arg.text_looked] at htheres htexts
    refine ⟨List.forall_mem_cons.mpr ⟨hthere, htheres⟩,
      List.forall_mem_cons.mpr ⟨htext ▸ hquotable, hquotables⟩, ?_, hq⟩
    rw [List.map_cons, ← htext, ← htexts]

theorem resolveAll_of_there {as : List Arg} {p : Process ρ} (h : ∀ a ∈ as, a.there p)
    (hlen : ∀ a ∈ as, Quotable (a.text p)) :
    resolveAll as p = some (as.map (·.text p), lookedAll as p) := by
  induction as generalizing p with
  | nil => rfl
  | cons a rest ih =>
    obtain ⟨ha, hrest⟩ := List.forall_mem_cons.mp h
    obtain ⟨hlena, hlenrest⟩ := List.forall_mem_cons.mp hlen
    have hnext := ih (p := p.looked (a.link p)) (by simpa using hrest) (by simpa using hlenrest)
    simp [resolveAll, resolve_of_there ha hlena, hnext, lookedAll]

/-! ### Calls -/

/-- The libc call of a wrapper: its result and the state it leaves. -/
def Call.called (libc : Libc (Process ρ)) (c : Call) (s : State (Process ρ)) :
    Value × State (Process ρ) :=
  c.func.wrapper.call libc c.args { s with env := lookedAll c.early s.env }

/-- The process as that call leaves it. -/
def Call.left (libc : Libc (Process ρ)) (c : Call) (s : State (Process ρ)) : Process ρ :=
  (c.called libc s).2.env

/-- The state the wrapper leaves. -/
def Call.after (libc : Libc (Process ρ)) (c : Call) (s : State (Process ρ)) : State (Process ρ) :=
  { (c.called libc s).2 with env := lookedAll c.late (c.left libc s) }

/-- After its libc function a wrapper changes `errno` at most. -/
theorem Call.after_env (libc : Libc (Process ρ)) (c : Call) (s : State (Process ρ)) :
    ∃ e, (c.after libc s).env = { c.left libc s with errno := e } :=
  lookedAll_eq c.late (c.left libc s)

/-- All strings and streams it resolves are there. -/
def Call.There (libc : Libc (Process ρ)) (c : Call) (s : State (Process ρ)) : Prop :=
  (∀ a ∈ c.early, a.there s.env) ∧ ∀ a ∈ c.late, a.there (c.left libc s)

instance (libc : Libc (Process ρ)) (c : Call) (s : State (Process ρ)) : Decidable (c.There libc s) :=
  inferInstanceAs (Decidable ((∀ a ∈ c.early, a.there s.env) ∧ ∀ a ∈ c.late, a.there (c.left libc s)))

def Call.record (libc : Libc (Process ρ)) (c : Call) (s : State (Process ρ)) : Record :=
  ⟨c.func, c.early.map (·.text s.env) ++ c.late.map (·.text (c.left libc s)),
    c.func.result (c.called libc s).1⟩

/-- `quote` gets to the end of all its strings. -/
def Call.Quotable (libc : Libc (Process ρ)) (c : Call) (s : State (Process ρ)) : Prop :=
  ∀ text ∈ (c.record libc s).fields, Logger.Quotable text

instance (libc : Libc (Process ρ)) (c : Call) (s : State (Process ρ)) : Decidable (c.Quotable libc s) :=
  inferInstanceAs (Decidable (∀ text ∈ (c.record libc s).fields, Logger.Quotable text))

/-- A field is a part of the record. -/
theorem Record.field_infix {r : Record} {text : List Byte} (h : text ∈ r.fields) : text <:+: r.text := by
  have hjoined : text ∈ r.fields.intersperse (ascii ", ") := by
    obtain ⟨i, hi⟩ := List.mem_iff_getElem?.mp h
    exact List.mem_iff_getElem?.mpr ⟨2 * i, by rw [List.getElem?_intersperse_two_mul, hi]⟩
  refine (List.infix_of_mem_flatten hjoined).trans ⟨ascii "[logger] " ++ ascii r.func.func ++ ascii "(",
    ascii ") = " ++ r.ret ++ ascii "\n", ?_⟩
  simp only [Record.text, List.append_assoc]

/-- `quote` can make all that is in a record that `dprintf` can write. -/
theorem quotable_of_length {libc : Libc (Process ρ)} {c : Call} {s : State (Process ρ)}
    (h : (c.record libc s).text.length < 2 ^ 31) : c.Quotable libc s := by
  intro text htext
  have hle := (Record.field_infix htext).length_le
  unfold Logger.Quotable
  omega

/-- **A call**: it returns if what it resolves is there and can be quoted. -/
theorem run_iff {libc : Libc (Process ρ)} {c : Call} {s t : State (Process ρ)} {ret : Value}
    {r : Record} : c.run libc s = some (ret, t, r) ↔
      c.There libc s ∧ c.Quotable libc s ∧
        ret = (c.called libc s).1 ∧ t = c.after libc s ∧ r = c.record libc s := by
  constructor
  · intro h
    obtain ⟨⟨early, p⟩, hearly, h⟩ := Option.bind_eq_some_iff.mp h
    obtain ⟨hthere, hquotable, rfl, rfl⟩ := resolveAll_some hearly
    obtain ⟨⟨late, q⟩, hlate, h⟩ := Option.bind_eq_some_iff.mp h
    obtain ⟨hthere', hquotable', rfl, rfl⟩ := resolveAll_some hlate
    simp only [Option.some.injEq, Prod.mk.injEq] at h
    obtain ⟨rfl, rfl, rfl⟩ := h
    refine ⟨⟨hthere, hthere'⟩, fun text htext => ?_, rfl, rfl, rfl⟩
    exact (List.mem_append.mp htext).elim (hquotable text) (hquotable' text)
  · rintro ⟨⟨hthere, hthere'⟩, hquotable, rfl, rfl, rfl⟩
    have hearly := resolveAll_of_there hthere fun a ha =>
      hquotable _ (List.mem_append_left _ (List.mem_map_of_mem ha))
    have hlate := resolveAll_of_there hthere' fun a ha =>
      hquotable _ (List.mem_append_right _ (List.mem_map_of_mem ha))
    rw [Call.run, hearly]
    change (resolveAll c.late (c.left libc s)).bind _ = _
    rw [hlate]
    rfl

theorem run_of_there {libc : Libc (Process ρ)} {c : Call} {s : State (Process ρ)} (h : c.There libc s)
    (hquotable : c.Quotable libc s) :
    c.run libc s = some ((c.called libc s).1, c.after libc s, c.record libc s) :=
  run_iff.mpr ⟨h, hquotable, rfl, rfl, rfl⟩

end Apue.Logger

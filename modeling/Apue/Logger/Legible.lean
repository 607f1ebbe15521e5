import Apue.Layout.Delimited
import Apue.Logger.Reveal

/-! What a line of the log tells.

The quotes in a string are logged as they are, so a text may look like two and what is
between them. Where the two texts of a record can be told apart, its line is the line of no
other record (`Record.Legible.eq`). -/
namespace Apue.Logger
open Memory CLib Layout

variable {ρ : Type}

/-- A call has the arguments that its function takes. -/
def Call.Complete (c : Call) : Prop := c.args.length = c.func.wrapper.func.params.length

abbrev mark : Byte := byteOfChar '"'

abbrev comma : List Byte := ascii ", "

/-- What is between the first quote of a line and the last. -/
def quotedPart (line : List Byte) : List Byte :=
  ((line.dropWhile (· ≠ mark)).tail.reverse.dropWhile (· ≠ mark)).tail.reverse

/-- The numbers that may stand between the two texts of a record. -/
def Symbol.Between : Symbol → List (List Byte) → Prop
  | .rename, ns | .fopen, ns | .read, ns | .write, ns => ns = []
  | .fread, ns | .fwrite, ns => ∃ n m, ns = [decimalInt n, decimalInt m]
  | _, _ => False

/-- The text of a link has at most 1023 bytes. -/
def Symbol.Fits : Symbol → List Byte → List Byte → Prop
  | .read, x, _ | .write, x, _ => x.length ≤ 1023
  | .fread, _, y | .fwrite, _, y => y.length ≤ 1023
  | _, _, _ => True

/-- What is quoted can be taken for `x` and `y`. -/
structure Reading (f : Symbol) (quoted x : List Byte) (ns : List (List Byte)) (y : List Byte) : Prop where
  between : f.Between ns
  fits : f.Fits x y
  parts : quoted = x ++ mark :: (led comma ns ++ (comma ++ mark :: y))

/-- The two texts can be told apart. -/
def Record.Legible (r : Record) : Prop :=
  ∀ x ns y x' ns' y', Reading r.func (quotedPart r.text) x ns y →
    Reading r.func (quotedPart r.text) x' ns' y' → x = x'

/-! ### The fields of a record -/

def Bare (b : Byte) : Prop := b ≠ mark ∧ b ≠ byteOfChar ',' ∧ b ≠ byteOfChar ')'

instance (b : Byte) : Decidable (Bare b) := inferInstanceAs (Decidable (_ ∧ _))

def enclosed (x : List Byte) : List Byte := mark :: (x ++ [mark])

/-- A record of these has one text. -/
def Symbol.Single : Symbol → Prop
  | .chmod | .chown | .close | .creat | .creat64 | .fclose | .open_ | .open64 => True
  | _ => False

/-- How many numbers come after the last text. -/
def Symbol.trailing : Symbol → Nat
  | .chmod | .creat | .creat64 | .read | .write => 1
  | .chown | .open_ | .open64 => 2
  | _ => 0

structure Numbers (n : Nat) (ns : List (List Byte)) : Prop where
  length : ns.length = n
  bare : ∀ text ∈ ns, ∀ b ∈ text, Bare b

/-- The fields that the functions have: none, a text, or two. -/
inductive Fields : Symbol → List (List Byte) → Prop where
  | none {f : Symbol} : f = .tmpfile ∨ f = .tmpfile64 → Fields f []
  | one {f : Symbol} {x : List Byte} {nums : List (List Byte)} :
      f.Single → Printable x → Numbers f.trailing nums → Fields f (enclosed x :: nums)
  | two {f : Symbol} {x y : List Byte} {ns nums : List (List Byte)} :
      f.Between ns → f.Fits x y → Printable x → Printable y → Numbers f.trailing nums →
      Fields f (enclosed x :: (ns ++ enclosed y :: nums))

theorem bare_digit : ∀ d < 16, Bare (byteOfChar (Nat.digitChar d)) := by
  decide

theorem bare_digits {base n : Nat} (hbase : 1 < base) (hle : base ≤ 16) :
    ∀ b ∈ (Nat.toDigits base n).map byteOfChar, Bare b := by
  obtain ⟨ds, -, hmap, hds, -⟩ := toDigits_map hbase n
  intro b hb
  rw [hmap, List.map_map] at hb
  obtain ⟨d, hd, rfl⟩ := List.mem_map.mp hb
  exact bare_digit d (Nat.lt_of_lt_of_le (hds d hd) hle)

theorem bare_decimalInt (v : BitVec 32) : ∀ b ∈ decimalInt v, Bare b := by
  intro b hb
  unfold decimalInt at hb
  split at hb
  case isTrue =>
    rw [List.map_cons] at hb
    rcases List.mem_cons.mp hb with rfl | hb
    · decide
    · exact bare_digits (by decide) (by decide) b hb
  case isFalse => exact bare_digits (by decide) (by decide) b hb

theorem bare_octal (v : BitVec 32) : ∀ b ∈ octal v, Bare b := by
  intro b hb
  simp only [octal, List.map_append] at hb
  rcases List.mem_append.mp hb with hb | hb
  · rw [List.map_replicate] at hb
    rw [List.eq_of_mem_replicate hb]
    decide
  · exact bare_digits (by decide) (by decide) b hb

/-- A result has no quotes. -/
theorem mark_notMem_result (f : Symbol) (ret : Value) : mark ∉ f.result ret := by
  have hdigits : mark ∉ (Nat.toDigits 16 ret.toNat).map byteOfChar :=
    fun hb => (bare_digits (by decide) (by decide) mark hb).1 rfl
  unfold Symbol.result
  split
  · unfold pointer
    split
    · decide
    · intro hb
      rcases List.mem_append.mp hb with hb | hb
      · exact absurd hb (by decide)
      · exact hdigits hb
  · exact fun hb => (bare_decimalInt _ mark hb).1 rfl

theorem Arg.text_number {a : Arg} {p : Process ρ} (hover : resolution a.type = some .int)
    (htag : a.tag ≠ "fd") : ∀ b ∈ a.text p, Bare b := by
  unfold Arg.text
  simp only [hover, if_neg htag]
  split
  · exact bare_octal _
  · exact bare_decimalInt _

theorem Arg.text_string {a : Arg} {p : Process ρ} (hover : resolution a.type = some .constVoidPtr)
    (hthere : a.there p) : ∃ x, a.text p = enclosed x ∧ Printable x := by
  rw [Arg.there_ptr hover] at hthere
  obtain ⟨s, hs⟩ := Option.isSome_iff_exists.mp hthere
  refine ⟨s.map dot, Arg.text_ptr hover hs, fun b hb => ?_⟩
  obtain ⟨c, -, rfl⟩ := List.mem_map.mp hb
  exact printable_dot c

theorem printable_dots (s : List Byte) : Printable (s.map dot) := by
  intro b hb
  obtain ⟨c, -, rfl⟩ := List.mem_map.mp hb
  exact printable_dot c

theorem length_fdPath (fd : BitVec 32) : (fdPath fd).length ≤ 1023 := by
  have hdigits : (Nat.toDigits 10 fd.toInt.natAbs).length ≤ 10 := by
    refine (Nat.length_toDigits_le_iff (by decide) (by decide)).mpr ?_
    have hlow := BitVec.le_toInt fd
    have hhigh := BitVec.toInt_lt (x := fd)
    omega
  have hint : (decimalInt fd).length ≤ 11 := by
    rw [decimalInt, List.length_map, decimal]
    split
    · exact Nat.succ_le_succ hdigits
    · exact Nat.le_succ_of_le hdigits
  have hlink : (ascii "/proc/self/fd/").length = 14 := by decide
  rw [fdPath, List.length_append, hlink]
  omega

theorem Arg.text_linked {a : Arg} {p : Process ρ} {fd : BitVec 32} (h : a.link p = some (fdPath fd)) :
    ∃ x, a.text p = enclosed x ∧ Printable x ∧ x.length ≤ 1023 := by
  refine ⟨(p.target (fdPath fd)).map dot, Arg.text_link h, printable_dots _, ?_⟩
  rw [List.length_map, Process.target]
  split
  · exact List.length_take_le ..
  · exact length_fdPath fd

theorem Arg.text_stream {a : Arg} {p : Process ρ} (hover : resolution a.type = some .filePtr)
    (hthere : a.there p) : ∃ x, a.text p = enclosed x ∧ Printable x ∧ x.length ≤ 1023 := by
  have hsome : (p.fileno a.value).isSome := by
    rwa [Arg.there, hover] at hthere
  obtain ⟨fd, hfd⟩ := Option.isSome_iff_exists.mp hsome
  have hlink : a.link p = some (fdPath fd) := by
    rw [Arg.link, hover]
    exact congrArg (Option.map fdPath) hfd
  exact Arg.text_linked hlink

/-- An argument that is logged as a number. -/
def Arg.Numeric (a : Arg) : Prop := resolution a.type = some .int ∧ a.tag ≠ "fd"

theorem numbers_of_numeric {as : List Arg} (h : ∀ a ∈ as, a.Numeric) (p : Process ρ) :
    Numbers as.length (as.map (·.text p)) := by
  refine ⟨List.length_map .., fun text htext => ?_⟩
  obtain ⟨a, ha, rfl⟩ := List.mem_map.mp htext
  exact Arg.text_number (h a ha).1 (h a ha).2

theorem fields_one {f : Symbol} {a : Arg} {p : Process ρ} (as : List Arg)
    (hf : f.Single) (ha : ∃ x, a.text p = enclosed x ∧ Printable x)
    (has : ∀ b ∈ as, b.Numeric) (hlen : as.length = f.trailing) : Fields f ((a :: as).map (·.text p)) := by
  obtain ⟨x, hx, hprint⟩ := ha
  rw [List.map_cons, hx]
  exact .one hf hprint (hlen ▸ numbers_of_numeric has p)

theorem fields_two {f : Symbol} {a b : Arg} {p : Process ρ} {x y : List Byte} (ms as : List Arg)
    (hms : f.Between (ms.map (·.text p))) (hfits : f.Fits x y) (ha : a.text p = enclosed x)
    (hx : Printable x) (hb : b.text p = enclosed y) (hy : Printable y) (has : ∀ c ∈ as, c.Numeric)
    (hlen : as.length = f.trailing) : Fields f ((a :: (ms ++ b :: as)).map (·.text p)) := by
  rw [List.map_cons, List.map_append, List.map_cons, ha, hb]
  exact .two hms hfits hx hy (hlen ▸ numbers_of_numeric has p)

/-- **What a call logs.** -/
theorem logged_fields {c : Call} (hc : c.Complete) {p : Process ρ}
    (hthere : ∀ a ∈ c.logged, a.there p) : Fields c.func (c.logged.map (·.text p)) := by
  obtain ⟨f, args⟩ := c
  have hfd : ∀ fd : Value, Arg.link ⟨"fd", .int, fd⟩ p = some (fdPath (fd.setWidth 32)) := fun _ => rfl
  cases f with
  | tmpfile | tmpfile64 =>
    obtain rfl := List.eq_nil_of_length_eq_zero hc
    exact .none (by decide)
  | chmod | creat | creat64 =>
    obtain ⟨path, mode, rfl⟩ := List.length_eq_two.mp hc
    have hpath := Arg.text_string resolution_spec.1 (List.forall_mem_cons.mp hthere).1
    exact fields_one _ trivial hpath (by simp [Arg.Numeric, resolution_spec]) rfl
  | chown | open_ | open64 =>
    obtain ⟨path, flag, mode, rfl⟩ := List.length_eq_three.mp hc
    have hpath := Arg.text_string resolution_spec.1 (List.forall_mem_cons.mp hthere).1
    exact fields_one _ trivial hpath (by simp [Arg.Numeric, resolution_spec]) rfl
  | close =>
    obtain ⟨fd, rfl⟩ := List.length_eq_one_iff.mp hc
    obtain ⟨x, hx, hprint, -⟩ := Arg.text_linked (hfd fd)
    exact fields_one [] trivial ⟨x, hx, hprint⟩ (List.forall_mem_nil _) rfl
  | fclose =>
    obtain ⟨stream, rfl⟩ := List.length_eq_one_iff.mp hc
    obtain ⟨x, hx, hprint, -⟩ := Arg.text_stream rfl (List.forall_mem_cons.mp hthere).1
    exact fields_one [] trivial ⟨x, hx, hprint⟩ (List.forall_mem_nil _) rfl
  | rename | fopen =>
    obtain ⟨old, new, rfl⟩ := List.length_eq_two.mp hc
    obtain ⟨hold, hnew⟩ := List.forall_mem_cons.mp hthere
    obtain ⟨x, hx, hxp⟩ := Arg.text_string resolution_spec.1 hold
    obtain ⟨y, hy, hyp⟩ := Arg.text_string resolution_spec.1 (List.forall_mem_cons.mp hnew).1
    exact fields_two [] [] rfl trivial hx hxp hy hyp (List.forall_mem_nil _) rfl
  | read | write =>
    obtain ⟨fd, buf, count, rfl⟩ := List.length_eq_three.mp hc
    obtain ⟨-, hrest⟩ := List.forall_mem_cons.mp hthere
    obtain ⟨x, hx, hxp, hlen⟩ := Arg.text_linked (hfd fd)
    obtain ⟨y, hy, hyp⟩ := Arg.text_string rfl (List.forall_mem_cons.mp hrest).1
    exact fields_two [] [⟨"", .unsignedLong, count⟩] rfl hlen hx hxp hy hyp
      (by simp [Arg.Numeric, resolution_spec]) rfl
  | fread | fwrite =>
    obtain ⟨ptr, size, nitems, stream, rfl⟩ := List.length_eq_four.mp hc
    obtain ⟨hptr, hrest⟩ := List.forall_mem_cons.mp hthere
    have hstream := hrest _ (.tail _ (.tail _ (.head _)))
    obtain ⟨x, hx, hxp⟩ := Arg.text_string rfl hptr
    obtain ⟨y, hy, hyp, hlen⟩ := Arg.text_stream rfl hstream
    exact fields_two [⟨"", .unsignedLong, size⟩, ⟨"", .unsignedLong, nitems⟩] []
      ⟨size.setWidth 32, nitems.setWidth 32, rfl⟩ hlen hx hxp hy hyp (List.forall_mem_nil _) rfl

/-! ### The line of a record -/

def headText (f : Symbol) : List Byte := ascii "[logger] " ++ (ascii f.func ++ ascii "(")

/-- What comes after the last text. -/
def tailText (nums : List (List Byte)) (ret : List Byte) : List Byte :=
  led comma nums ++ (ascii ") = " ++ (ret ++ ascii "\n"))

theorem text_headText (r : Record) : ∃ z, r.text = headText r.func ++ z :=
  ⟨(r.fields.intersperse comma).flatten ++ (ascii ") = " ++ (r.ret ++ ascii "\n")),
    by simp [Record.text, headText]⟩

theorem text_none (f : Symbol) (ret : List Byte) :
    Record.text ⟨f, [], ret⟩ = headText f ++ tailText [] ret := by
  simp [Record.text, headText, tailText, led]

theorem text_one (f : Symbol) (x : List Byte) (nums : List (List Byte)) (ret : List Byte) :
    Record.text ⟨f, enclosed x :: nums, ret⟩ =
      headText f ++ mark :: (x ++ mark :: tailText nums ret) := by
  simp [Record.text, headText, tailText, flatten_intersperse, enclosed]

theorem text_two (f : Symbol) (x y : List Byte) (ns nums : List (List Byte)) (ret : List Byte) :
    Record.text ⟨f, enclosed x :: (ns ++ enclosed y :: nums), ret⟩ =
      headText f ++ mark :: ((x ++ mark :: (led comma ns ++ (comma ++ mark :: y))) ++
        mark :: tailText nums ret) := by
  simp [Record.text, headText, tailText, flatten_intersperse, led, enclosed]

theorem mark_notMem_head (f : Symbol) : mark ∉ headText f := by
  cases f <;> decide

theorem mark_notMem_tail {n : Nat} {nums : List (List Byte)} {ret : List Byte} (hnums : Numbers n nums)
    (hret : mark ∉ ret) : mark ∉ tailText nums ret := by
  have hclose : mark ∉ ascii ") = " := by decide
  have hend : mark ∉ ascii "\n" := by decide
  have hcomma : mark ∉ comma := by decide
  simp only [tailText, led, List.mem_append, List.mem_flatMap, hclose, hend, hret, hcomma, or_false,
    false_or]
  rintro ⟨text, htext, hmem⟩
  exact (hnums.bare text htext mark hmem).1 rfl

theorem quotedPart_eq {pre post part : List Byte} (hpre : mark ∉ pre) (hpost : mark ∉ post) :
    quotedPart (pre ++ mark :: (part ++ mark :: post)) = part := by
  have hskip : ∀ {z : List Byte}, mark ∉ z → ∀ b ∈ z, decide (b ≠ mark) = true :=
    fun hz b hb => decide_eq_true fun hbm => hz (hbm ▸ hb)
  have hpost' : mark ∉ post.reverse := by simpa using hpost
  rw [quotedPart, List.dropWhile_append_of_pos (hskip hpre)]
  simp only [List.dropWhile_cons, ne_eq, not_true_eq_false, decide_false, Bool.false_eq_true, if_false,
    List.tail_cons, List.reverse_append, List.reverse_cons, List.append_assoc, List.singleton_append]
  rw [List.dropWhile_append_of_pos (hskip hpost')]
  simp

/-- The function of a name. -/
def ofFunc (name : List Byte) : Option Symbol :=
  [Symbol.chmod, .chown, .close, .creat, .creat64, .fclose, .fopen, .fread, .fwrite, .open_, .open64,
    .read, .rename, .tmpfile, .tmpfile64, .write].find? fun f => ascii f.func = name

theorem ofFunc_func (f : Symbol) : ofFunc (ascii f.func) = some f := by
  cases f <;> decide

theorem head_inj {f g : Symbol} {z z' : List Byte} (h : headText f ++ z = headText g ++ z') :
    f = g ∧ z = z' := by
  have hparen : ∀ f : Symbol, byteOfChar '(' ∉ ascii f.func := by
    intro f
    cases f <;> decide
  have hopen : ascii "(" = [byteOfChar '('] := rfl
  simp only [headText, hopen, List.append_assoc, List.append_cancel_left_eq, List.singleton_append] at h
  obtain ⟨hname, hrest⟩ := first_inj (hparen f) (hparen g) h
  have hfg := (ofFunc_func f).symm.trans ((congrArg ofFunc hname).trans (ofFunc_func g))
  exact ⟨Option.some.inj hfg, hrest⟩

theorem comma_not_bare : ∀ b ∈ comma.head?, ¬ Bare b := by
  intro b hb
  obtain rfl : byteOfChar ',' = b := Option.some.inj hb
  decide

theorem tail_inj {n : Nat} {nums nums' : List (List Byte)} {ret ret' : List Byte}
    (hnums : Numbers n nums) (hnums' : Numbers n nums') (h : tailText nums ret = tailText nums' ret') :
    nums = nums' ∧ ret = ret' := by
  have hclose : ∀ z, ∀ b ∈ (ascii ") = " ++ z).head?, ¬ Bare b := by
    intro z b hb
    obtain rfl : byteOfChar ')' = b := Option.some.inj hb
    decide
  obtain ⟨rfl, hz⟩ := led_inj (hnums.length.trans hnums'.length.symm) comma_not_bare (by decide)
    hnums.bare hnums'.bare (hclose _) (hclose _) h
  exact ⟨rfl, List.append_cancel_right (List.append_cancel_left hz)⟩

/-! ### Reading a record -/

/-- How many numbers stand between the two texts. -/
def Symbol.inner : Symbol → Nat
  | .fread | .fwrite => 2
  | _ => 0

theorem between_numbers {f : Symbol} {ns : List (List Byte)} (h : f.Between ns) : Numbers f.inner ns := by
  have hnil : Numbers 0 [] := ⟨rfl, fun _ hmem => absurd hmem List.not_mem_nil⟩
  cases f with
  | rename | fopen | read | write =>
    obtain rfl : ns = [] := h
    exact hnil
  | fread | fwrite =>
    obtain ⟨n, m, rfl⟩ := h
    refine ⟨rfl, List.forall_mem_cons.mpr ⟨bare_decimalInt n, ?_⟩⟩
    exact List.forall_mem_singleton.mpr (bare_decimalInt m)
  | _ => exact absurd h id

theorem not_between_of_single {f : Symbol} {ns : List (List Byte)} (h : f.Single) : ¬ f.Between ns := by
  cases f <;> first | exact absurd h id | exact id

/-- Two readings with the same first text are the same. -/
theorem reading_inj {f : Symbol} {part x y y' : List Byte} {ns ns' : List (List Byte)}
    (h : Reading f part x ns y) (h' : Reading f part x ns' y') : ns = ns' ∧ y = y' := by
  have hnums := between_numbers h.between
  have hnums' := between_numbers h'.between
  have hparts := List.append_cancel_left (h.parts.symm.trans h'.parts)
  have hstop : ∀ z, ∀ b ∈ (comma ++ mark :: z).head?, ¬ Bare b := fun z => comma_not_bare
  obtain ⟨hns, hrest⟩ := led_inj (hnums.length.trans hnums'.length.symm) comma_not_bare (by decide)
    hnums.bare hnums'.bare (hstop y) (hstop y') (List.cons.inj hparts).2
  exact ⟨hns, (List.cons.inj (List.append_cancel_left hrest)).2⟩

theorem quotedPart_text (f : Symbol) (part : List Byte) {ret : List Byte} {n : Nat}
    {nums : List (List Byte)} (hnums : Numbers n nums) (hret : mark ∉ ret) :
    quotedPart (headText f ++ mark :: (part ++ mark :: tailText nums ret)) = part :=
  quotedPart_eq (mark_notMem_head f) (mark_notMem_tail hnums hret)

/-- **A line of which the texts can be told apart is the line of one record.** -/
theorem Record.Legible.eq {r r' : Record} (hl : r.Legible) (hr : Fields r.func r.fields)
    (hr' : Fields r'.func r'.fields) (hret : mark ∉ r.ret) (hret' : mark ∉ r'.ret)
    (h : r.text = r'.text) : r = r' := by
  obtain ⟨f, fields, ret⟩ := r
  obtain ⟨f', fields', ret'⟩ := r'
  have hquoted : ∀ {part part' : List Byte} {nums nums' : List (List Byte)},
      Numbers f.trailing nums → Numbers f.trailing nums' →
      mark :: (part ++ mark :: tailText nums ret) = mark :: (part' ++ mark :: tailText nums' ret') →
      part = part' ∧ nums = nums' ∧ ret = ret' := by
    intro part part' nums nums' hnums hnums' heq
    obtain ⟨hpart, htail⟩ := last_inj (mark_notMem_tail hnums hret) (mark_notMem_tail hnums' hret')
      (List.cons.inj heq).2
    exact ⟨hpart, tail_inj hnums hnums' htail⟩
  obtain ⟨z, hz⟩ := text_headText ⟨f, fields, ret⟩
  obtain ⟨z', hz'⟩ := text_headText ⟨f', fields', ret'⟩
  obtain ⟨rfl, -⟩ := head_inj (hz.symm.trans (h.trans hz'))
  cases hr with
  | none hf =>
    cases hr' with
    | none =>
      rw [text_none, text_none] at h
      have hnil : Numbers 0 [] := ⟨rfl, fun _ hmem => absurd hmem List.not_mem_nil⟩
      rw [(tail_inj hnil hnil (List.append_cancel_left h)).2]
    | one hs => rcases hf with rfl | rfl <;> exact absurd hs id
    | two hb => rcases hf with rfl | rfl <;> exact absurd hb id
  | one hs _ hnums =>
    cases hr' with
    | none hf => rcases hf with rfl | rfl <;> exact absurd hs id
    | one _ _ hnums' =>
      rw [text_one, text_one] at h
      obtain ⟨rfl, rfl, rfl⟩ := hquoted hnums hnums' (List.append_cancel_left h)
      rfl
    | two hb => exact absurd hb (not_between_of_single hs)
  | @two x y ns nums hb hfits _ _ hnums =>
    cases hr' with
    | none hf => rcases hf with rfl | rfl <;> exact absurd hb id
    | one hs => exact absurd hb (not_between_of_single hs)
    | @two x' y' ns' nums' hb' hfits' _ _ hnums' =>
      have htext := text_two f x y ns nums ret
      have htext' := text_two f x' y' ns' nums' ret'
      obtain ⟨hpart, rfl, rfl⟩ := hquoted hnums hnums'
        (List.append_cancel_left (htext.symm.trans (h.trans htext')))
      have hread : Reading f (quotedPart (Record.text ⟨f, _, ret⟩)) x ns y :=
        ⟨hb, hfits, by rw [htext, quotedPart_text _ _ hnums hret]⟩
      have hread' : Reading f (quotedPart (Record.text ⟨f, _, ret⟩)) x' ns' y' :=
        ⟨hb', hfits', by rw [htext, quotedPart_text _ _ hnums hret, hpart]⟩
      obtain rfl := hl x ns y x' ns' y' hread hread'
      obtain ⟨rfl, rfl⟩ := reading_inj hread hread'
      rfl

/-- Texts without quotes can be told apart. -/
theorem legible_of_unquoted {f : Symbol} {x y ret : List Byte} {ms nums : List (List Byte)}
    (hms : Numbers f.inner ms) (hnums : Numbers f.trailing nums) (hret : mark ∉ ret) (hx : mark ∉ x)
    (hy : mark ∉ y) : Record.Legible ⟨f, enclosed x :: (ms ++ enclosed y :: nums), ret⟩ := by
  have htext := text_two f x y ms nums ret
  have hfree : ∀ {ns : List (List Byte)}, Numbers f.inner ns → mark ∉ led comma ns := by
    intro ns hns hmem
    obtain ⟨text, htext, hmem⟩ := List.mem_flatMap.mp hmem
    rcases List.mem_append.mp hmem with hmem | hmem
    · exact absurd hmem (by decide)
    · exact (hns.bare text htext mark hmem).1 rfl
  have hfirst : ∀ {x' ns' y'}, Reading f (x ++ mark :: (led comma ms ++ (comma ++ mark :: y))) x' ns' y' →
      x = x' := by
    intro x' ns' y' hread
    have hcount := congrArg (List.count mark) hread.parts
    have hcomma : List.count mark comma = 0 := by decide
    simp only [List.count_append, List.count_cons_self, List.count_eq_zero_of_not_mem hx,
      List.count_eq_zero_of_not_mem hy, List.count_eq_zero_of_not_mem (hfree hms),
      List.count_eq_zero_of_not_mem (hfree (between_numbers hread.between)), hcomma] at hcount
    have hx' : mark ∉ x' := List.count_eq_zero.mp (by omega)
    exact (first_inj hx hx' hread.parts).1
  intro x₁ ns₁ y₁ x₂ ns₂ y₂ h₁ h₂
  rw [htext, quotedPart_text _ _ hnums hret] at h₁ h₂
  exact (hfirst h₁).symm.trans (hfirst h₂)

end Apue.Logger

import Apue.Logger.Legible
import Apue.Logger.Traced

/-! What a log tells.

`readback_iff`: the log of a program that leaves it alone tells the function, the fields and the
result of all its calls exactly when every record is legible. A record that can be read in
another way is a record of another program, whose calls have other strings (`exists_records`). -/
namespace Apue.Logger
open Memory CLib Posix Transition Layout

variable {ρ : Type}

/-! ### The records of a program -/

/-- The record is what the call logs of the process, when it returns `ret`. -/
structure Logs (r : Record) (c : Call) (p : Process ρ) (ret : Value) : Prop where
  complete : c.Complete
  there : ∀ a ∈ c.logged, a.there p
  record : r = ⟨c.func, c.logged.map (·.text p), c.func.result ret⟩
  short : r.text.length < 2 ^ 31


theorem Logs.fields {r : Record} {c : Call} {p : Process ρ} {ret : Value} (h : Logs r c p ret) :
    Fields r.func r.fields ∧ mark ∉ r.ret := by
  rw [h.record]
  exact ⟨logged_fields h.complete h.there, mark_notMem_result c.func ret⟩

/-- All fields are resolved before the call, or all after it. -/
theorem early_or_late (c : Call) :
    (c.early = c.logged ∧ c.late = []) ∨ c.early = [] ∧ c.late = c.logged := by
  unfold Call.early Call.late
  split
  · exact .inl ⟨rfl, rfl⟩
  · exact .inr ⟨rfl, rfl⟩

theorem record_logs {libc : Libc (Process ρ)} {c : Call} {s : State (Process ρ)} (hc : c.Complete)
    (hthere : c.There libc s) (hlen : (c.record libc s).text.length < 2 ^ 31) :
    ∃ p : Process ρ, Logs (c.record libc s) c p (c.called libc s).1 := by
  obtain ⟨hearly, hlate⟩ := hthere
  rcases early_or_late c with ⟨hbefore, hafter⟩ | ⟨hbefore, hafter⟩
  · refine ⟨s.env, hc, hbefore ▸ hearly, ?_, hlen⟩
    rw [Call.record, hbefore, hafter, List.map_nil, List.append_nil]
  · refine ⟨c.left libc s, hc, hafter ▸ hlate, ?_, hlen⟩
    rw [Call.record, hbefore, hafter, List.map_nil, List.nil_append]

theorem map_text_inj {rs rs' : List Record} (hl : ∀ r ∈ rs, r.Legible)
    (hrs : ∀ r ∈ rs, Fields r.func r.fields ∧ mark ∉ r.ret)
    (hrs' : ∀ r ∈ rs', Fields r.func r.fields ∧ mark ∉ r.ret)
    (h : rs.map Record.text = rs'.map Record.text) : rs = rs' := by
  induction rs generalizing rs' with
  | nil => exact (List.map_eq_nil_iff.mp h.symm).symm
  | cons r rs ih =>
    cases rs' with
    | nil => cases h
    | cons r' rs' =>
      obtain ⟨htext, hrest⟩ := List.cons.inj h
      obtain ⟨hr, hrs⟩ := List.forall_mem_cons.mp hrs
      obtain ⟨hr', hrs'⟩ := List.forall_mem_cons.mp hrs'
      obtain ⟨hlr, hlrs⟩ := List.forall_mem_cons.mp hl
      rw [hlr.eq hr.1 hr'.1 hr.2 hr'.2 htext, ih hlrs hrs hrs' hrest]

/-! ### A program with given records -/

/-- A libc whose functions return what `realpath` fails with. -/
def echoing : Libc (Process ρ) :=
  ⟨fun _ _ p => (match p.realpath [] with
    | .ok _ => 0
    | .error n => BitVec.ofNat 64 n, p)⟩

def telling (p : Process ρ) (ret : Value) : Process ρ := { p with realpath := fun _ => .error ret.toNat }

/-- What is cut to an `int` is logged as it is. -/
theorem result_converted (f : Symbol) (ret : Value) :
    f.result (f.wrapper.converted ret) = f.result ret := by
  have hcut : ((ret.setWidth 32).signExtend 64).setWidth 32 = ret.setWidth 32 := by
    ext i hi
    simp only [BitVec.getElem_setWidth, BitVec.getLsbD_signExtend]
    simp [hi, Nat.lt_trans hi (show 32 < 64 by decide)]
  unfold Wrapper.converted
  split
  case isTrue => rfl
  case isFalse hret =>
    have hf : f ≠ .fopen := by
      rintro rfl
      exact hret rfl
    rw [Symbol.result, if_neg hf, Symbol.result, if_neg hf, hcut]

/-- A call of what the process tells. -/
theorem record_echo {r : Record} {c : Call} {p : Process ρ} {ret : Value} (h : Logs r c p ret)
    (s : State (Process ρ)) (hs : s.env = telling p ret) :
    c.There echoing s ∧ c.record echoing s = r ∧ (c.after echoing s).env.rest = p.rest := by
  obtain ⟨e, he⟩ := lookedAll_eq c.early (telling p ret)
  obtain ⟨e', he'⟩ := c.after_env echoing s
  have hrun : ∀ f args, echoing.run f args { telling p ret with errno := e } =
      (ret, { telling p ret with errno := e }) := by
    intro f args
    simp [echoing, telling]
  have hcalled : (c.called echoing s).1 = c.func.wrapper.converted ret := by
    rw [Call.called, hs, he, Wrapper.call, callFromLibc, hrun]
  have hleft : c.left echoing s = { telling p ret with errno := e } := by
    rw [Call.left, Call.called, hs, he, Wrapper.call, callFromLibc, hrun]
  have htext : ∀ as : List Arg, as.map (·.text (c.left echoing s)) = as.map (·.text p) ∧
      as.map (·.text s.env) = as.map (·.text p) := by
    intro as
    rw [hleft, hs]
    exact ⟨rfl, rfl⟩
  have hthere : ∀ a ∈ c.logged, a.there s.env ∧ a.there (c.left echoing s) := by
    intro a ha
    rw [hleft, hs]
    exact ⟨h.there a ha, h.there a ha⟩
  have hrest : (c.after echoing s).env.rest = p.rest := by
    rw [he', hleft]
    rfl
  rw [h.record, Call.record, hcalled, result_converted, (htext c.early).2, (htext c.late).1]
  rcases early_or_late c with ⟨hbefore, hafter⟩ | ⟨hbefore, hafter⟩
  · rw [Call.There, hbefore, hafter, List.map_nil, List.append_nil]
    exact ⟨⟨fun a ha => (hthere a ha).1, List.forall_mem_nil _⟩, rfl, hrest⟩
  · rw [Call.There, hbefore, hafter, List.map_nil, List.nil_append]
    exact ⟨⟨List.forall_mem_nil _, fun a ha => (hthere a ha).2⟩, rfl, hrest⟩

/-! ### Another reading -/

theorem Logs.isLine {r : Record} {c : Call} {p : Process ρ} {ret : Value} (h : Logs r c p ret) :
    IsLine r.func r.text := by
  have hline := record_isLine echoing c (init (telling p ret))
  rw [(record_echo h (init (telling p ret)) rfl).2.1] at hline
  rwa [h.record] at hline ⊢

/-- All that is quoted is printable. -/
theorem Logs.printable {r : Record} {c : Call} {p : Process ρ} {ret : Value} (h : Logs r c p ret)
    {part : List Byte} {nums : List (List Byte)}
    (htext : r.text = headText r.func ++ mark :: (part ++ mark :: tailText nums r.ret)) :
    Printable part := by
  obtain ⟨-, front, hfront, -, hprint⟩ := h.isLine
  have hend : r.text = (headText r.func ++ mark :: (part ++ mark :: (led comma nums ++
      (ascii ") = " ++ r.ret)))) ++ [byteOfChar '\n'] := by
    rw [htext, tailText, show ascii "\n" = [byteOfChar '\n'] from rfl]
    simp
  have hsame := List.append_cancel_right (hfront.symm.trans hend)
  intro b hb
  apply hprint
  rw [hsame]
  exact List.mem_append_right _ (.tail _ (List.mem_append_left _ hb))

theorem dots_of_printable {x : List Byte} (h : Printable x) : x.map dot = x := by
  have hid : ∀ b ∈ x, dot b = b := fun b hb => if_pos (h b hb)
  rw [List.map_congr_left hid, List.map_id']

theorem nonzero_of_printable {x : List Byte} (h : Printable x) : ∀ b ∈ x, b ≠ 0 := by
  rintro b hb rfl
  exact absurd (h 0 hb) (by decide)

/-- Two strings in memory. -/
def texts (x y : List Byte) : Pages := mapped (holding 0x1000 (x ++ (0 :: (y ++ [0]))))

def second (x : List Byte) : Value := 0x1000 + BitVec.ofNat 64 (x.length + 1)

theorem stringAt_texts {x y : List Byte} (hx : Printable x) (hy : Printable y)
    (hlen : x.length + y.length < 2 ^ 31) :
    stringAt (texts x y) 0x1000 = some x ∧ stringAt (texts x y) (second x) = some y := by
  have hbase : (0x1000 : Addr).toNat = 4096 := rfl
  have hfirst := stringAt_holding [] (y ++ [0]) (nonzero_of_printable hx)
    (by rw [hbase, List.length_nil]; omega) (by decide)
  have hsecond := stringAt_holding (x ++ [0]) [] (nonzero_of_printable hy)
    (by rw [hbase, List.length_append, List.length_singleton]; omega) (by decide)
  refine ⟨by simpa [texts] using hfirst, ?_⟩
  rw [List.length_append, List.length_singleton, List.append_assoc] at hsecond
  exact hsecond

/-- The process in which two strings and a link are `x` and `y`. -/
def Process.showing (p : Process ρ) (x y : List Byte) (link : PathText) : Process ρ :=
  { p with mem := texts x y, fileno := fun _ => some 0, readlink := fun _ => .ok link }

theorem text_showing (p : Process ρ) {x y : List Byte} (link : PathText) (hx : Printable x)
    (hy : Printable y) (hlen : x.length + y.length < 2 ^ 31) :
    (∀ a : Arg, resolution a.type = some .constVoidPtr → a.value = 0x1000 →
      a.there (p.showing x y link) ∧ a.text (p.showing x y link) = enclosed x) ∧
    (∀ a : Arg, resolution a.type = some .constVoidPtr → a.value = second x →
      a.there (p.showing x y link) ∧ a.text (p.showing x y link) = enclosed y) ∧
    ∀ (a : Arg) (z : List Byte), a.link (p.showing x y link) ≠ none → link.bytes = z → Printable z →
      z.length ≤ 1023 → a.text (p.showing x y link) = enclosed z := by
  obtain ⟨hfirst, hsecond⟩ := stringAt_texts hx hy hlen
  refine ⟨fun a hover hvalue => ?_, fun a hover hvalue => ?_, fun a z hlink hz hprint hshort => ?_⟩
  · have hstr : stringAt (p.showing x y link).mem a.value = some x := hvalue ▸ hfirst
    rw [Arg.there_ptr hover, Arg.text_ptr hover hstr, hstr, quoted, dots_of_printable hx]
    exact ⟨rfl, rfl⟩
  · have hstr : stringAt (p.showing x y link).mem a.value = some y := hvalue ▸ hsecond
    rw [Arg.there_ptr hover, Arg.text_ptr hover hstr, hstr, quoted, dots_of_printable hy]
    exact ⟨rfl, rfl⟩
  · obtain ⟨path, hpath⟩ := Option.ne_none_iff_exists'.mp hlink
    have htarget : (p.showing x y link).target path = z := by
      show link.bytes.take 1023 = z
      rw [hz, List.take_of_length_le hshort]
    rw [Arg.text_link hpath, htarget, quoted, dots_of_printable hprint]
    rfl

/-- A call that logs other texts, and the same numbers after them. -/
theorem exists_call {c : Call} {p : Process ρ} (hc : c.Complete) {x y x' y' : List Byte}
    {ns ns' nums : List (List Byte)}
    (hfields : c.logged.map (·.text p) = enclosed x :: (ns ++ enclosed y :: nums))
    (hns : c.func.Between ns) (hns' : c.func.Between ns') (hfits : c.func.Fits x' y')
    (hx : Printable x') (hy : Printable y') (hlen : x'.length + y'.length < 2 ^ 31) :
    ∃ c' : Call, ∃ p' : Process ρ, c'.func = c.func ∧ c'.Complete ∧ (∀ a ∈ c'.logged, a.there p') ∧
      c'.logged.map (·.text p') = enclosed x' :: (ns' ++ enclosed y' :: nums) := by
  have hlink : ∀ {z : List Byte}, Printable z → 0 ∉ z := fun hz hmem => nonzero_of_printable hz 0 hmem rfl
  obtain ⟨f, args⟩ := c
  cases f with
  | rename | fopen =>
    obtain ⟨old, new, rfl⟩ := List.length_eq_two.mp hc
    obtain rfl : ns = [] := hns
    obtain rfl : ns' = [] := hns'
    obtain ⟨-, hrest⟩ := List.cons.inj hfields
    obtain ⟨-, rfl⟩ := List.cons.inj hrest
    obtain ⟨hfirst, hsecond, -⟩ := text_showing p ⟨[], List.not_mem_nil⟩ hx hy hlen
    refine ⟨⟨_, [0x1000, second x']⟩, p.showing x' y' ⟨[], List.not_mem_nil⟩, rfl, rfl, ?_, ?_⟩
    · exact List.forall_mem_cons.mpr ⟨(hfirst _ rfl rfl).1,
        List.forall_mem_singleton.mpr (hsecond _ rfl rfl).1⟩
    · exact congrArg₂ List.cons (hfirst _ rfl rfl).2 (congrArg (· :: []) (hsecond _ rfl rfl).2)
  | read | write =>
    obtain ⟨fd, buf, count, rfl⟩ := List.length_eq_three.mp hc
    obtain rfl : ns = [] := hns
    obtain rfl : ns' = [] := hns'
    obtain ⟨-, hrest⟩ := List.cons.inj hfields
    obtain ⟨-, rfl⟩ := List.cons.inj hrest
    obtain ⟨-, hsecond, htarget⟩ := text_showing p ⟨x', hlink hx⟩ hx hy hlen
    have hfd := htarget ⟨"fd", .int, fd⟩ x' (Option.some_ne_none _) rfl hx hfits
    refine ⟨⟨_, [fd, second x', count]⟩, p.showing x' y' ⟨x', hlink hx⟩, rfl, rfl, ?_, ?_⟩
    · exact List.forall_mem_cons.mpr ⟨rfl, List.forall_mem_cons.mpr ⟨(hsecond _ rfl rfl).1,
        List.forall_mem_singleton.mpr rfl⟩⟩
    · exact congrArg₂ List.cons hfd (congrArg₂ List.cons (hsecond _ rfl rfl).2 rfl)
  | fread | fwrite =>
    obtain ⟨ptr, size, nitems, stream, rfl⟩ := List.length_eq_four.mp hc
    obtain ⟨m, n, rfl⟩ := hns
    obtain ⟨m', n', rfl⟩ := hns'
    obtain ⟨-, hrest⟩ := List.cons.inj hfields
    obtain ⟨-, hrest⟩ := List.cons.inj hrest
    obtain ⟨-, hrest⟩ := List.cons.inj hrest
    obtain ⟨-, rfl⟩ := List.cons.inj hrest
    obtain ⟨hfirst, -, htarget⟩ := text_showing p ⟨y', hlink hy⟩ hx hy hlen
    have hstream := htarget ⟨"file_pointer", .filePtr, stream⟩ y' (Option.some_ne_none _) rfl hy hfits
    have hwide : ∀ v : BitVec 32, decimalInt ((v.setWidth 64).setWidth 32) = decimalInt v := by
      intro v
      rw [BitVec.setWidth_setWidth_of_le _ (by decide), BitVec.setWidth_eq]
    refine ⟨⟨_, [0x1000, m'.setWidth 64, n'.setWidth 64, stream]⟩,
      p.showing x' y' ⟨y', hlink hy⟩, rfl, rfl, ?_, ?_⟩
    · exact List.forall_mem_cons.mpr ⟨(hfirst _ rfl rfl).1, List.forall_mem_cons.mpr ⟨rfl,
        List.forall_mem_cons.mpr ⟨rfl, List.forall_mem_singleton.mpr rfl⟩⟩⟩
    · exact congrArg₂ List.cons (hfirst _ rfl rfl).2 (congrArg₂ List.cons (hwide m')
        (congrArg₂ List.cons (hwide n') (congrArg (· :: []) hstream)))
  | _ => exact absurd hns id

/-- A record with two texts. -/
theorem Logs.two {r : Record} {c : Call} {p : Process ρ} {ret : Value} (h : Logs r c p ret)
    {ns : List (List Byte)} (hb : r.func.Between ns) : ∃ x ms y nums,
      r = ⟨r.func, enclosed x :: (ms ++ enclosed y :: nums), r.ret⟩ ∧
      Reading r.func (quotedPart r.text) x ms y ∧ Printable (quotedPart r.text) ∧
      r.text = headText r.func ++ mark :: (quotedPart r.text ++ mark :: tailText nums r.ret) := by
  obtain ⟨hfields, hret⟩ := h.fields
  obtain ⟨f, fields, ret⟩ := r
  cases hfields with
  | none hf => rcases hf with rfl | rfl <;> exact absurd hb id
  | one hs => exact absurd hb (not_between_of_single hs)
  | @two x y ms nums hms hfits _ _ hnums =>
    have htext := text_two f x y ms nums ret
    have hpart := quotedPart_text f (x ++ mark :: (led comma ms ++ (comma ++ mark :: y))) hnums hret
    rw [← htext] at hpart
    rw [hpart]
    exact ⟨x, ms, y, nums, rfl, ⟨hms, hfits, rfl⟩, h.printable htext, htext⟩

/-- **Each reading of a line is what a call can log.** -/
theorem Logs.reading {r : Record} {c : Call} {p : Process ρ} {ret : Value} (h : Logs r c p ret)
    {x y : List Byte} {ns : List (List Byte)} (hread : Reading r.func (quotedPart r.text) x ns y) :
    ∃ r' c', ∃ p' : Process ρ, Logs r' c' p' ret ∧ r'.text = r.text ∧
      ∃ nums, r'.fields = enclosed x :: (ns ++ enclosed y :: nums) := by
  obtain ⟨x₀, ms, y₀, nums, hr, hread₀, hprint, htext⟩ := h.two hread.between
  have hfields : c.logged.map (·.text p) = enclosed x₀ :: (ms ++ enclosed y₀ :: nums) := by
    rw [h.record] at hr
    exact congrArg Record.fields hr
  have hfunc : r.func = c.func := congrArg Record.func h.record
  have hret : r.ret = c.func.result ret := congrArg Record.ret h.record
  have hsplit := hprint
  rw [hread.parts] at hsplit
  have hx : Printable x := fun b hb => hsplit b (List.mem_append_left _ hb)
  have hy : Printable y := fun b hb => hsplit b (List.mem_append_right _ (.tail _
    (List.mem_append_right _ (List.mem_append_right _ (.tail _ hb)))))
  have hsame : Record.text ⟨r.func, enclosed x :: (ns ++ enclosed y :: nums), r.ret⟩ = r.text := by
    rw [text_two, htext, hread.parts]
  have hlen : x.length + y.length < 2 ^ 31 := by
    have hshort := h.short
    rw [← hsame, text_two] at hshort
    simp only [List.length_append, List.length_cons] at hshort
    omega
  rw [hfunc] at hread₀ hread hsame
  obtain ⟨c', p', hfunc', hcomplete, hthere, hlogged⟩ := exists_call h.complete hfields hread₀.between
    hread.between hread.fits hx hy hlen
  refine ⟨⟨c.func, enclosed x :: (ns ++ enclosed y :: nums), r.ret⟩, c', p',
    ⟨hcomplete, hthere, ?_, ?_⟩, hsame, nums, rfl⟩
  · rw [hlogged, hfunc', hret]
  · rw [hsame]
    exact h.short

/-- Other records with the same lines, when one can be read in another way. -/
theorem exists_records {rs : List Record} (hrs : ∀ q ∈ rs, ∃ c, ∃ p : Process ρ, ∃ ret, Logs q c p ret)
    {r : Record} (hr : r ∈ rs) {x y : List Byte} {ns : List (List Byte)}
    (hread : Reading r.func (quotedPart r.text) x ns y) :
    ∃ rs', (∀ q ∈ rs', ∃ c, ∃ p : Process ρ, ∃ ret, Logs q c p ret) ∧
      (rs'.map Record.text).flatten = (rs.map Record.text).flatten ∧
      (rs' = rs → ∃ ms, r.fields = enclosed x :: ms) := by
  obtain ⟨c, p, ret, hlogs⟩ := hrs r hr
  obtain ⟨r', c', p', hr', htext, nums, hfields⟩ := hlogs.reading hread
  obtain ⟨front, back, rfl⟩ := List.append_of_mem hr
  refine ⟨front ++ r' :: back, ?_, by simp [htext], fun hsame => ?_⟩
  · intro q hq
    rcases List.mem_append.mp hq with hq | hq
    · exact hrs q (List.mem_append_left _ hq)
    · rcases List.mem_cons.mp hq with rfl | hq
      · exact ⟨c', p', ret, hr'⟩
      · exact hrs q (List.mem_append_right _ (.tail _ hq))
  · have hrr := (List.cons.inj (List.append_cancel_left hsame)).1
    exact ⟨_, hrr ▸ hfields⟩

/-- Legible records are told by their lines. -/
theorem lines_tell {rs rs' : List Record} (hrs : ∀ q ∈ rs, ∃ c, ∃ p : Process ρ, ∃ ret, Logs q c p ret)
    (hrs' : ∀ q ∈ rs', ∃ c, ∃ p : Process ρ, ∃ ret, Logs q c p ret) (hlegible : ∀ r ∈ rs, r.Legible)
    (hlines : (rs'.map Record.text).flatten = (rs.map Record.text).flatten) : rs' = rs := by
  have hends : ∀ rs : List Record, (∀ q ∈ rs, ∃ c, ∃ p : Process ρ, ∃ ret, Logs q c p ret) →
      ∀ line ∈ rs.map Record.text, ∃ front, line = front ++ [byteOfChar '\n'] ∧
        byteOfChar '\n' ∉ front := by
    intro rs hrs line hline
    obtain ⟨r, hr, rfl⟩ := List.mem_map.mp hline
    obtain ⟨c, p, ret, hlogs⟩ := hrs r hr
    obtain ⟨-, front, hfront, hnone, -⟩ := hlogs.isLine
    exact ⟨front, hfront, hnone⟩
  have hfields : ∀ rs : List Record, (∀ q ∈ rs, ∃ c, ∃ p : Process ρ, ∃ ret, Logs q c p ret) →
      ∀ r ∈ rs, Fields r.func r.fields ∧ mark ∉ r.ret := by
    intro rs hrs r hr
    obtain ⟨c, p, ret, hlogs⟩ := hrs r hr
    exact hlogs.fields
  have htexts := lines_inj (hends rs hrs) (hends rs' hrs') hlines.symm
  exact (map_text_inj hlegible (hfields rs hrs) (hfields rs' hrs') htexts).symm

/-! ### Programs -/

def Deed.Complete : Deed ρ → Prop
  | .call c _ _ => c.Complete
  | .program _ _ => True

/-- A run of a program that starts with these descriptors and leaves the log alone. -/
structure Ran (libc : Libc (Traced ρ)) (k : Kernel (List Char))
    (l : List (Edge (State (Traced ρ)) (Deed ρ))) (t : State (Traced ρ)) : Prop where
  path : ∃ p : Traced ρ, p.rest.1 = k ∧ Path (Deed.act libc) (init p) l t
  allowed : ∀ x ∈ l, x.action.Allowed libc x.before
  complete : ∀ x ∈ l, x.action.Complete
  written : Written (records libc l)

variable {libc : Libc (Traced ρ)} {s t : State (Traced ρ)} {k : Kernel (List Char)}
  {l : List (Edge (State (Traced ρ)) (Deed ρ))} {file : List Char} {front back : List Byte}

theorem Ran.files (h : Ran libc k l t) (hk : Holds file (front ++ back) front k) :
    t.env.rest.1.files file = some (front ++ history libc l ++ back.drop (history libc l).length) := by
  obtain ⟨⟨p, rfl, hpath⟩, hok, -, hwritten⟩ := h
  exact history_files hk hpath hok hwritten

theorem logs_of_path (h : Path (Deed.act libc) s l t) (hl : ∀ x ∈ l, x.action.Complete)
    (hwritten : Written (records libc l)) :
    ∀ r ∈ records libc l, ∃ c, ∃ p : Traced ρ, ∃ ret, Logs r c p ret := by
  induction h with
  | nil => exact List.forall_mem_nil _
  | @cons s u t deed l hs _ ih =>
    obtain ⟨hdeed, hrest⟩ := List.forall_mem_cons.mp hl
    obtain ⟨hfirst, hthen⟩ := List.forall_mem_append.mp hwritten
    refine List.forall_mem_append.mpr ⟨?_, ih hrest hthen⟩
    cases deed with
    | call c said cut =>
      obtain ⟨hthere, -, rfl⟩ := act_call_iff.mp hs
      obtain ⟨p, hp⟩ := record_logs hdeed hthere (hfirst _ (List.mem_singleton_self _))
      exact List.forall_mem_singleton.mpr ⟨c, p, _, hp⟩
    | program env said => exact List.forall_mem_nil _

theorem Ran.logs (h : Ran libc k l t) :
    ∀ r ∈ records libc l, ∃ c, ∃ p : Traced ρ, ∃ ret, Logs r c p ret := by
  obtain ⟨⟨p, -, hpath⟩, -, hcomplete, hwritten⟩ := h
  exact logs_of_path hpath hcomplete hwritten

/-- **Whatever calls can log is the log of a program.** -/
theorem exists_path (rs : List Record) (h : ∀ r ∈ rs, ∃ c, ∃ p : Traced ρ, ∃ ret, Logs r c p ret)
    (s : State (Traced ρ)) : ∃ l t, Path (Deed.act echoing) s l t ∧
      (∀ x ∈ l, x.action.Allowed echoing x.before ∧ x.action.Complete ∧ x.action.said = []) ∧
      records echoing l = rs := by
  induction rs generalizing s with
  | nil => exact ⟨[], s, .nil, List.forall_mem_nil _, rfl⟩
  | cons r rs ih =>
    obtain ⟨⟨c, p, ret, hr⟩, hrs⟩ := List.forall_mem_cons.mp h
    -- what the record is made of, with the descriptors as they are now
    let q : Traced ρ := { p with rest := s.env.rest }
    have hq : Logs r c q ret := ⟨hr.complete, hr.there, hr.record, hr.short⟩
    let u : State (Traced ρ) := { s with env := telling q ret }
    obtain ⟨hthere, hrecord, hrest⟩ := record_echo hq u rfl
    have hquotable : c.Quotable echoing u := quotable_of_length (hrecord ▸ hr.short)
    have hset : Deed.act echoing (.program (telling q ret) []) s = .ok u := rfl
    have hcall : Deed.act echoing (.call c [] []) u = .ok _ := act_call_iff.mpr ⟨hthere, hquotable, rfl⟩
    obtain ⟨l, t, hpath, hl, hrecords⟩ := ih hrs _
    refine ⟨_, t, .cons hset (.cons hcall hpath), ?_, ?_⟩
    · refine List.forall_mem_cons.mpr ⟨⟨says_nothing _, trivial, rfl⟩,
        List.forall_mem_cons.mpr ⟨⟨?_, hr.complete, rfl⟩, hl⟩⟩
      have hsame : (c.after echoing u).env.rest.1 = u.env.rest.1 := congrArg Prod.fst hrest
      change Says [] _ (c.after echoing u).env.rest.1
      rw [hsame]
      exact says_nothing _
    · exact congrArg₂ List.cons hrecord hrecords

theorem exists_ran (rs : List Record) (h : ∀ r ∈ rs, ∃ c, ∃ p : Traced ρ, ∃ ret, Logs r c p ret)
    (p : Traced ρ) : ∃ (l : List (Edge (State (Traced ρ)) (Deed ρ))) (t : State (Traced ρ)),
      Ran echoing p.rest.1 l t ∧ Silent l ∧ records echoing l = rs := by
  obtain ⟨l, t, hpath, hl, hrecords⟩ := exists_path rs h (init p)
  refine ⟨l, t, ⟨⟨p, rfl, hpath⟩, fun x hx => (hl x hx).1, fun x hx => (hl x hx).2.1, ?_⟩,
    fun x hx => (hl x hx).2.2, hrecords⟩
  rw [hrecords]
  intro r hr
  obtain ⟨c, p, ret, hlogs⟩ := h r hr
  exact hlogs.short

/-- What is legible of a new file tells the calls. -/
theorem Ran.tells (h : Ran libc k l t) (hsilent : Silent l) (hk : Holds file (front ++ []) front k)
    (hlegible : ∀ r ∈ records libc l, r.Legible) {libc' : Libc (Traced ρ)}
    {l' : List (Edge (State (Traced ρ)) (Deed ρ))} {t' : State (Traced ρ)} (h' : Ran libc' k l' t')
    (hsilent' : Silent l') (hsame : t'.env.rest.1.files file = t.env.rest.1.files file) :
    records libc' l' = records libc l := by
  rw [h.files hk, h'.files hk, history_silent hsilent, history_silent hsilent'] at hsame
  exact lines_tell h.logs h'.logs hlegible (by simpa using hsame)

/-- **Of a program that leaves descriptor 5 and the file there alone, a new log tells the function,
the fields and the result of every call, among all such programs, exactly when the texts of each
of its records can be told apart.** -/
theorem readback_iff (h : Ran libc k l t) (hsilent : Silent l) (hk : Holds file (front ++ []) front k) :
    (∀ (libc' : Libc (Traced ρ)) l' t', Ran libc' k l' t' → Silent l' →
        t'.env.rest.1.files file = t.env.rest.1.files file → records libc' l' = records libc l) ↔
      ∀ r ∈ records libc l, r.Legible := by
  constructor
  · intro htells r hr x ns y x' ns' y' hread hread'
    obtain ⟨p, hp, -⟩ := h.path
    have hfirst : ∀ {x ns y}, Reading r.func (quotedPart r.text) x ns y →
        ∃ ms, r.fields = enclosed x :: ms := by
      intro x ns y hread
      obtain ⟨rs, hrs, hlines, hfield⟩ := exists_records h.logs hr hread
      obtain ⟨l', t', hran, hsilent', rfl⟩ := exists_ran rs hrs p
      rw [hp] at hran
      refine hfield (htells echoing l' t' hran hsilent' ?_)
      rw [h.files hk, hran.files hk, history_silent hsilent, history_silent hsilent', hlines]
    obtain ⟨ms, hms⟩ := hfirst hread
    obtain ⟨ms', hms'⟩ := hfirst hread'
    have hquoted := (List.cons.inj (hms.symm.trans hms')).1
    exact List.append_cancel_right (List.cons.inj hquoted).2
  · intro hlegible libc' l' t' h' hsilent'
    exact h.tells hsilent hk hlegible h' hsilent'

/-- The read of a line. -/
theorem readback_line : ∃ l t, Ran closing tracedLine.rest.1 l t ∧
    calls l = [⟨.read, [0, 0x1000, 2]⟩] ∧
    ∀ (libc' : Libc (Traced Unit)) l' t', Ran libc' tracedLine.rest.1 l' t' → Silent l' →
      t'.env.rest.1.files ['f'] = t.env.rest.1.files ['f'] → records libc' l' =
        [⟨.read, [enclosed (ascii "pipe:[7]"), enclosed (ascii "a."), ascii "2"], ascii "2"⟩] := by
  have hrecord : Call.record closing ⟨.read, [0, 0x1000, 2]⟩ (init tracedLine) =
      ⟨.read, [enclosed (ascii "pipe:[7]"), enclosed (ascii "a."), ascii "2"], ascii "2"⟩ := by
    decide +kernel
  let c : Call := ⟨.read, [0, 0x1000, 2]⟩
  have hcall : Deed.act closing (.call c [] []) (init tracedLine) = .ok _ :=
    act_call_iff.mpr ⟨by decide +kernel, by decide +kernel, rfl⟩
  have hran : Ran closing tracedLine.rest.1 [⟨init tracedLine, .call c [] [], _⟩] _ :=
    ⟨⟨tracedLine, rfl, .cons hcall .nil⟩, List.forall_mem_singleton.mpr (says_nothing _),
      List.forall_mem_singleton.mpr rfl, List.forall_mem_singleton.mpr (by decide +kernel)⟩
  have hopen : (running 3 []).permits ['f'] = true := rfl
  have hlog : Holds ['f'] ([] ++ []) [] tracedLine.rest.1 :=
    ((output_eq hopen (by decide)).1 (by decide)).1
  have hlegible : Record.Legible
      ⟨.read, [enclosed (ascii "pipe:[7]"), enclosed (ascii "a."), ascii "2"], ascii "2"⟩ := by
    have hms : Numbers (Symbol.inner .read) [] := between_numbers (show Symbol.Between .read [] from rfl)
    have hnums : Numbers (Symbol.trailing .read) [ascii "2"] := ⟨rfl, by decide⟩
    have hret : mark ∉ ascii "2" := by decide
    have hlink : mark ∉ ascii "pipe:[7]" := by decide
    have hline : mark ∉ ascii "a." := by decide
    have hread := legible_of_unquoted hms hnums hret hlink hline
    exact hread
  have htells := (readback_iff hran (List.forall_mem_singleton.mpr rfl) hlog).mpr
    (List.forall_mem_singleton.mpr (hrecord ▸ hlegible))
  refine ⟨_, _, hran, rfl, fun libc' l' t' h' hsilent' hsame => ?_⟩
  rw [htells libc' l' t' h' hsilent' hsame]
  exact congrArg (· :: []) hrecord

end Apue.Logger

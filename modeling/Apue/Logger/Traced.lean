import Apue.Logger.Lines
import Apue.Logger.Standard

/-! The traced program and its log.

The wrappers write to descriptor 5 of the program that they are in, and the program has it like
any other: it can close it, move its offset, or write to it itself. `lines_logged`: as long as
it leaves descriptor 5 and the file there alone, and no record is too long for `dprintf`, every
call returns and the log is a line for each. -/
namespace Apue.Logger
open CLib Memory Posix Transition

variable {ρ : Type}

/-- A process with its descriptors. -/
abbrev Traced (ρ : Type) := Process (Kernel (List Char) × ρ)

/-- `dprintf` of a text to descriptor 5. It fails if that is not open, and if the length of the
text is no `int`; `cut` is what it has written by then. -/
def Process.dprintf (text cut : List Byte) (p : Traced ρ) : Traced ρ :=
  let k := p.rest.1
  { p with
    errno := if k.get FD = none then 9 else if text.length < 2 ^ 31 then p.errno else 75
    rest := (k.write FD (if text.length < 2 ^ 31 then text else cut), p.rest.2) }

/-- What the program does: a call or anything else. `said` is what this itself writes where the
log goes, `cut` what is written of a record that is too long. -/
inductive Deed (ρ : Type) where
  | call (c : Call) (said cut : List Byte)
  | program (env : Traced ρ) (said : List Byte)

def Deed.act (libc : Libc (Traced ρ)) : Deed ρ → State (Traced ρ) → Except Unit (State (Traced ρ))
  | .call c _ cut, s =>
    match c.run libc s with
    | some (_, t, record) => .ok { t with env := t.env.dprintf record.text cut }
    | none => .error ()
  | .program env _, s => .ok { s with env }

def Deed.said : Deed ρ → List Byte
  | .call _ said _ => said
  | .program _ said => said

def Deed.calls : Deed ρ → List Call
  | .call c _ _ => [c]
  | .program _ _ => []

/-- The record of its call. -/
def Deed.records (libc : Libc (Traced ρ)) (s : State (Traced ρ)) : Deed ρ → List Record
  | .call c _ _ => [c.record libc s]
  | .program _ _ => []

/-- All strings and streams that it resolves are there. -/
def Deed.There (libc : Libc (Traced ρ)) (s : State (Traced ρ)) : Deed ρ → Prop
  | .call c _ _ => c.There libc s
  | .program _ _ => True

def calls (l : List (Edge (State (Traced ρ)) (Deed ρ))) : List Call := l.flatMap fun x => x.action.calls

/-- The records of its calls. -/
def records (libc : Libc (Traced ρ)) (l : List (Edge (State (Traced ρ)) (Deed ρ))) : List Record :=
  l.flatMap fun x => x.action.records libc x.before

/-- The records, each after what its call said, and what the program said between them. -/
def history (libc : Libc (Traced ρ)) (l : List (Edge (State (Traced ρ)) (Deed ρ))) : List Byte :=
  l.flatMap fun x => x.action.said ++ ((x.action.records libc x.before).map Record.text).flatten

/-- `dprintf` can write them: the length of each is an `int`. -/
def Written (rs : List Record) : Prop := ∀ r ∈ rs, r.text.length < 2 ^ 31

/-- The log is all that is written there. -/
def Silent (l : List (Edge (State (Traced ρ)) (Deed ρ))) : Prop := ∀ x ∈ l, x.action.said = []

/-- From one state of the descriptors to another nothing happens to the log but that `said` is
written there. -/
def Says (said : List Byte) (k k' : Kernel (List Char)) : Prop :=
  ∃ l, Path Turn.act k l k' ∧ (∀ x ∈ l, x.action.Allowed x.before) ∧ transcript l = said

/-- A call says so before its record is written. -/
def Deed.Allowed (libc : Libc (Traced ρ)) (s : State (Traced ρ)) : Deed ρ → Prop
  | .call c said _ => Says said s.env.rest.1 (c.after libc s).env.rest.1
  | .program env said => Says said s.env.rest.1 env.rest.1

/-- Nothing is done to descriptor 5 and nothing written there but a record, which is short. -/
structure Deed.Logged (libc : Libc (Traced ρ)) (s : State (Traced ρ)) (d : Deed ρ) : Prop where
  allowed : d.Allowed libc s
  silent : d.said = []
  written : Written (d.records libc s)

variable {libc : Libc (Traced ρ)} {s t : State (Traced ρ)} {k k' : Kernel (List Char)}
  {l : List (Edge (State (Traced ρ)) (Deed ρ))} {file : List Char} {front back : List Byte}

theorem act_call_iff {c : Call} {said cut : List Byte} : Deed.act libc (.call c said cut) s = .ok t ↔
    c.There libc s ∧ c.Quotable libc s ∧
      t = { c.after libc s with env := (c.after libc s).env.dprintf (c.record libc s).text cut } := by
  constructor
  · intro h
    cases hrun : c.run libc s with
    | none => simp [Deed.act, hrun] at h
    | some out =>
      obtain ⟨ret, u, r⟩ := out
      obtain ⟨hthere, hquotable, -, rfl, rfl⟩ := run_iff.mp hrun
      simp only [Deed.act, hrun] at h
      exact ⟨hthere, hquotable, (Except.ok.inj h).symm⟩
  · rintro ⟨hthere, hquotable, rfl⟩
    simp only [Deed.act, run_of_there hthere hquotable]

/-- A deed whose record is short returns. -/
theorem Deed.returns {d : Deed ρ} (hthere : d.There libc s) (hwritten : Written (d.records libc s)) :
    ∃ u, d.act libc s = .ok u := by
  cases d with
  | call c said cut =>
    have hquotable := quotable_of_length (hwritten _ (List.mem_singleton_self _))
    exact ⟨_, act_call_iff.mpr ⟨hthere, hquotable, rfl⟩⟩
  | program env said => exact ⟨_, rfl⟩

/-! ### What is written where the log goes -/

theorem Says.trans {said said' : List Byte} {k'' : Kernel (List Char)} (h : Says said k k')
    (h' : Says said' k' k'') : Says (said ++ said') k k'' := by
  obtain ⟨l, hpath, hok, rfl⟩ := h
  obtain ⟨l', hpath', hok', rfl⟩ := h'
  refine ⟨l ++ l', hpath.append hpath', ?_, by simp [transcript]⟩
  intro x hx
  exact (List.mem_append.mp hx).elim (hok x) (hok' x)

theorem says_record (k : Kernel (List Char)) (text : List Byte) : Says text k (k.write FD text) :=
  ⟨[⟨k, .record text, k.write FD text⟩], .cons rfl .nil, by simp [Turn.Allowed],
    by simp [transcript, Turn.written]⟩

/-- Nothing is said by what leaves the descriptors alone. -/
theorem says_nothing (k : Kernel (List Char)) : Says [] k k := ⟨[], .nil, List.forall_mem_nil _, rfl⟩

theorem dprintf_short {text : List Byte} (cut : List Byte) (p : Traced ρ) (h : text.length < 2 ^ 31) :
    (p.dprintf text cut).rest.1 = p.rest.1.write FD text := by
  simp only [Process.dprintf, if_pos h]

/-- Over a run nothing is written where the log goes but its history. -/
theorem says_history (h : Path (Deed.act libc) s l t) (hok : ∀ x ∈ l, x.action.Allowed libc x.before)
    (hwritten : Written (records libc l)) : Says (history libc l) s.env.rest.1 t.env.rest.1 := by
  induction h with
  | nil => exact says_nothing _
  | @cons s u t deed l hs _ ih =>
    obtain ⟨hdeed, hrest⟩ := List.forall_mem_cons.mp hok
    have hthen := ih hrest fun r hr => hwritten r (List.mem_append_right _ hr)
    cases deed with
    | call c said cut =>
      obtain ⟨-, -, rfl⟩ := act_call_iff.mp hs
      have hshort := hwritten (c.record libc s) (List.mem_append_left _ (List.mem_singleton_self _))
      have hrecord := says_record (c.after libc s).env.rest.1 (c.record libc s).text
      rw [← dprintf_short cut _ hshort] at hrecord
      have hall := (hdeed.trans hrecord).trans hthen
      simpa [history, Deed.said, Deed.records] using hall
    | program env said =>
      cases hs
      have hall := hdeed.trans hthen
      simpa [history, Deed.said, Deed.records] using hall

theorem history_silent (h : Silent l) : history libc l = ((records libc l).map Record.text).flatten := by
  induction l with
  | nil => rfl
  | cons x l ih =>
    obtain ⟨hx, hl⟩ := List.forall_mem_cons.mp h
    have hrest := ih hl
    simp only [history, records, List.flatMap_cons] at hrest ⊢
    rw [hrest, hx, List.nil_append, List.map_append, List.flatten_append]

/-- The file of the log after a run. -/
theorem history_files (hlog : Holds file (front ++ back) front s.env.rest.1)
    (h : Path (Deed.act libc) s l t) (hok : ∀ x ∈ l, x.action.Allowed libc x.before)
    (hwritten : Written (records libc l)) :
    t.env.rest.1.files file = some (front ++ history libc l ++ back.drop (history libc l).length) := by
  obtain ⟨turns, hturns, hallowed, hsaid⟩ := says_history h hok hwritten
  have hend := (holds_turns hturns hallowed hlog).files
  rwa [hsaid] at hend

/-! ### Lines -/

theorem Lined.append {cs cs' : List Call} {log log' : List Byte} (h : Lined cs log)
    (h' : Lined cs' log') : Lined (cs ++ cs') (log ++ log') := by
  obtain ⟨lines, rfl, hlines⟩ := h
  obtain ⟨lines', rfl, hlines'⟩ := h'
  exact ⟨lines ++ lines', by simp, List.rel_append hlines hlines'⟩

theorem Deed.lined (libc : Libc (Traced ρ)) (s : State (Traced ρ)) (d : Deed ρ) :
    Lined d.calls ((d.records libc s).map Record.text).flatten := by
  cases d with
  | call c said cut => exact ⟨[_], rfl, .cons (record_isLine libc c s) .nil⟩
  | program env said => exact ⟨[], rfl, .nil⟩

/-- The records are a line for each call. -/
theorem records_lined (libc : Libc (Traced ρ)) (l : List (Edge (State (Traced ρ)) (Deed ρ))) :
    Lined (calls l) ((records libc l).map Record.text).flatten := by
  induction l with
  | nil => exact ⟨[], rfl, .nil⟩
  | cons x l ih =>
    have hboth := (x.action.lined libc x.before).append ih
    rwa [← List.flatten_append, ← List.map_append] at hboth

/-- **In every run in which descriptor 5 and its file are left alone and the records are short,
the log is a line for each call, in their order, and the next call returns.** -/
theorem lines_logged (hlog : Holds file (front ++ back) front s.env.rest.1)
    (h : Path (Deed.act libc) s l t) (hl : ∀ x ∈ l, x.action.Logged libc x.before) :
    (∃ log, t.env.rest.1.files file = some (front ++ log ++ back.drop log.length) ∧
      Lined (calls l) log) ∧
    ∀ d : Deed ρ, d.There libc t → d.Logged libc t → ∃ u, d.act libc t = .ok u := by
  have hwritten : Written (records libc l) := by
    intro r hr
    obtain ⟨x, hx, hrx⟩ := List.mem_flatMap.mp hr
    exact (hl x hx).written r hrx
  have hlined := records_lined libc l
  rw [← history_silent fun x hx => (hl x hx).silent] at hlined
  exact ⟨⟨_, history_files hlog h (fun x hx => (hl x hx).allowed) hwritten, hlined⟩,
    fun d hthere hd => d.returns hthere hd.written⟩

/-- A program with a line in its memory, whose log goes to a new file. -/
def tracedLine : Traced Unit :=
  { mem := typed.mem, errno := 0, fileno := typed.fileno, readlink := typed.readlink
    realpath := typed.realpath, rest := (output ['f'] (running 3 []), ()) }

/-- A libc whose functions return 2, and whose `close` closes. -/
def closing : Libc (Traced Unit) :=
  ⟨fun f args p =>
    match f, args with
    | .close, fd :: _ => (0, { p with rest := (p.rest.1.close (some fd.toNat), ()) })
    | _, _ => (2, p)⟩

/-- A read of the line, a change of the process and a `close` of its input. -/
theorem lines_read : ∃ l t log, Path (Deed.act closing) (init tracedLine) l t ∧
    calls l = [⟨.read, [0, 0x1000, 2]⟩, ⟨.close, [0]⟩] ∧
    t.env.rest.1.files ['f'] = some log ∧ Lined [⟨.read, [0, 0x1000, 2]⟩, ⟨.close, [0]⟩] log := by
  let read : Call := ⟨.read, [0, 0x1000, 2]⟩
  let close : Call := ⟨.close, [0]⟩
  let s₀ := init tracedLine
  let s₁ := { read.after closing s₀ with
    env := (read.after closing s₀).env.dprintf (read.record closing s₀).text [] }
  let s₂ := { s₁ with env := { s₁.env with errno := 4 } }
  let k := s₂.env.rest.1
  have hread : Deed.act closing (.call read [] []) s₀ = .ok s₁ :=
    act_call_iff.mpr ⟨by decide +kernel, by decide +kernel, rfl⟩
  have hclose : Deed.act closing (.call close [] []) s₂ = .ok _ :=
    act_call_iff.mpr ⟨by decide +kernel, by decide +kernel, rfl⟩
  have hpath := Path.cons hread (Path.cons (a := .program s₂.env []) rfl (.cons hclose .nil))
  have hleaves : Leaves k (k.close (some 0)) :=
    ⟨Kernel.get_close 0 FD, fun _ _ _ hopened => ⟨hopened, rfl⟩⟩
  have hquiet : Says [] k (k.close (some 0)) :=
    ⟨[⟨k, .program (k.close (some 0)), _⟩], .cons rfl .nil, List.forall_mem_singleton.mpr hleaves, rfl⟩
  have hopen : (running 3 []).permits ['f'] = true := rfl
  have hlog : Holds ['f'] ([] ++ []) [] s₀.env.rest.1 :=
    ((output_eq hopen (by decide)).1 (by decide)).1
  obtain ⟨⟨log, hfile, hlined⟩, -⟩ := lines_logged hlog hpath (List.forall_mem_cons.mpr
    ⟨⟨says_nothing _, rfl, List.forall_mem_singleton.mpr (by decide +kernel)⟩, List.forall_mem_cons.mpr
      ⟨⟨says_nothing _, rfl, List.forall_mem_nil _⟩, List.forall_mem_singleton.mpr
        ⟨hquiet, rfl, List.forall_mem_singleton.mpr (by decide +kernel)⟩⟩⟩)
  refine ⟨_, _, log, hpath, rfl, ?_, hlined⟩
  simpa using hfile

/-- A memory full of `A`, up to 2^31 bytes after 0x1000. -/
def flooded : Traced Unit :=
  { tracedLine with mem := fun a => if a.toNat < 0x1000 + 2 ^ 31 then some 0x41 else some 0 }

theorem flooded_string : stringAt flooded.mem 0x1000 = some (List.replicate (2 ^ 31) 0x41) := by
  have hplace : ∀ i ≤ 2 ^ 31, ((0x1000 : Addr) + BitVec.ofNat 64 i).toNat = 0x1000 + i := by
    intro i hi
    have hbase : (0x1000 : Addr).toNat = 0x1000 := by decide
    rw [BitVec.toNat_add, BitVec.toNat_ofNat, hbase]
    omega
  refine stringAt_iff.mpr ⟨by decide, by rw [List.length_replicate]; decide, ?_⟩
  apply ends_replicate (by decide)
  · intro i hi
    have := hplace i (Nat.le_of_lt hi)
    exact if_pos (by omega)
  · have := hplace _ (Nat.le_refl _)
    simp only [flooded]
    exact if_neg (by omega)

/-- A `write` of a string of 2^31 bytes does not return from `quote`, and a `close` of descriptor 5
has no line. -/
theorem lines_lost :
    (Call.There closing ⟨.write, [1, 0x1000, 0x80000000]⟩ (init flooded) ∧
      ¬ ∃ said cut t, Deed.act closing (.call ⟨.write, [1, 0x1000, 0x80000000]⟩ said cut)
        (init flooded) = .ok t) ∧
    ∃ t, Deed.act closing (.call ⟨.close, [5]⟩ [] []) (init tracedLine) = .ok t ∧
      t.env.rest.1.files ['f'] = some [] ∧ ¬ Lined [⟨.close, [5]⟩] [] := by
  have hptr := resolution_spec.2.2.1
  refine ⟨⟨⟨List.forall_mem_nil _, List.forall_mem_cons.mpr ⟨rfl, List.forall_mem_cons.mpr ⟨?_, ?_⟩⟩⟩, ?_⟩, ?_⟩
  · rw [Arg.there_ptr hptr]
    exact congrArg Option.isSome flooded_string
  · exact List.forall_mem_cons.mpr ⟨rfl, List.forall_mem_nil _⟩
  · rintro ⟨said, cut, t, hact⟩
    obtain ⟨-, hquotable, -⟩ := act_call_iff.mp hact
    have hfield : quoted (List.replicate (2 ^ 31) 0x41) ∈
        (Call.record closing ⟨.write, [1, 0x1000, 0x80000000]⟩ (init flooded)).fields := by
      rw [← Arg.text_ptr (a := ⟨"", .constVoidPtr, 0x1000⟩) (p := flooded) hptr flooded_string]
      exact List.mem_cons_of_mem _ (List.mem_cons_self ..)
    have := hquotable _ hfield
    rw [Quotable, quoted_length, List.length_replicate] at this
    omega
  · refine ⟨_, act_call_iff.mpr ⟨by decide +kernel, by decide +kernel, rfl⟩, by decide +kernel, ?_⟩
    rintro ⟨lines, hlog, hlines⟩
    cases hlines with
    | cons hline _ =>
      obtain ⟨⟨rest, hrest⟩, -⟩ := hline
      simp [← hrest, ascii] at hlog

end Apue.Logger

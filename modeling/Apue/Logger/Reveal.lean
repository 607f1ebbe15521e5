import Apue.Logger.Named

/-! What a record tells of the memory.

The buffer of a transfer is logged as a string, up to the first zero byte wherever that is.
`reveal_iff`: the transferred bytes decide the record of a transfer exactly when one of them
is zero, or there are so many that only one record can be written at all. -/
namespace Apue.Logger
open Memory CLib Transition

variable {ρ : Type}

def Call.buffer (c : Call) : Option Value :=
  match c.func with
  | .read | .write => c.args[1]?
  | .fread | .fwrite => c.args[0]?
  | _ => none

/-- How many bytes a transfer moves that returns `ret`; those of a `write` and an `fwrite` are
all it is given. -/
def Call.transferred (c : Call) (ret : Value) : Nat :=
  match c.func with
  | .read => ret.toInt.toNat
  | .write => (c.args.getD 2 0).toNat
  | .fread => ret.toNat * (c.args.getD 1 0).toNat
  | .fwrite => (c.args.getD 1 0).toNat * (c.args.getD 2 0).toNat
  | _ => 0

/-- The text of an argument when the string at the buffer is `str`. -/
def Arg.showing (p : Process ρ) (str : List Byte) (a : Arg) : List Byte :=
  if resolution a.type = some .constVoidPtr then quoted str else a.text p

/-- The record of a transfer when the string at the buffer is `str`. -/
def Call.showing (c : Call) (p : Process ρ) (ret : Value) (str : List Byte) : Record :=
  ⟨c.func, c.logged.map (·.showing p str), c.func.result ret⟩

theorem transfers_of_buffer {c : Call} {buf : Value} (h : c.buffer = some buf) : c.func.Transfers := by
  unfold Call.buffer at h
  unfold Symbol.Transfers
  grind

/-- The buffer is the only pointer to anything among the arguments. -/
theorem buffer_split {c : Call} {buf : Value} (h : c.buffer = some buf) :
    ∃ front tag type back, c.logged = front ++ ⟨tag, type, buf⟩ :: back ∧
      resolution type = some .constVoidPtr ∧
      ∀ b ∈ front ++ back, resolution b.type ≠ some .constVoidPtr := by
  obtain ⟨f, args⟩ := c
  cases f with
  | read | write =>
    rcases args with _ | ⟨fd, _ | ⟨buf', _ | ⟨count, rest⟩⟩⟩
    · cases h
    · cases h
    all_goals
      obtain rfl : buf' = buf := Option.some.inj h
      refine ⟨[⟨"fd", .int, fd⟩], "", _, _, rfl, rfl, ?_⟩
      simp [resolution_spec]
  | fread | fwrite =>
    rcases args with _ | ⟨ptr, _ | ⟨size, _ | ⟨nitems, _ | ⟨stream, rest⟩⟩⟩⟩
    · cases h
    all_goals
      obtain rfl : ptr = buf := Option.some.inj h
      refine ⟨[], "", _, _, rfl, rfl, ?_⟩
      simp [resolution_spec]
  | _ => cases h

theorem buffer_value {c : Call} {buf : Value} (h : c.buffer = some buf) {a : Arg} (ha : a ∈ c.logged)
    (hptr : resolution a.type = some .constVoidPtr) : a.value = buf := by
  obtain ⟨front, tag, type, back, hlogged, -, hother⟩ := buffer_split h
  rw [hlogged, List.mem_append, List.mem_cons] at ha
  rcases ha with ha | rfl | ha
  · exact absurd hptr (hother a (List.mem_append_left _ ha))
  · rfl
  · exact absurd hptr (hother a (List.mem_append_right _ ha))

/-- The other texts do not depend on the memory. -/
theorem text_congr {a : Arg} {p q : Process ρ} (h : resolution a.type ≠ some .constVoidPtr)
    (hfileno : q.fileno = p.fileno) (hreadlink : q.readlink = p.readlink) :
    a.text q = a.text p ∧ a.there q = a.there p := by
  have htarget : q.target = p.target := by
    funext link
    rw [Process.target, Process.target, hreadlink]
  unfold Arg.text Arg.there
  cases hover : resolution a.type with
  | none => exact absurd hover (resolution_ne_none _)
  | some o =>
    cases o with
    | string => exact absurd hover (resolution_ne_string _)
    | filePtr => simp only [hfileno, htarget, and_self]
    | constVoidPtr => exact absurd hover h
    | int => simp only [htarget, and_self]

theorem showing_congr {c : Call} {p q : Process ρ} {ret : Value} {str : List Byte}
    (hfileno : q.fileno = p.fileno) (hreadlink : q.readlink = p.readlink) :
    c.showing q ret str = c.showing p ret str := by
  have htext : (fun a : Arg => a.showing q str) = fun a => a.showing p str := by
    funext a
    unfold Arg.showing
    split
    case isTrue => rfl
    case isFalse h => exact (text_congr h hfileno hreadlink).1
  rw [Call.showing, Call.showing, htext]

/-- The fields of a transfer, with the string among those that have nothing to do with it. -/
theorem showing_fields {c : Call} {buf : Value} (h : c.buffer = some buf) (p : Process ρ) (ret : Value) :
    ∃ front back, ∀ str, (c.showing p ret str).fields = front ++ quoted str :: back := by
  obtain ⟨front, tag, type, back, hlogged, hptr, hother⟩ := buffer_split h
  have hsame : ∀ as : List Arg, (∀ b ∈ as, b ∈ front ++ back) → ∀ str,
      as.map (·.showing p str) = as.map (·.text p) := by
    intro as has str
    exact List.map_congr_left fun b hb => if_neg (hother b (has b hb))
  refine ⟨front.map (·.text p), back.map (·.text p), fun str => ?_⟩
  simp only [Call.showing, hlogged, List.map_append, List.map_cons]
  rw [hsame front fun b hb => List.mem_append_left _ hb, hsame back fun b hb => List.mem_append_right _ hb]
  exact congrArg (front.map (·.text p) ++ · :: back.map (·.text p)) (if_pos hptr)

theorem joined_length (fields : List (List Byte)) (sep : List Byte) :
    (fields.intersperse sep).flatten.length =
      (fields.map List.length).sum + (fields.length - 1) * sep.length := by
  induction fields with
  | nil => simp
  | cons x rest ih =>
    cases rest with
    | nil => simp
    | cons y rest =>
      simp only [List.intersperse_cons_cons, List.flatten_cons, List.length_append, ih, List.map_cons,
        List.sum_cons, List.length_cons, Nat.add_sub_cancel, Nat.add_mul]
      omega

/-- The record has a byte more for each byte of the string. -/
theorem showing_length {c : Call} {buf : Value} (h : c.buffer = some buf) (p : Process ρ) (ret : Value)
    (str : List Byte) :
    (c.showing p ret str).text.length = (c.showing p ret []).text.length + str.length := by
  obtain ⟨front, back, hfields⟩ := showing_fields h p ret
  simp only [Record.text, List.length_append, joined_length, hfields, List.map_append, List.map_cons,
    List.sum_append, List.sum_cons, List.length_cons, quoted_length, List.length_nil]
  simp only [Call.showing]
  omega

theorem late_transfers {c : Call} (h : c.func.Transfers) : c.late = c.logged := by
  refine if_neg fun hfclose => ?_
  rw [hfclose] at h
  rcases h with h | h | h | h <;> cases h

/-- The record of a transfer, from the string at its buffer. -/
theorem record_showing {libc : Libc (Process ρ)} {c : Call} {s : State (Process ρ)} {buf : Value}
    {str : List Byte} (h : c.buffer = some buf) (hstr : stringAt (c.left libc s).mem buf = some str) :
    c.record libc s = c.showing (c.left libc s) (c.called libc s).1 str := by
  have hearly := early_transfers (transfers_of_buffer h)
  have hlate := late_transfers (transfers_of_buffer h)
  have htext : ∀ a ∈ c.logged, a.text (c.left libc s) = a.showing (c.left libc s) str := by
    intro a ha
    by_cases hover : resolution a.type = some .constVoidPtr
    · rw [Arg.showing, if_pos hover]
      exact Arg.text_ptr hover (buffer_value h ha hover ▸ hstr)
    · exact (if_neg hover).symm
  simp only [Call.record, Call.showing, hearly, hlate, List.map_nil, List.nil_append,
    List.map_congr_left htext]

/-! ### Two executions -/

/-- Two processes with the same descriptors and links and the same `n` bytes at the buffer. -/
structure Alike (n : Nat) (buf : Value) (p q : Process ρ) : Prop where
  fileno : q.fileno = p.fileno
  readlink : q.readlink = p.readlink
  mem : Agree n buf p.mem q.mem

/-- A transfer that returns has logged the string at its buffer. -/
theorem run_showing {libc : Libc (Process ρ)} {c : Call} {s t : State (Process ρ)} {ret buf : Value}
    {r : Record} (h : c.run libc s = some (ret, t, r)) (hbuf : c.buffer = some buf) :
    ∃ str, stringAt t.env.mem buf = some str ∧ r = c.showing t.env ret str := by
  obtain ⟨⟨-, hthere⟩, -, rfl, rfl, rfl⟩ := run_iff.mp h
  obtain ⟨front, tag, type, back, hlogged, hptr, -⟩ := buffer_split hbuf
  obtain ⟨e, he⟩ := c.after_env libc s
  rw [late_transfers (transfers_of_buffer hbuf)] at hthere
  have hmem : ⟨tag, type, buf⟩ ∈ c.logged := by
    rw [hlogged]
    exact List.mem_append_right _ (List.mem_cons_self ..)
  have hsome := hthere _ hmem
  rw [Arg.there_ptr hptr] at hsome
  obtain ⟨str, hstr⟩ := Option.isSome_iff_exists.mp hsome
  refine ⟨str, by rw [he]; exact hstr, ?_⟩
  rw [record_showing hbuf hstr, he]
  exact showing_congr rfl rfl

/-- A transfer that leaves a memory with another string at its buffer, and nothing else new. -/
theorem exists_run {libc : Libc (Process ρ)} {c : Call} {s t : State (Process ρ)} {ret buf : Value}
    {r : Record} {m : Pages} {str : List Byte} (h : c.run libc s = some (ret, t, r))
    (hbuf : c.buffer = some buf) (hstr : stringAt m buf = some str)
    (hlen : (c.showing t.env ret str).text.length < 2 ^ 31) :
    ∃ libc' t', c.run libc' s = some (ret, t', c.showing t.env ret str) ∧ t'.env.mem = m ∧
      t'.env.fileno = t.env.fileno ∧ t'.env.readlink = t.env.readlink := by
  obtain ⟨⟨-, hthere⟩, -, rfl, rfl, -⟩ := run_iff.mp h
  obtain ⟨e, he⟩ := c.after_env libc s
  rw [he] at hlen ⊢
  rw [late_transfers (transfers_of_buffer hbuf)] at hthere
  let q : Process ρ := { c.left libc s with mem := m }
  let libc' : Libc (Process ρ) :=
    leaving (libc.run (fetch s.libcFunc c.func.wrapper.instantiation c.func.wrapper.name) c.args
      (lookedAll c.early s.env)).1 q
  have hleft : c.left libc' s = q := rfl
  have hret : (c.called libc' s).1 = (c.called libc s).1 := rfl
  have hthere' : c.There libc' s := by
    refine ⟨by rw [early_transfers (transfers_of_buffer hbuf)]; nofun, ?_⟩
    rw [late_transfers (transfers_of_buffer hbuf), hleft]
    intro a ha
    by_cases hover : resolution a.type = some .constVoidPtr
    · rw [Arg.there_ptr hover, buffer_value hbuf ha hover]
      exact congrArg Option.isSome hstr
    · rw [(text_congr (p := c.left libc s) (q := q) hover rfl rfl).2]
      exact hthere a ha
  have hrecord : c.record libc' s = c.showing (c.left libc s) (c.called libc s).1 str := by
    have hshown := record_showing hbuf (hleft ▸ hstr : stringAt (c.left libc' s).mem buf = some str)
    rw [hshown, hret, hleft]
    exact showing_congr rfl rfl
  obtain ⟨e', he'⟩ := c.after_env libc' s
  have hrun := run_of_there hthere' (quotable_of_length (by rw [hrecord]; exact hlen))
  rw [hrecord] at hrun
  rw [hleft] at he'
  exact ⟨libc', c.after libc' s, hrun, by rw [he'], by rw [he'], by rw [he']⟩

/-- **The transferred bytes decide the record that is written exactly when one of them is zero,
or a string that goes on for one byte after them is too long to be written.** -/
theorem reveal_iff {libc : Libc (Process ρ)} {c : Call} {s t : State (Process ρ)} {ret buf : Value}
    {r : Record} (h : c.run libc s = some (ret, t, r)) (hlen : r.text.length < 2 ^ 31)
    (hbuf : c.buffer = some buf) :
    (∀ (libc' : Libc (Process ρ)) s' t' r', c.run libc' s' = some (ret, t', r') →
        r'.text.length < 2 ^ 31 → Alike (c.transferred ret) buf t.env t'.env → r' = r) ↔
      (∃ i < c.transferred ret, t.env.mem (buf + BitVec.ofNat 64 i) = some 0) ∨
        2 ^ 31 ≤ (c.showing t.env ret []).text.length + c.transferred ret + 1 := by
  obtain ⟨str, hstr, rfl⟩ := run_showing h hbuf
  obtain ⟨-, -, hends⟩ := stringAt_iff.mp hstr
  have hsize := showing_length hbuf t.env ret
  rw [hsize str] at hlen
  constructor
  · -- otherwise the string can be made to end elsewhere
    intro hsame
    by_contra hnot
    obtain ⟨hzero, hroom⟩ := not_or.mp hnot
    have hn : c.transferred ret ≤ str.length := Nat.not_lt.mp (mt hends.length_lt_iff.mp hzero)
    obtain ⟨m, str', hstr', hlen', hne, hmem⟩ := stringAt_changed hstr hn (by omega)
    have hfits : (c.showing t.env ret str').text.length < 2 ^ 31 := by
      rw [hsize str']
      omega
    obtain ⟨libc', t', hrun, hm, hfileno, hreadlink⟩ := exists_run h hbuf hstr' hfits
    have heq := hsame libc' s t' _ hrun hfits ⟨hfileno, hreadlink, by rw [hm]; exact hmem⟩
    have hlengths := congrArg (·.text.length) heq
    simp only [hsize str', hsize str] at hlengths
    omega
  · intro hcond libc' s' t' r' hrun hlen' halike
    obtain ⟨str', hstr', rfl⟩ := run_showing hrun hbuf
    obtain ⟨-, -, hends'⟩ := stringAt_iff.mp hstr'
    rw [showing_congr halike.fileno halike.readlink] at hlen' ⊢
    rw [hsize str'] at hlen'
    -- both strings end among the transferred bytes, or right after them
    have hle : str.length ≤ c.transferred ret ∧ str'.length ≤ c.transferred ret := by
      rcases hcond with ⟨i, hi, hzero⟩ | hroom
      · have hzero' := (halike.mem i hi).trans hzero
        have hlt := hends.length_lt_iff.mpr ⟨i, hi, hzero⟩
        have hlt' := hends'.length_lt_iff.mpr ⟨i, hi, hzero'⟩
        exact ⟨Nat.le_of_lt hlt, Nat.le_of_lt hlt'⟩
      · omega
    rw [hends.eq_of_agree hends' halike.mem hle.1 hle.2]

/-- The line with the zero behind it. -/
theorem reveal_ended : ∃ t r,
    Call.run (leaving 3 typed) ⟨.read, [0, 0x1000, 3]⟩ (init typed) = some (3, t, r) ∧
    ∀ (libc' : Libc (Process Unit)) s' t' r',
      Call.run libc' ⟨.read, [0, 0x1000, 3]⟩ s' = some (3, t', r') → r'.text.length < 2 ^ 31 →
        Alike 3 0x1000 t.env t'.env → r' = r := by
  have hthere : Call.There (leaving 3 typed) ⟨.read, [0, 0x1000, 3]⟩ (init typed) := by decide +kernel
  have hrun := run_of_there hthere (by decide +kernel)
  exact ⟨_, _, hrun, (reveal_iff hrun (by decide +kernel) rfl).mpr (.inl ⟨2, by decide, by decide⟩)⟩

/-- The line in a buffer that has held more. -/
def reused : Process Unit :=
  { typed with mem := fun a => if a = 0x1002 then some 0x73 else if a = 0x1003 then some 0
                       else typed.mem a }

/-- Two reads of the same two bytes, with different records. -/
theorem reveal_reused : ∃ t r t' r',
    Call.run (leaving 2 typed) ⟨.read, [0, 0x1000, 2]⟩ (init typed) = some (2, t, r) ∧
    Call.run (leaving 2 reused) ⟨.read, [0, 0x1000, 2]⟩ (init typed) = some (2, t', r') ∧
    r.text.length < 2 ^ 31 ∧ r'.text.length < 2 ^ 31 ∧ Alike 2 0x1000 t.env t'.env ∧ r' ≠ r := by
  have hthere : Call.There (leaving 2 typed) ⟨.read, [0, 0x1000, 2]⟩ (init typed) := by decide +kernel
  have hthere' : Call.There (leaving 2 reused) ⟨.read, [0, 0x1000, 2]⟩ (init typed) := by decide +kernel
  have hrun := run_of_there hthere (by decide +kernel)
  have hrun' := run_of_there hthere' (by decide +kernel)
  have hmem : Agree 2 0x1000 typed.mem reused.mem := by
    unfold Agree
    decide
  exact ⟨_, _, _, _, hrun, hrun', by decide +kernel, by decide +kernel, ⟨rfl, rfl, hmem⟩,
    by decide +kernel⟩

end Apue.Logger

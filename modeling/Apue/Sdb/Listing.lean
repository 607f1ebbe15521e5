import Apue.Layout.Columns
import Apue.Sdb.View
import Apue.Sweep.Linear

/-! What `disasm` lists.

A text of valid instructions is swept from the address on; `disasm` hands the eighty bytes
there to the disassembler and prints up to ten of what comes back, each with the bytes up to
the next one, and the last one with the whole byte field of the library. `listed_iff`: it
prints the next ten instructions of the text, or all that are left, each with its own bytes,
exactly when these are what is seen in the eighty bytes and one more instruction follows
them there. -/
namespace Apue.Sdb
open Memory CLib Transition Sweep Layout

variable {ρ : Type}

/-- An instruction where it is, with its bytes, its mnemonic and its operands. -/
abbrev TextItem := Item Addr Byte (String × String)

/-- What the disassembler gives for an instruction: its bytes at the start of a larger field. -/
structure Decodes (it : TextItem) (insn : Insn) : Prop where
  address : insn.address = it.start
  bytes : insn.bytes.take it.part.length = it.part
  mnemonic : insn.mnemonic = it.val.1
  opStr : insn.opStr = it.val.2

/-- The disassembler of the world sweeps with `d`: it gives the valid instructions that
follow each other in the bytes it gets, and its byte field is larger than any of them. -/
structure Disassembles (w : World ρ) (d : Decoder Addr Byte (String × String)) : Prop where
  next : ∀ a n, d.next a n = a + BitVec.ofNat 64 n
  size : ∀ {a l val n}, d.decode a l = some (val, n) → n ≤ 15
  sweep : ∀ code a, List.Forall₂ Decodes (sweep d a code) (w.csDisasm code a)
  field : 16 ≤ w.csBytesSize

/-- The text segment in a memory. -/
def textBytes (own : Mem) (conf : Config) : List Byte :=
  (List.range conf.textsize.toNat).map fun i => own (conf.entrypoint + BitVec.ofNat 64 i)

/-- A line with given bytes. -/
def insnText (a : Addr) (bytes : List Byte) (val : String × String) : String :=
  "0x" ++ hexDigits a ++ ": " ++ String.join (bytes.map fun b => hexByte b ++ " ") ++
    String.join (List.replicate (10 - bytes.length) "   ") ++ val.1 ++ "\t" ++ val.2

/-- The line of an instruction with its own bytes. -/
def itemLine (it : TextItem) : String := insnText it.start it.part it.val

def rangeNote : String := "** the address is out of the range of the text segment"

/-- `disasm` prints the next ten of the instructions, or all if there are fewer. -/
def Lists (w : World ρ) (items : List TextItem) (addr : String) (s : State ρ) : Prop :=
  ∃ note, (note = [] ∨ note = [rangeNote]) ∧ disasm w addr s =
    .ok (0, { s with out := s.out ++ ((items.take 10).map itemLine ++ note) })

/-- Byte `i` of the eighty as the disassembler gets it: a trap for every breakpoint found
there, or-ed into the byte at the end of a word. -/
def seen (w : World ρ) (s : State ρ) (a : Addr) (i : Nat) : Byte :=
  let x := a + BitVec.ofNat 64 (8 * (i / 8))
  let b := byteOf (peektext w s x) (i % 8)
  if hits s.conf.bps x true (i % 8) = [] then b
  else if i % 8 = 7 then b ||| 0xcc else 0xcc

def window80 (w : World ρ) (s : State ρ) (a : Addr) : List Byte := (List.range 80).map (seen w s a)

/-! ### Lines as text -/

/-- A byte in a line. -/
def byteColumn (b : Byte) : List Char := (hexByte b ++ " ").toList

theorem hexByte_toList (b : Byte) :
    (hexByte b).toList = [Nat.digitChar (b.toNat / 16), Nat.digitChar (b.toNat % 16)] := by
  have hb : b.toNat < 256 := b.isLt
  have hdigits : (hexDigits (b.setWidth 64)).toList = Nat.toDigits 16 b.toNat := by
    rw [hexDigits, String.toList_ofList, BitVec.toNat_setWidth, Nat.mod_eq_of_lt (by omega)]
  rw [hexByte, padLeft, String.toList_append, String.toList_ofList, hdigits, ← String.length_toList,
    hdigits]
  by_cases hsmall : b.toNat < 16
  · rw [Nat.toDigits_of_lt_base hsmall, Nat.div_eq_of_lt hsmall, Nat.mod_eq_of_lt hsmall]
    rfl
  · rw [Nat.toDigits_of_base_le (by decide) (by omega), Nat.toDigits_of_lt_base (by omega)]
    rfl

theorem byteColumn_length (b : Byte) : (byteColumn b).length = 3 := by
  rw [byteColumn, String.toList_append, hexByte_toList]
  rfl

theorem byteColumn_injective : Function.Injective byteColumn := by
  intro b c h
  have hhex : (hexByte b).toList = (hexByte c).toList := by
    rw [byteColumn, byteColumn, String.toList_append, String.toList_append] at h
    exact List.append_cancel_right h
  rw [hexByte_toList, hexByte_toList] at hhex
  have hdigit : ∀ m n : Fin 16, Nat.digitChar m = Nat.digitChar n → m = n := by decide
  have hb : b.toNat < 256 := b.isLt
  have hc : c.toNat < 256 := c.isLt
  obtain ⟨hhigh, hlow, -⟩ : _ ∧ _ ∧ True := by simpa using hhex
  have hhigh' := congrArg Fin.val (hdigit ⟨b.toNat / 16, by omega⟩ ⟨c.toNat / 16, by omega⟩ hhigh)
  have hlow' := congrArg Fin.val (hdigit ⟨b.toNat % 16, by omega⟩ ⟨c.toNat % 16, by omega⟩ hlow)
  simp only at hhigh' hlow'
  exact BitVec.eq_of_toNat_eq (by omega)

section
variable {a : Addr} {bytes bytes' : List Byte} {val val' : String × String}

theorem insnText_toList : (insnText a bytes val).toList =
    ("0x" ++ hexDigits a ++ ": ").toList ++ (bytes.flatMap byteColumn ++
      (List.replicate (3 * (10 - bytes.length)) ' ' ++ (val.1 ++ "\t" ++ val.2).toList)) := by
  have hblanks : ∀ n, (List.replicate n "   ").flatMap String.toList = List.replicate (3 * n) ' ' := by
    intro n
    induction n with
    | zero => rfl
    | succ n ih =>
      rw [List.replicate_succ, List.flatMap_cons, ih, Nat.mul_succ, Nat.add_comm, List.replicate_add]
      rfl
  have hbytes : (String.join (bytes.map fun b => hexByte b ++ " ")).toList = bytes.flatMap byteColumn := by
    rw [String.toList_join, List.flatMap_map]
    rfl
  have hpad : (String.join (List.replicate (10 - bytes.length) "   ")).toList =
      List.replicate (3 * (10 - bytes.length)) ' ' := by
    rw [String.toList_join, hblanks]
  simp only [insnText, String.toList_append, hbytes, hpad, List.append_assoc]

/-- A line shows the first bytes it has. -/
theorem take_of_insnText (h : insnText a bytes val = insnText a bytes' val') :
    bytes.take (min bytes.length bytes'.length) = bytes'.take (min bytes.length bytes'.length) := by
  have hlist := congrArg String.toList h
  rw [insnText_toList, insnText_toList] at hlist
  exact take_of_cells byteColumn_length byteColumn_injective (List.append_cancel_left hlist)

/-- With the same instruction, it has as many bytes or at most ten. -/
theorem length_of_insnText (h : insnText a bytes val = insnText a bytes' val) :
    max bytes.length 10 = max bytes'.length 10 := by
  have hsum : ∀ l : List Byte, (l.flatMap byteColumn).length = 3 * l.length := by
    intro l
    induction l with
    | nil => rfl
    | cons b l ih =>
      rw [List.flatMap_cons, List.length_append, byteColumn_length, ih, List.length_cons]
      omega
  have hlist := congrArg String.toList h
  rw [insnText_toList, insnText_toList] at hlist
  have hlength := congrArg List.length (List.append_cancel_left hlist)
  simp only [List.length_append, List.length_replicate, hsum] at hlength
  omega

end

/-! ### One instruction -/

section
variable {w : World ρ} {d : Decoder Addr Byte (String × String)} {e it : TextItem} {insn : Insn}
  {rest : List Insn} {p : Addr} {l l' : List Byte}

/-- The bytes of a line: the field, cut or as long as it says. -/
def shownBytes (w : World ρ) (insn : Insn) (rest : List Insn) : List Byte :=
  (List.range (insnBytes w insn rest)).map fun i => insn.bytes.getD i 0

theorem insnLine_eq : insnLine w insn rest =
    insnText insn.address (shownBytes w insn rest) (insn.mnemonic, insn.opStr) := by
  rw [insnText, shownBytes, List.length_map, List.length_range, List.map_map]
  rfl

theorem shownBytes_length : (shownBytes w insn rest).length = insnBytes w insn rest := by
  rw [shownBytes, List.length_map, List.length_range]

/-- The line begins with the instruction's own bytes. -/
theorem take_shownBytes (he : Decodes e insn) (hn : e.part.length ≤ insnBytes w insn rest) :
    (shownBytes w insn rest).take e.part.length = e.part := by
  have hfield : e.part.length ≤ insn.bytes.length := by
    have hlen := congrArg List.length he.bytes
    rw [List.length_take] at hlen
    omega
  calc (shownBytes w insn rest).take e.part.length
      = (List.range e.part.length).map fun i => insn.bytes.getD i 0 := by
        rw [shownBytes, ← List.map_take, List.take_range, Nat.min_eq_left hn]
    _ = insn.bytes.take e.part.length := by
        apply List.ext_getElem
        · rw [List.length_map, List.length_range, List.length_take, Nat.min_eq_left hfield]
        · intro i hi hi'
          rw [List.length_map, List.length_range] at hi
          have hlt : i < insn.bytes.length := Nat.lt_of_lt_of_le hi hfield
          rw [List.getElem_map, List.getElem_range, List.getElem_take, List.getD_eq_getElem?_getD,
            List.getElem?_eq_getElem hlt, Option.getD_some]
    _ = e.part := he.bytes

/-- The bytes up to the next instruction are the instruction's own. -/
theorem insnBytes_cons {next : Insn} {n : Nat} (hn : n ≤ 15)
    (h : next.address = insn.address + BitVec.ofNat 64 n) : insnBytes w insn (next :: rest) = n := by
  have hdiff : insn.address + BitVec.ofNat 64 n - insn.address = BitVec.ofNat 64 n := by
    rw [BitVec.add_comm, BitVec.add_sub_cancel]
  have hsmall : ∀ n : Fin 16, ((BitVec.ofNat 64 n).setWidth 32).toInt.toNat = n := by decide
  rw [insnBytes, h, hdiff]
  exact hsmall ⟨n, by omega⟩

/-- What follows an instruction in a sweep begins where it ends. -/
theorem next_address (hd : Disassembles w d) {rest : List TextItem} {insns : List Insn} {n : Nat}
    (hs : rest = sweep d (d.next p n) l) (h : List.Forall₂ Decodes rest insns) :
    ∀ next ∈ insns.head?, next.address = p + BitVec.ofNat 64 n := by
  intro next hnext
  cases h with
  | nil => cases hnext
  | cons he hrest =>
    obtain ⟨k, -, hstart, -⟩ := sweep_eq_cons hs.symm
    rw [← Option.some.inj hnext, he.address, hstart, hd.next]

/-- **Followed by another one, an instruction gets a line with its own bytes.** -/
theorem insnLine_followed (he : Decodes e insn) (hsize : e.part.length ≤ 15) {next : Insn}
    (hnext : next.address = e.start + BitVec.ofNat 64 e.part.length) :
    insnLine w insn (next :: rest) = itemLine e := by
  have hbytes : insnBytes w insn (next :: rest) = e.part.length := by
    apply insnBytes_cons hsize
    rw [hnext, he.address]
  have hshown : shownBytes w insn (next :: rest) = e.part := by
    have htake := take_shownBytes (w := w) he (Nat.le_of_eq hbytes.symm)
    rwa [List.take_of_length_le (by rw [shownBytes_length, hbytes])] at htake
  rw [insnLine_eq, hshown, he.address, he.mnemonic, he.opStr]
  rfl

/-- **A line with an instruction's own bytes is that instruction's, and another one follows
it.** -/
theorem followed_of_insnLine (hd : Disassembles w d) {n : Nat} (he : Decodes e insn)
    (hdec : d.decode p l = some (e.val, n)) (hpart : e.part = l.take n) (hlen : e.part.length = n)
    {n' : Nat} (hdec' : d.decode p l' = some (it.val, n')) (hpart' : it.part = l'.take n')
    (hlen' : it.part.length = n') (hstart : e.start = it.start)
    (hnext : ∀ next ∈ rest.head?, next.address = e.start + BitVec.ofNat 64 n)
    (hline : insnLine w insn rest = itemLine it) : e.val = it.val ∧ e.part = it.part ∧ rest ≠ [] := by
  have hn : n ≤ 15 := hd.size hdec
  have hn' : n' ≤ 15 := hd.size hdec'
  have hcount : n ≤ insnBytes w insn rest ∧ (rest = [] → 16 ≤ insnBytes w insn rest) := by
    cases rest with
    | nil => exact ⟨Nat.le_trans (Nat.le_succ_of_le hn) hd.field, fun _ => hd.field⟩
    | cons next rest =>
      have hbytes : insnBytes w insn (next :: rest) = n := by
        apply insnBytes_cons hn
        rw [hnext next rfl, he.address]
      exact ⟨Nat.le_of_eq hbytes.symm, nofun⟩
  rw [insnLine_eq, itemLine, he.address, hstart] at hline
  have htake := take_of_insnText hline
  rw [shownBytes_length, hlen'] at htake
  have hshown : (shownBytes w insn rest).take e.part.length = e.part := by
    apply take_shownBytes he
    rw [hlen]
    exact hcount.1
  rw [hlen, hpart] at hshown
  have hagree : l.take (min n n') = l'.take (min n n') := by
    calc l.take (min n n')
        = ((shownBytes w insn rest).take n).take (min n n') := by
          rw [hshown, List.take_take, Nat.min_eq_left (Nat.min_le_left n n')]
      _ = ((shownBytes w insn rest).take (min (insnBytes w insn rest) n')).take (min n n') := by
          rw [List.take_take, List.take_take]
          exact congrArg (List.take · _) (by omega)
      _ = (it.part.take (min (insnBytes w insn rest) n')).take (min n n') := by rw [htake]
      _ = l'.take (min n n') := by
          rw [hpart', List.take_take, List.take_take]
          exact congrArg (List.take · _) (by omega)
  obtain ⟨hval, rfl⟩ := decode_unique hdec hdec' hagree
  refine ⟨hval, ?_, fun hrest => ?_⟩
  · rw [hpart, hpart', ← Nat.min_self n, hagree]
  · have hsame : (insn.mnemonic, insn.opStr) = it.val := by
      rw [he.mnemonic, he.opStr, hval]
    rw [hsame] at hline
    have hmax := length_of_insnText hline
    rw [shownBytes_length, hlen'] at hmax
    have := hcount.2 hrest
    omega

end

/-! ### The listing -/

section
variable {w : World ρ} {conf : Config} {d : Decoder Addr Byte (String × String)} {it : TextItem}
  {items : List TextItem} {insns : List Insn} {p : Addr} {n : Nat} {l v : List Byte}

/-- **Where another instruction is seen after the first `k`, these are listed line by line.** -/
theorem disasmLines_followed (hd : Disassembles w d) {k : Nat} (hk : k < (sweep d p v).length)
    (hinsns : List.Forall₂ Decodes (sweep d p v) insns) (hn : k ≤ n)
    (hin : ∀ it ∈ (sweep d p v).take k, conf.InRange it.start)
    (hout : k < n → ¬ conf.InRange (stop d p ((sweep d p v).take k))) :
    disasmLines w conf n insns =
      ((sweep d p v).take k).map itemLine ++ if k < n then [rangeNote] else [] := by
  induction k generalizing p v insns n with
  | zero =>
    obtain ⟨it, m, hs, -, hstart, -⟩ := sweep_of_pos hk
    rw [hs] at hinsns
    cases hinsns with
    | cons he hrest =>
      cases n with
      | zero => rfl
      | succ n =>
        rw [disasmLines, he.address, hstart]
        exact if_neg (hout (Nat.zero_lt_succ n))
  | succ k ih =>
    obtain ⟨it, m, hs, hdec, hstart, -, hlen⟩ := sweep_of_pos (Nat.zero_lt_of_lt hk)
    rw [hs] at hk hin hinsns hout ⊢
    rw [List.take_succ_cons] at hin hout
    obtain ⟨n, rfl⟩ : ∃ n', n = n' + 1 := ⟨n - 1, by omega⟩
    cases hinsns with
    | @cons _ insn _ insns he htail =>
      obtain ⟨hhere, hlater⟩ := List.forall_mem_cons.mp hin
      have haddress := next_address hd rfl htail
      have hk' := Nat.lt_of_succ_lt_succ hk
      have hmore : insns ≠ [] := by
        intro hnil
        rw [htail.length_eq, hnil] at hk'
        cases hk'
      have hline : insnLine w insn insns = itemLine it := by
        obtain ⟨next, more, rfl⟩ := List.exists_cons_of_ne_nil hmore
        apply insnLine_followed he
        · rw [hlen]
          exact hd.size hdec
        · rw [haddress next rfl, hstart, hlen]
      rw [disasmLines, he.address, if_pos hhere, hline, List.take_succ_cons, List.map_cons,
        ih hk' htail (Nat.le_of_succ_le_succ hn) hlater fun hlt => stop_cons hlen ▸ hout (Nat.succ_lt_succ hlt)]
      simp

/-- **Where the first `n` instructions of `l` are listed line by line, they are seen, and
another one after them.** -/
theorem followed_of_disasmLines (hd : Disassembles w d) (hne : insns ≠ [])
    (hinsns : List.Forall₂ Decodes (sweep d p v) insns)
    (hin : ∀ it ∈ (sweep d p l).take n, conf.InRange it.start) {note : List String}
    (h : disasmLines w conf n insns = ((sweep d p l).take n).map itemLine ++ note) :
    Followed d p ((sweep d p l).take n) v := by
  have hfirst : d.decode p v ≠ none := by
    intro hnone
    rw [sweep_none hnone] at hinsns
    cases hinsns
    exact hne rfl
  induction n generalizing p v l insns with
  | zero => exact followed_nil.mpr hfirst
  | succ n ih =>
    cases hl : sweep d p l with
    | nil => exact followed_nil.mpr hfirst
    | cons it items =>
      cases hv : sweep d p v with
      | nil =>
        rw [hv] at hinsns
        cases hinsns
        exact absurd rfl hne
      | cons e rest =>
        obtain ⟨m, hdec, hstart, hpart, hlen, hrest⟩ := sweep_eq_cons hv
        obtain ⟨m', hdec', hstart', hpart', hlen', hitems⟩ := sweep_eq_cons hl
        rw [hl, List.take_succ_cons] at h hin
        rw [hv] at hinsns
        cases hinsns with
        | @cons _ insn _ insns he htail =>
          obtain ⟨hhere, hlater⟩ := List.forall_mem_cons.mp hin
          have haddress : insn.address = it.start := by rw [he.address, hstart, hstart']
          rw [disasmLines, haddress, if_pos hhere, List.map_cons, List.cons_append] at h
          obtain ⟨hline, hlines⟩ := List.cons.inj h
          have hnext := next_address hd hrest htail
          rw [← hstart] at hnext
          obtain ⟨-, hsame, hmore⟩ := followed_of_insnLine hd he hdec hpart hlen hdec' hpart' hlen'
            (hstart.trans hstart'.symm) hnext hline
          have hsize : m = m' := by rw [← hlen, ← hlen', hsame]
          subst hsize hrest hitems
          refine (followed_cons (hsame.symm.trans hpart) hlen').mpr ?_
          refine ih hmore htail hlater hlines fun hnone => hmore ?_
          rw [sweep_none hnone] at htail
          cases htail
          rfl

end

/-! ### The text -/

section
variable {w : World ρ} {s : State ρ} {own : Mem} {d : Decoder Addr Byte (String × String)}
  {it : TextItem} {before after : List TextItem} {addr : String}

theorem viewByte_eq (w : World ρ) (s : State ρ) (a : Addr) (i : Nat) :
    viewByte w s a i = seen w s a i := by
  rw [viewByte, viewWord, seen]
  have hlt : i % 8 < 8 := Nat.mod_lt i (by decide)
  by_cases hlast : i % 8 = 7
  · rw [hlast, byteOf_alternate_trap_last]
    rfl
  · rw [byteOf_alternate_trap _ (by omega)]
    simp only [hlast, if_false]

theorem disasmCode_window (w : World ρ) (s : State ρ) (a : Addr) : disasmCode w s a = window80 w s a := by
  rw [disasmCode_eq]
  exact List.map_congr_left fun i _ => viewByte_eq w s a i

theorem textBytes_length (own : Mem) (conf : Config) :
    (textBytes own conf).length = conf.textsize.toNat := by
  rw [textBytes, List.length_map, List.length_range]

theorem stop_eq (hd : Disassembles w d) (a : Addr) (items : List TextItem) :
    stop d a items = a + BitVec.ofNat 64 (items.flatMap Item.part).length := by
  induction items generalizing a with
  | nil => exact (BitVec.add_zero a).symm
  | cons it items ih =>
    rw [stop_cons rfl, ih, hd.next, List.flatMap_cons, List.length_append, BitVec.add_assoc,
      BitVec.ofNat_add]

/-- The range check, by the offset. -/
theorem inRange_offset {conf : Config} (hfit : conf.entrypoint.toNat + conf.textsize.toNat ≤ 2 ^ 64)
    (hpos : 0 < conf.textsize.toNat) {n : Nat} (hn : n ≤ conf.textsize.toNat) :
    conf.InRange (conf.entrypoint + BitVec.ofNat 64 n) ↔ n < conf.textsize.toNat := by
  unfold Config.InRange
  bv_omega

/-- Instructions of the text pass the range check. -/
theorem inRange_item (hd : Disassembles w d)
    (hfit : s.conf.entrypoint.toNat + s.conf.textsize.toNat ≤ 2 ^ 64)
    (hat : sweep d s.conf.entrypoint (textBytes own s.conf) = before ++ it :: after) :
    s.conf.InRange it.start := by
  obtain ⟨hstart, hlt, -⟩ := start_of_sweep hat
  rw [textBytes_length] at hlt
  rw [hstart, stop_eq hd]
  exact (inRange_offset hfit (by omega) (by omega)).mpr hlt

/-- The end of the text does not. -/
theorem not_inRange_stop (hd : Disassembles w d)
    (hfit : s.conf.entrypoint.toNat + s.conf.textsize.toNat ≤ 2 ^ 64)
    (hpos : 0 < s.conf.textsize.toNat)
    (hwhole : Whole d s.conf.entrypoint (textBytes own s.conf)) :
    ¬ s.conf.InRange
      (stop d s.conf.entrypoint (sweep d s.conf.entrypoint (textBytes own s.conf))) := by
  rw [stop_eq hd, show _ = textBytes own s.conf from hwhole, textBytes_length]
  exact fun h => absurd ((inRange_offset hfit hpos (Nat.le_refl _)).mp h) (Nat.lt_irrefl _)

theorem itemLine_ne (it : TextItem) : itemLine it ≠ "ERROR: Failed to disassemble given code!" := by
  intro h
  have hlist := congrArg String.toList h
  rw [itemLine, insnText_toList, String.toList_append, String.toList_append] at hlist
  exact absurd (List.cons.inj hlist).1 (by decide)

/-- What is printed of what the disassembler gives. -/
def listing (w : World ρ) (conf : Config) (insns : List Insn) : List String :=
  if insns = [] then ["ERROR: Failed to disassemble given code!"] else disasmLines w conf 10 insns

theorem disasm_running (hs : s.conf.status = .running) {a : Addr} (haddr : strtoull addr = a) :
    disasm w addr s = .ok (0, { s with
      out := s.out ++ listing w s.conf (w.csDisasm (window80 w s a) a) }) := by
  subst haddr
  rw [disasm, checked_running (by decide) hs]
  simp only [disasmCode_window]
  split
  case h_1 heq =>
    rw [heq]
    rfl
  case h_2 hne => rw [listing, if_neg hne]

/-- **`disasm` prints the next ten instructions of the text, or all that are left, each with
exactly its own bytes, exactly when these are what is seen and another one follows them
among the eighty bytes.** -/
theorem listed_iff (hd : Disassembles w d) (hs : s.conf.status = .running)
    (hfit : s.conf.entrypoint.toNat + s.conf.textsize.toNat ≤ 2 ^ 64)
    (hwhole : Whole d s.conf.entrypoint (textBytes own s.conf))
    (hat : sweep d s.conf.entrypoint (textBytes own s.conf) = before ++ it :: after)
    (haddr : strtoull addr = it.start) :
    Lists w (it :: after) addr s ↔
      Followed d it.start ((it :: after).take 10) (window80 w s it.start) := by
  obtain ⟨hstart, hlt, hsweep⟩ := start_of_sweep hat
  rw [textBytes_length] at hlt
  have hin : ∀ x ∈ (it :: after).take 10, s.conf.InRange x.start := by
    intro x hx
    obtain ⟨pre, post, hsplit⟩ := List.append_of_mem (List.mem_of_mem_take hx)
    rw [hsplit, ← List.append_assoc] at hat
    exact inRange_item hd hfit hat
  have hend : ¬ s.conf.InRange (stop d it.start (it :: after)) := by
    rw [hstart, ← stop_append, ← hat]
    exact not_inRange_stop hd hfit (by omega) hwhole
  have hinsns := hd.sweep (window80 w s it.start) it.start
  rw [Lists, disasm_running hs haddr]
  generalize (textBytes own s.conf).drop (before.flatMap Item.part).length = l at hsweep
  rw [← hsweep] at hin hend ⊢
  constructor
  · rintro ⟨note, -, hout⟩
    have hlines := List.append_cancel_left (congrArg State.out (congrArg Prod.snd (Except.ok.inj hout)))
    unfold listing at hlines
    split at hlines
    case isTrue =>
      rw [hsweep, List.take_succ_cons, List.map_cons, List.cons_append] at hlines
      exact absurd (List.cons.inj hlines).1.symm (itemLine_ne it)
    case isFalse hne => exact followed_of_disasmLines hd hne hinsns hin hlines
  · intro hfollowed
    rw [List.take_eq_take_min] at hfollowed hin ⊢
    obtain ⟨htake, hmore⟩ := sweep_followed (Nat.min_le_right _ _) hfollowed
    have hne : w.csDisasm (window80 w s it.start) it.start ≠ [] := by
      intro hnil
      rw [hnil] at hinsns
      rw [hinsns.length_eq] at hmore
      cases hmore
    have hout : min 10 (sweep d it.start l).length < 10 →
        ¬ s.conf.InRange (stop d it.start ((sweep d it.start l).take (min 10 (sweep d it.start l).length))) := by
      intro hfew
      rw [List.take_of_length_le (by omega)]
      exact hend
    rw [← htake] at hin hout ⊢
    have hlines := disasmLines_followed hd hmore hinsns (Nat.min_le_left 10 _) hin hout
    refine ⟨_, ?_, by rw [listing, if_neg hne, hlines]⟩
    split
    · exact .inr rfl
    · exact .inl rfl

end

/-! ### Two places of one text -/

/-- `nop` and `movabs rax, imm64`. -/
def decodeFew (l : List Byte) : Option ((String × String) × Nat) :=
  if l.take 1 = [0x90] then some (("nop", ""), 1)
  else if l.take 2 = [0x48, 0xb8] ∧ 10 ≤ l.length then
    some (("movabs", "rax, " ++ hexify (ofBytes 8 fun k => (l.take 10).getD (k + 2) 0)), 10)
  else none

theorem decodeFew_some {l : List Byte} {val : String × String} {n : Nat}
    (h : decodeFew l = some (val, n)) : (n = 1 ∨ n = 10) ∧ n ≤ l.length := by
  unfold decodeFew at h
  split at h
  case isTrue hnop =>
    cases h
    have hlen := congrArg List.length hnop
    rw [List.length_take, List.length_singleton] at hlen
    exact ⟨.inl rfl, by omega⟩
  case isFalse =>
    split at h
    case isTrue hmov =>
      cases h
      exact ⟨.inr rfl, hmov.2⟩
    case isFalse => cases h

theorem decodeFew_part {l l' : List Byte} {val : String × String} {n : Nat}
    (h : decodeFew l = some (val, n)) (heq : l'.take n = l.take n) :
    decodeFew l' = some (val, n) := by
  have htake : ∀ k ≤ n, l'.take k = l.take k := by
    intro k hk
    rw [← Nat.min_eq_left hk, ← List.take_take, heq, List.take_take]
  obtain ⟨hn, hfits⟩ := decodeFew_some h
  have hlen : n ≤ l'.length := by
    have hlength := congrArg List.length heq
    rw [List.length_take, List.length_take] at hlength
    omega
  unfold decodeFew at h ⊢
  rcases hn with rfl | rfl
  · rw [htake 1 (by decide)]
    split at h
    case isTrue hnop => rw [if_pos hnop, h]
    case isFalse => split at h <;> cases h
  · have hboth : 10 ≤ l'.length ↔ 10 ≤ l.length := iff_of_true hlen hfits
    simp only [htake 1 (by decide), htake 2 (by decide), heq, hboth]
    exact h

def fewInsns : Decoder Addr Byte (String × String) where
  decode := fun _ l => decodeFew l
  next := fun a n => a + BitVec.ofNat 64 n
  pos := by
    intro _ _ _ _ h
    have := (decodeFew_some h).1
    omega
  fits := fun h => (decodeFew_some h).2
  part := fun h _ heq => decodeFew_part h heq

/-- The library's record of an instruction, with sixteen bytes. -/
def fieldOf (it : TextItem) : Insn :=
  ⟨it.start, it.part ++ List.replicate (16 - it.part.length) 0, it.val.1, it.val.2⟩

/-- Ten `movabs` and twenty `nop`s. -/
def movsCode : List Byte :=
  (List.replicate 10 [0x48, 0xb8, 1, 2, 3, 4, 5, 6, 7, 8]).flatten ++ List.replicate 20 0x90

def movs : World Unit :=
  { fragment (readOnly 0x401000 movsCode) 0x401000 movsCode 0 with
    csDisasm := fun code a => (sweep fewInsns a code).map fieldOf }

def movsTarget : Target := fragmentTarget 0x401000 movsCode (by decide) (by decide)

theorem movs_disassembles : Disassembles movs fewInsns where
  next := fun _ _ => rfl
  size := by
    intro _ _ _ _ h
    have := (decodeFew_some h).1
    omega
  sweep := by
    intro code a
    show List.Forall₂ Decodes _ ((sweep fewInsns a code).map fieldOf)
    rw [List.forall₂_map_right_iff]
    exact List.forall₂_same.mpr fun it _ => ⟨rfl, List.take_left, rfl, rfl⟩
  field := Nat.le_refl 16

/-- The instructions of the text. -/
def movsItems (t : State Unit) : List TextItem :=
  sweep fewInsns t.conf.entrypoint (textBytes (codeAt 0x401000 movsCode) t.conf)

/-- `start` leaves a text of valid instructions. -/
def movsReady (t : State Unit) : Bool :=
  decide (t.conf.status = .running) &&
    decide (t.conf.entrypoint.toNat + t.conf.textsize.toNat ≤ 2 ^ 64) &&
    decide (Whole fewInsns t.conf.entrypoint (textBytes (codeAt 0x401000 movsCode) t.conf))

theorem ready_of_check {t : State Unit} (h : movsReady t = true) : t.conf.status = .running ∧
    t.conf.entrypoint.toNat + t.conf.textsize.toNat ≤ 2 ^ 64 ∧
    Whole fewInsns t.conf.entrypoint (textBytes (codeAt 0x401000 movsCode) t.conf) := by
  simp only [movsReady, Bool.and_eq_true, decide_eq_true_eq] at h
  exact ⟨h.1.1, h.1.2, h.2⟩

/-- How many lines there are after a command. -/
def lineCount : Except Halt (Reply Unit) → Nat
  | .ok r => r.2.out.length
  | .error _ => 0

/-- The first ten `nop`s are listed. -/
theorem listed_nops : ∃ l t it after, Path (act movs) movsTarget.loaded l t ∧
    l.map Edge.action = [.command .start {}] ∧ it.start = 0x401064 ∧
    Lists movs (it :: after) "401064" t := by
  let check := fun (t : State Unit) => movsReady t && !((movsItems t).drop 10).isEmpty &&
    decide (stop fewInsns t.conf.entrypoint ((movsItems t).take 10) = 0x401064) &&
    decide (Followed fewInsns 0x401064 (((movsItems t).drop 10).take 10) (window80 movs t 0x401064))
  have hfollow : (follow (act movs) [.command .start {}] movsTarget.loaded).any
      (fun p => check p.2) = true := by decide +kernel
  obtain ⟨l, t, hpath, hacts, hcheck⟩ := exists_path (fun _ t => check t) hfollow
  simp only [check, Bool.and_eq_true, decide_eq_true_eq] at hcheck
  obtain ⟨⟨⟨hready, hmore⟩, hstop⟩, hfollowed⟩ := hcheck
  obtain ⟨hrunning, hfit, hwhole⟩ := ready_of_check hready
  obtain ⟨it, after, hrest⟩ := List.exists_cons_of_ne_nil (l := (movsItems t).drop 10)
    (by simpa using hmore)
  have hat : movsItems t = (movsItems t).take 10 ++ it :: after := by
    rw [← hrest, List.take_append_drop]
  have hstart : it.start = 0x401064 := (start_of_sweep hat).1.trans hstop
  rw [hrest, ← hstart] at hfollowed
  have haddr : strtoull "401064" = it.start := by
    rw [hstart]
    decide
  exact ⟨l, t, it, after, hpath, hacts, hstart,
    (listed_iff movs_disassembles hrunning hfit hwhole hat haddr).mpr hfollowed⟩

/-- Of the ten `movabs` before them only eight are. -/
theorem listed_movabs : ∃ l t it after, Path (act movs) movsTarget.loaded l t ∧
    l.map Edge.action = [.command .start {}] ∧ Disassembles movs fewInsns ∧
    t.conf.status = .running ∧ t.conf.entrypoint.toNat + t.conf.textsize.toNat ≤ 2 ^ 64 ∧
    Whole fewInsns t.conf.entrypoint (textBytes (codeAt 0x401000 movsCode) t.conf) ∧
    sweep fewInsns t.conf.entrypoint (textBytes (codeAt 0x401000 movsCode) t.conf) = it :: after ∧
    strtoull "401000" = it.start ∧ ¬ Lists movs (it :: after) "401000" t := by
  let check := fun (t : State Unit) => movsReady t && decide (10 ≤ (movsItems t).length) &&
    decide (t.conf.entrypoint = 0x401000) &&
    decide (lineCount (disasm movs "401000" t) = t.out.length + 8)
  have hfollow : (follow (act movs) [.command .start {}] movsTarget.loaded).any
      (fun p => check p.2) = true := by decide +kernel
  obtain ⟨l, t, hpath, hacts, hcheck⟩ := exists_path (fun _ t => check t) hfollow
  simp only [check, Bool.and_eq_true, decide_eq_true_eq] at hcheck
  obtain ⟨⟨⟨hready, hten⟩, hentry⟩, hout⟩ := hcheck
  obtain ⟨hrunning, hfit, hwhole⟩ := ready_of_check hready
  obtain ⟨it, after, hitems⟩ : ∃ it after, movsItems t = it :: after := by
    apply List.exists_cons_of_ne_nil
    intro hnil
    rw [hnil] at hten
    cases hten
  obtain ⟨n, -, hstart, -⟩ := sweep_eq_cons hitems
  have haddr : strtoull "401000" = it.start := by
    rw [hstart, hentry]
    decide
  refine ⟨l, t, it, after, hpath, hacts, movs_disassembles, hrunning, hfit, hwhole, hitems, haddr, ?_⟩
  rintro ⟨note, -, hlists⟩
  rw [hlists] at hout
  rw [hitems] at hten
  simp only [lineCount, List.length_append, List.length_map, List.length_take] at hout
  omega

end Apue.Sdb

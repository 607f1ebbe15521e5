import Apue.CLib.Words
import Apue.Sdb.Fragment

/-! The map listing.

`vmmap` reads a line of the map by words, pads the two addresses with zeros, reads the offset
and prints them again, with the permissions and one word of the path, into a buffer of 1024
bytes. `vmmap_iff`: the lines can be read back from what it prints exactly when no path has a
blank, no offset is 2^64 or more, and every line printed fits the buffer. -/
namespace Apue.Sdb
open Memory CLib Transition

variable {ρ : Type}

/-- A line of the map. -/
structure MapEntry where
  first : List Char
  last : List Char
  perms : List Char
  offset : List Char
  dev : List Char
  inode : List Char
  /-- The blanks after the inode. -/
  blanks : Nat
  path : List Char
  isHex : ∀ cs ∈ [first, last, offset], IsHex cs
  short : first.length ≤ 16 ∧ last.length ≤ 16
  isWords : ∀ cs ∈ [perms, dev, inode], IsWord cs
  line : '\n' ∉ path
  apart : path ≠ [] → blanks ≠ 0

/-- What there is to be read back from a line. -/
structure MapData where
  first : Nat
  last : Nat
  perms : List Char
  offset : Nat
  path : List Char
  deriving DecidableEq, Repr

namespace MapEntry

def text (e : MapEntry) : List Char :=
  (e.first ++ '-' :: e.last) ++ ' ' :: (e.perms ++ ' ' :: (e.offset ++ ' ' :: (e.dev ++ ' ' ::
    (e.inode ++ (List.replicate e.blanks ' ' ++ e.path)))))

def data (e : MapEntry) : MapData :=
  ⟨hexValue e.first, hexValue e.last, e.perms.dropLast, hexValue e.offset, e.path⟩

/-- How long the line of all of it is. -/
def width (e : MapEntry) : Nat :=
  36 + (e.perms.length - 1) + max 8 (Nat.toDigits 16 (hexValue e.offset)).length + e.path.length

/-- The line is kept: its path has no blank, its offset fits a word, and its line the buffer. -/
structure Kept (e : MapEntry) : Prop where
  solid : ∀ c ∈ e.path, isspace c = false
  offset : hexValue e.offset < 2 ^ 64
  width : e.width < 1024

instance (e : MapEntry) : Decidable e.Kept :=
  decidable_of_iff ((∀ c ∈ e.path, isspace c = false) ∧ hexValue e.offset < 2 ^ 64 ∧ e.width < 1024)
    ⟨fun h => ⟨h.1, h.2.1, h.2.2⟩, fun h => ⟨h.solid, h.offset, h.width⟩⟩

end MapEntry

/-- Reading a printed line back: the addresses around the `-`, the permissions up to the next
blank, the offset, and the path after the tab. -/
def readShown (text : List Char) : MapData :=
  let (first, text) := cut '-' text
  let (last, text) := cut ' ' text
  let (perms, text) := cut ' ' text
  ⟨hexValue first, hexValue last, perms, hexValue text, (cut '\t' text).2⟩

/-- `vmmap` prints a line for every line of the map, in order, from which it can be read
back. -/
def ListsMap (w : World ρ) (s : State ρ) (es : List MapEntry) : Prop :=
  ∃ lines, vmmap w s = .ok (0, { s with out := s.out ++ lines }) ∧
    lines.map (fun line => readShown line.toList) = es.map MapEntry.data

/-! ### One line -/

section
variable (e : MapEntry)

/-- What is printed for a line. -/
def MapEntry.shown : List Char :=
  (List.replicate (16 - e.first.length) '0' ++ e.first) ++ '-' ::
    ((List.replicate (16 - e.last.length) '0' ++ e.last) ++ ' ' :: (e.perms.dropLast ++ ' ' ::
      ((padRight 8 (hexDigits (strtoull (String.ofList e.offset)))).toList ++ '\t' ::
        (words e.path).headD [])))

theorem isHex_first : IsHex e.first := e.isHex _ (by simp)
theorem isHex_last : IsHex e.last := e.isHex _ (by simp)
theorem isHex_offset : IsHex e.offset := e.isHex _ (by simp)
theorem isWord_perms : IsWord e.perms := e.isWords _ (by simp)

theorem isWord_hex {cs : List Char} (h : IsHex cs) : IsWord cs :=
  ⟨h.nonempty, fun c hc => (digit_plain (h.digit c hc)).1⟩

theorem dash_hex {cs : List Char} (h : IsHex cs) : '-' ∉ cs :=
  fun hmem => (digit_plain (h.digit _ hmem)).2.1 rfl

/-- The words of a line. -/
theorem words_text : words e.text =
    (e.first ++ '-' :: e.last) :: e.perms :: e.offset :: e.dev :: e.inode :: words e.path := by
  have hdev : IsWord e.dev := e.isWords _ (by simp)
  have hinode : IsWord e.inode := e.isWords _ (by simp)
  have hrange : IsWord (e.first ++ '-' :: e.last) := by
    refine ⟨List.append_ne_nil_of_left_ne_nil (isHex_first e).nonempty _, fun c hc => ?_⟩
    rcases List.mem_append.mp hc with hc | hc
    · exact (isWord_hex (isHex_first e)).solid c hc
    · rcases List.mem_cons.mp hc with rfl | hc
      · rfl
      · exact (isWord_hex (isHex_last e)).solid c hc
  have hend : words (e.inode ++ (List.replicate e.blanks ' ' ++ e.path)) = e.inode :: words e.path := by
    cases hblanks : e.blanks with
    | zero =>
      have hpath : e.path = [] := by
        by_contra hne
        exact e.apart hne hblanks
      rw [hpath, List.replicate_zero, List.append_nil, List.append_nil, words_self hinode]
      rfl
    | succ n => rw [List.replicate_succ, List.cons_append, words_cons hinode rfl, words_blanks]
  rw [MapEntry.text, words_cons hrange rfl, words_cons (isWord_perms e) rfl,
    words_cons (isWord_hex (isHex_offset e)) rfl, words_cons hdev rfl, hend]

theorem splitDash_append {cs : List Char} (h : '-' ∉ cs) (rest : List Char) :
    splitDash (cs ++ '-' :: rest) = (cs, rest) := by
  have hidx : (cs ++ '-' :: rest).idxOf? '-' = some cs.length := by
    induction cs with
    | nil => rfl
    | cons c cs ih =>
      obtain ⟨hc, hcs⟩ := not_or.mp (mt List.mem_cons.mpr h)
      rw [List.cons_append, List.idxOf?_cons, ih hcs]
      simp [Ne.symm hc]
  rw [splitDash, hidx]
  simp

theorem padzero_short {cs : List Char} (h : cs.length ≤ 16) :
    padzero cs = .ok (List.replicate (16 - cs.length) '0' ++ cs) :=
  if_neg (Nat.not_lt.mpr h)

theorem ok_bind {α β : Type} (a : α) (f : α → Except Halt β) : (Except.ok a >>= f) = f a := rfl

/-- **What `vmmap` makes of a line.** -/
theorem vmmapLine_text : vmmapLine (String.ofList e.text) =
    if 1024 ≤ e.shown.length then .error .undefined else .ok (String.ofList e.shown) := by
  have htokens : tokens (String.ofList e.text) =
      String.ofList (e.first ++ '-' :: e.last) :: String.ofList e.perms :: String.ofList e.offset ::
        String.ofList e.dev :: String.ofList e.inode :: (words e.path).map String.ofList := by
    rw [tokens, String.toList_ofList, show tokensAux e.text [] = words e.text from rfl, words_text]
    rfl
  have hpath : ((words e.path).map String.ofList).getD 0 "" = String.ofList ((words e.path).headD []) := by
    cases words e.path <;> rfl
  have htext : String.ofList (List.replicate (16 - e.first.length) '0' ++ e.first) ++ "-" ++
      String.ofList (List.replicate (16 - e.last.length) '0' ++ e.last) ++ " " ++
      String.ofList e.perms.dropLast ++ " " ++
      padRight 8 (hexDigits (strtoull (String.ofList e.offset))) ++ "\t" ++
      String.ofList ((words e.path).headD []) = String.ofList e.shown := by
    apply String.toList_injective
    simp [MapEntry.shown]
  unfold vmmapLine
  simp only [htokens, List.getD_cons_zero, List.getD_cons_succ, String.toList_ofList,
    splitDash_append (dash_hex (isHex_first e)), padzero_short e.short.1, padzero_short e.short.2, hpath,
    ok_bind, htext, String.length_ofList]

/-- **What is read back.** -/
theorem readShown_shown : readShown e.shown =
    ⟨hexValue e.first, hexValue e.last, e.perms.dropLast, (strtoull (String.ofList e.offset)).toNat,
      (words e.path).headD []⟩ := by
  have hzeros : ∀ {c : Char}, c ≠ '0' → ∀ {cs : List Char}, c ∉ cs →
      c ∉ List.replicate (16 - cs.length) '0' ++ cs := by
    intro c hc cs hcs hmem
    rcases List.mem_append.mp hmem with hmem | hmem
    · exact hc (List.eq_of_mem_replicate hmem)
    · exact hcs hmem
  have hblank : ∀ {cs : List Char}, IsWord cs → ' ' ∉ cs := by
    intro cs hcs hmem
    exact absurd (hcs.solid _ hmem) (by decide)
  have hperms : ' ' ∉ e.perms.dropLast := fun hmem => hblank (isWord_perms e) (List.dropLast_subset _ hmem)
  have hoffset : ∀ w : Word, (padRight 8 (hexDigits w)).toList = (hexDigits w).toList ++
      List.replicate (8 - (hexDigits w).length) ' ' := by
    intro w
    rw [padRight, String.toList_append, String.toList_ofList]
  unfold readShown MapEntry.shown
  rw [cut_append (hzeros (by decide) (dash_hex (isHex_first e)))]
  simp only
  rw [cut_append (hzeros (by decide) (hblank (isWord_hex (isHex_last e))))]
  simp only
  rw [cut_append hperms]
  have htab : ∀ w : Word, '\t' ∉ (padRight 8 (hexDigits w)).toList := by
    intro w hmem
    rw [hoffset] at hmem
    rcases List.mem_append.mp hmem with hmem | hmem
    · exact absurd ((isWord_hex (isHex_hexDigits w)).solid _ hmem) (by decide)
    · exact absurd (List.eq_of_mem_replicate hmem) (by decide)
  have hnext : ∀ n (cs : List Char), ∀ c ∈ (List.replicate n ' ' ++ '\t' :: cs).head?, digit 16 c = none := by
    intro n cs c hc
    cases n with
    | zero =>
      rw [← Option.some.inj hc]
      rfl
    | succ n =>
      rw [← Option.some.inj hc]
      rfl
  rw [cut_append (htab _), hoffset, List.append_assoc, hexValue_hexDigits _ (hnext _ _),
    hexValue_zeros, hexValue_zeros]

end

/-- A line is kept exactly when it fits the buffer and is read back. -/
theorem kept_iff (e : MapEntry) : e.Kept ↔ e.shown.length < 1024 ∧ readShown e.shown = e.data := by
  have hlength : (words e.path).headD [] = e.path → hexValue e.offset < 2 ^ 64 → e.shown.length = e.width := by
    intro hpath hlt
    have hoffset : (strtoull (String.ofList e.offset)).toNat = hexValue e.offset := by
      rw [strtoull_hex (isHex_offset e), if_neg (Nat.not_le.mpr hlt), BitVec.toNat_ofNat,
        Nat.mod_eq_of_lt hlt]
    have hfirst := e.short.1
    have hlast := e.short.2
    rw [MapEntry.shown, MapEntry.width, hpath, ← hoffset]
    simp only [padRight, hexDigits, String.toList_append, String.toList_ofList, String.length_ofList,
      List.length_append, List.length_cons, List.length_replicate, List.length_dropLast]
    omega
  rw [readShown_shown]
  constructor
  · intro h
    have hpath := headD_words_iff.mpr h.solid
    have hoffset : (strtoull (String.ofList e.offset)).toNat = hexValue e.offset := by
      rw [strtoull_hex (isHex_offset e), if_neg (Nat.not_le.mpr h.offset), BitVec.toNat_ofNat,
        Nat.mod_eq_of_lt h.offset]
    refine ⟨?_, ?_⟩
    · rw [hlength hpath h.offset]
      exact h.width
    · rw [hpath, hoffset]
      rfl
  · rintro ⟨hshort, hdata⟩
    obtain ⟨-, -, -, hoffset, hpath⟩ := MapData.mk.inj hdata
    have hlt : hexValue e.offset < 2 ^ 64 := hoffset ▸ (strtoull _).isLt
    refine ⟨headD_words_iff.mp hpath, hlt, ?_⟩
    rw [← hlength hpath hlt]
    exact hshort

/-! ### The listing -/

theorem mapM_vmmapLine (es : List MapEntry) :
    (es.map fun e => String.ofList e.text).mapM vmmapLine =
      if ∀ e ∈ es, e.shown.length < 1024 then .ok (es.map fun e => String.ofList e.shown)
      else .error .undefined := by
  induction es with
  | nil => rfl
  | cons e es ih =>
    rw [List.map_cons, List.mapM_cons, vmmapLine_text, ih]
    by_cases hlong : 1024 ≤ e.shown.length
    · have hall : ¬ ∀ x ∈ e :: es, x.shown.length < 1024 :=
        fun h => Nat.not_lt.mpr hlong (h e List.mem_cons_self)
      rw [if_pos hlong, if_neg hall]
      rfl
    · have hcons : (∀ x ∈ e :: es, x.shown.length < 1024) ↔ ∀ x ∈ es, x.shown.length < 1024 := by
        rw [List.forall_mem_cons]
        exact and_iff_right (Nat.not_le.mp hlong)
      rw [if_neg hlong]
      simp only [hcons]
      split <;> rfl

section
variable {w : World ρ} {s : State ρ} {c : Child ρ} {es : List MapEntry}

/-- What `vmmap` prints. -/
theorem vmmap_maps (hs : s.conf.status = .running) (hc : s.proc = .stopped c)
    (hmaps : w.maps c.rest = es.map fun e => String.ofList e.text) :
    vmmap w s = if ∀ e ∈ es, e.shown.length < 1024 then
      .ok (0, { s with out := s.out ++ es.map fun e => String.ofList e.shown })
    else .error .undefined := by
  have hrun : vmmap w s = ((es.map fun e => String.ofList e.text).mapM vmmapLine >>= fun lines =>
      .ok (0, { s with out := s.out ++ lines })) := by
    rw [vmmap, checked_running (by decide) hs, hc]
    simp only [hmaps]
  rw [hrun, mapM_vmmapLine]
  split <;> rfl

/-- What is listed is read back. -/
theorem listsMap_iff (hs : s.conf.status = .running) (hc : s.proc = .stopped c)
    (hmaps : w.maps c.rest = es.map fun e => String.ofList e.text) :
    ListsMap w s es ↔ ∀ e ∈ es, e.shown.length < 1024 ∧ readShown e.shown = e.data := by
  have hback : (es.map fun e => String.ofList e.shown).map (fun line => readShown line.toList) =
      es.map MapEntry.data ↔ ∀ e ∈ es, readShown e.shown = e.data := by
    rw [List.map_map, List.map_inj_left]
    simp only [Function.comp_apply, String.toList_ofList]
  rw [ListsMap, vmmap_maps hs hc hmaps]
  by_cases hall : ∀ e ∈ es, e.shown.length < 1024
  case neg =>
    rw [if_neg hall]
    refine iff_of_false ?_ fun h => hall fun e he => (h e he).1
    rintro ⟨lines, hok, -⟩
    cases hok
  case pos =>
    rw [if_pos hall]
    constructor
    · rintro ⟨lines, hok, hread⟩ e he
      have hlines : (es.map fun e => String.ofList e.shown) = lines :=
        List.append_cancel_left (congrArg State.out (congrArg Prod.snd (Except.ok.inj hok)))
      rw [← hlines] at hread
      exact ⟨hall e he, hback.mp hread e he⟩
    · intro h
      exact ⟨_, rfl, hback.mpr fun e he => (h e he).2⟩

/-- **`vmmap` prints a line for every line of the map, in order, from which it can be read
back, exactly when every line is kept.** -/
theorem vmmap_iff (hs : s.conf.status = .running) (hc : s.proc = .stopped c)
    (hmaps : w.maps c.rest = es.map fun e => String.ofList e.text) :
    ListsMap w s es ↔ ∀ e ∈ es, e.Kept := by
  rw [listsMap_iff hs hc hmaps]
  simp only [kept_iff]

end

/-! ### Two paths -/

/-- The text of a program. -/
def textEntry (path : List Char) (h : '\n' ∉ path) : MapEntry where
  first := "401000".toList
  last := "402000".toList
  perms := "r-xp".toList
  offset := "00001000".toList
  dev := "08:01".toList
  inode := "42".toList
  blanks := 20
  path := path
  isHex := by decide
  short := by decide
  isWords := by decide
  line := h
  apart := fun _ => by decide

def plainEntry : MapEntry := textEntry "/bin/walk".toList (by decide)

def blankEntry : MapEntry := textEntry "/tmp/my walk".toList (by decide)

/-- Pages of no file. -/
def anonEntry : MapEntry where
  first := "7ffff7dd1000".toList
  last := "7ffff7dd3000".toList
  perms := "rw-p".toList
  offset := "00000000".toList
  dev := "00:00".toList
  inode := "0".toList
  blanks := 0
  path := []
  isHex := by decide
  short := by decide
  isWords := by decide
  line := by decide
  apart := by decide

/-- The stack, with an address of sixteen digits. -/
def stackEntry : MapEntry :=
  { anonEntry with
    first := "00007ffffffde000".toList
    last := "00007ffffffff000".toList
    blanks := 26
    path := "[stack]".toList
    isHex := by decide
    short := by decide
    line := by decide
    apart := by decide }

/-- The walk with a map. -/
def mapped (es : List MapEntry) : World Unit :=
  { walk with maps := fun _ => es.map fun e => String.ofList e.text }

theorem mapped_start (es : List MapEntry) : ∃ l t c, Path (act (mapped es)) walkTarget.loaded l t ∧
    l.map Edge.action = [.command .start {}] ∧ t.conf.status = .running ∧ t.proc = .stopped c := by
  have hfollow : (follow (act (mapped es)) [.command .start {}] walkTarget.loaded).any
      (fun p => decide (p.2.conf.status = .running) && p.2.proc.check fun _ => true) = true := by
    rfl
  obtain ⟨l, t, hpath, hacts, hcheck⟩ := exists_path (fun (_ : List (Edge (State Unit) Action)) t =>
    decide (t.conf.status = .running) && t.proc.check fun _ => true) hfollow
  obtain ⟨hrun, hstop⟩ := (Bool.and_eq_true _ _).mp hcheck
  obtain ⟨c, hc, -⟩ := Proc.stopped_of_check hstop
  exact ⟨l, t, c, hpath, hacts, of_decide_eq_true hrun, hc⟩

/-- A map of three lines: with a path, without one, and with a name that is no path. -/
theorem vmmap_plain : ∃ l t, Path (act (mapped [plainEntry, anonEntry, stackEntry])) walkTarget.loaded l t ∧
    l.map Edge.action = [.command .start {}] ∧
    ListsMap (mapped [plainEntry, anonEntry, stackEntry]) t [plainEntry, anonEntry, stackEntry] := by
  obtain ⟨l, t, c, hpath, hacts, hrun, hc⟩ := mapped_start [plainEntry, anonEntry, stackEntry]
  have hkept : plainEntry.Kept ∧ anonEntry.Kept ∧ stackEntry.Kept := by decide +kernel
  refine ⟨l, t, hpath, hacts, (vmmap_iff hrun hc rfl).mpr ?_⟩
  exact List.forall_mem_cons.mpr ⟨hkept.1, List.forall_mem_cons.mpr
    ⟨hkept.2.1, List.forall_mem_singleton.mpr hkept.2.2⟩⟩

/-- A path with a blank is printed up to it. -/
theorem vmmap_blank : ∃ l t c, Path (act (mapped [blankEntry])) walkTarget.loaded l t ∧
    l.map Edge.action = [.command .start {}] ∧ t.conf.status = .running ∧ t.proc = .stopped c ∧
    (mapped [blankEntry]).maps c.rest = [String.ofList blankEntry.text] ∧
    ¬ ListsMap (mapped [blankEntry]) t [blankEntry] := by
  obtain ⟨l, t, c, hpath, hacts, hrun, hc⟩ := mapped_start [blankEntry]
  have hmaps : (mapped [blankEntry]).maps c.rest = [blankEntry].map fun e => String.ofList e.text := rfl
  refine ⟨l, t, c, hpath, hacts, hrun, hc, hmaps, fun hlists => ?_⟩
  have hread := ((listsMap_iff hrun hc hmaps).mp hlists blankEntry (List.mem_singleton.mpr rfl)).2
  rw [readShown_shown] at hread
  exact absurd (congrArg MapData.path hread) (by decide +kernel)

end Apue.Sdb

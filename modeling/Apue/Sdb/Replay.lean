import Apue.Sdb.Breakpoints
import Apue.Sdb.Delete
import Apue.Sdb.Loop
import Apue.Sdb.Trap

/-! What `list` prints, typed back.

The words of a line are commands' arguments: `stoi` reads the number although a colon
follows it, and `strtoull` the address before its comma and the saved word.
`listed_replay`: `delete` with the first word of a line takes that breakpoint out, and
`break` with the second word of each line, in another session of the program, sets the
same breakpoints again, with the same numbers and a trap at each. -/
namespace Apue.Sdb
open Memory CLib Transition

variable {ρ : Type}

/-- What `list` prints. -/
def listed (bps : List Breakpoint) : List String := bps.zipIdx.map fun e => listLine e.2 e.1

/-- A word of a line, as the debugger splits what is typed. -/
def lineWord (line : String) (i : Nat) : String := (sdbParser line.toList).getD i ""

/-- `break` with the address of a line. -/
def breakLine (line : String) : Action := .command (.break_ (lineWord line 1)) {}

theorem list_eq (s : State ρ) : list s = (0, { s with out := s.out ++ listed s.conf.bps }) := by
  have hfold : ∀ (l : List (Breakpoint × Nat)) (s : State ρ),
      l.foldl (fun s e => s.say (listLine e.2 e.1)) s =
        { s with out := s.out ++ l.map fun e => listLine e.2 e.1 } := by
    intro l
    induction l with
    | nil => exact fun s => by simp
    | cons e l ih =>
      intro s
      rw [List.foldl_cons, ih]
      simp [State.say]
  rw [list, hfold]
  rfl

/-! ### The words of a line -/

theorem isWord_of_digits {b n : Nat} (hb : 1 < b) (hle : b ≤ 16) : IsWord (Nat.toDigits b n) := by
  obtain ⟨ds, hne, hmap, hds, -⟩ := toDigits_map hb n
  rw [hmap]
  refine ⟨mt List.map_eq_nil_iff.mp hne, fun c hc => ?_⟩
  obtain ⟨d, hd, rfl⟩ := List.mem_map.mp hc
  exact (digitChar_plain ⟨d, Nat.lt_of_lt_of_le (hds d hd) hle⟩).1

theorem isWord_append {v w : List Char} (hv : IsWord v) (hw : ∀ c ∈ w, isspace c = false) :
    IsWord (v ++ w) := by
  refine ⟨fun h => hv.nonempty (List.append_eq_nil_iff.mp h).1, fun c hc => ?_⟩
  exact (List.mem_append.mp hc).elim (hv.solid c) (hw c)

/-- The saved word of a line. -/
def codeWord (code : Word) : List Char :=
  '0' :: 'x' :: (List.replicate (16 - (hexDigits code).length) '0' ++ Nat.toDigits 16 code.toNat)

theorem words_listLine (id : Nat) (b : Breakpoint) : words (listLine id b).toList =
    [Nat.toDigits 10 id ++ [':'], Nat.toDigits 16 b.addr.toNat ++ [','], codeWord b.code] := by
  have hid : IsWord (Nat.toDigits 10 id ++ [':']) :=
    isWord_append (isWord_of_digits (by decide) (by decide)) (by decide)
  have haddr : IsWord (Nat.toDigits 16 b.addr.toNat ++ [',']) :=
    isWord_append (isWord_of_digits (by decide) (by decide)) (by decide)
  have hcode : IsWord (codeWord b.code) := by
    refine ⟨List.cons_ne_nil _ _, List.forall_mem_cons.mpr ⟨rfl, List.forall_mem_cons.mpr ⟨rfl, ?_⟩⟩⟩
    intro c hc
    rcases List.mem_append.mp hc with hc | hc
    · rw [List.eq_of_mem_replicate hc]
      rfl
    · exact (isWord_of_digits (by decide) (by decide)).solid c hc
  have htext : (listLine id b).toList = List.replicate (3 - (toString id).length) ' ' ++
      ((Nat.toDigits 10 id ++ [':']) ++ ' ' :: ((Nat.toDigits 16 b.addr.toNat ++ [',']) ++
        ' ' :: codeWord b.code)) := by
    simp [listLine, padLeft, hexDigits, codeWord, Nat.toString_eq_repr, Nat.toList_repr]
  rw [htext, words_blanks, words_cons hid rfl, words_cons haddr rfl, words_self hcode]

theorem lineWord_listLine (id : Nat) (b : Breakpoint) :
    lineWord (listLine id b) 0 = String.ofList (Nat.toDigits 10 id ++ [':']) ∧
    lineWord (listLine id b) 1 = String.ofList (Nat.toDigits 16 b.addr.toNat ++ [',']) ∧
    lineWord (listLine id b) 2 = String.ofList (codeWord b.code) := by
  simp [lineWord, sdbParser, words_listLine]

/-- No digit follows the numbers of a line. -/
theorem colon_comma : (∀ c ∈ [':'].head?, digit 10 c = none) ∧
    (∀ c ∈ [','].head?, digit 16 c = none) ∧ ∀ c ∈ [','].head?, c ≠ 'x' ∧ c ≠ 'X' := by
  simp only [List.head?_cons, Option.mem_some_iff, forall_eq']
  decide

/-- **The words of a line are read as what was printed.** -/
theorem listLine_read {id : Nat} (hid : id < 2 ^ 31) (b : Breakpoint) :
    stoi (lineWord (listLine id b) 0) = .ok (id : Int) ∧
    strtoull (lineWord (listLine id b) 1) = b.addr ∧ strtoull (lineWord (listLine id b) 2) = b.code := by
  obtain ⟨hnumber, haddr, hcode⟩ := lineWord_listLine id b
  rw [hnumber, haddr, hcode]
  exact ⟨stoi_followed hid colon_comma.1, strtoull_followed b.addr colon_comma.2.1 colon_comma.2.2,
    strtoull_0x b.code _⟩

theorem breakLine_addr (id : Nat) (b : Breakpoint) :
    strtoull (lineWord (listLine id b) 1) = b.addr := by
  rw [(lineWord_listLine id b).2.1]
  exact strtoull_followed b.addr colon_comma.2.1 colon_comma.2.2

/-! ### Another session -/

theorem addrs_eq {bps bps' : List Breakpoint}
    (h : bps.map Breakpoint.addr = bps'.map Breakpoint.addr) : addrs bps = addrs bps' := by
  have hmem : ∀ (l : List Breakpoint) (x : Addr), x ∈ addrs l ↔ x ∈ l.map Breakpoint.addr :=
    fun l x => List.mem_map.symm
  ext x
  rw [hmem, hmem, h]

/-- Breakpoints are set where all eight bytes are mapped. -/
theorem reaches_step {w : World ρ} {a : Action} {s t : State ρ}
    (h : ∀ b ∈ s.conf.bps, w.reaches b.addr = true) (hs : act w a s = .ok t) :
    ∀ b ∈ t.conf.bps, w.reaches b.addr = true := by
  cases act_moves hs with
  | keeps hk =>
    rw [hk.bps]
    exact h
  | @sets addr e code hsets ht =>
    obtain ⟨ret, hr⟩ := act_command hs
    have hmem : ⟨strtoull addr, code⟩ ∈ t.conf.bps := by
      rw [ht]
      exact List.mem_append_right _ List.mem_cons_self
    rcases setbreak_cases hr with ⟨hshows, hno⟩ | ⟨c, -, -, hreach, -⟩
    · exact absurd hsets hno
    · intro b hb
      rw [ht] at hb
      rcases List.mem_append.mp hb with hb | hb
      · exact h b hb
      · rw [List.mem_singleton.mp hb]
        exact hreach
  | erases did _ ht =>
    rw [ht]
    exact fun b hb => h b (List.mem_of_mem_eraseIdx hb)
  | loads _ _ hbps =>
    rw [hbps]
    exact h

/-- RUNNING with a stopped child, and the same range as `s`. -/
structure Ready (s t : State ρ) (c : Child ρ) : Prop where
  running : t.conf.status = .running
  stopped : t.proc = .stopped c
  entrypoint : t.conf.entrypoint = s.conf.entrypoint
  textsize : t.conf.textsize = s.conf.textsize

/-- `break` at an address of the range that has no breakpoint. -/
theorem setbreak_sets {w : World ρ} {addr : String} {t : State ρ} {c : Child ρ}
    (hsets : Sets t (strtoull addr)) (hc : t.proc = .stopped c)
    (hreach : w.reaches (strtoull addr) = true) :
    setbreak w addr t = .ok (0, { t with
      conf := { t.conf with
        bps := t.conf.bps ++ [⟨strtoull addr,
          alternate t.conf.bps (peek c.mem (strtoull addr)) (strtoull addr) false true⟩] }
      proc := .stopped { c with
        mem := poke c.mem (strtoull addr) (withLow (peek c.mem (strtoull addr)) 0xcc) } }) := by
  have hnew : t.conf.bps.any (fun b => b.addr = strtoull addr) = false := by
    rw [List.any_eq_false]
    exact fun b hb hba => hsets.fresh ⟨b, hb, of_decide_eq_true hba⟩
  rw [setbreak, checked_running running_break hsets.running]
  simp only [hsets.inRange, not_true_eq_false, if_false, hnew, Bool.false_eq_true,
    peektext_stopped hc hreach, poketext_stopped _ hc hreach]
  rfl

/-- What the lines of a list of breakpoints set, one after the other. -/
theorem break_lines {w : World ρ} {s : State ρ} (hrange : ∀ b ∈ s.conf.bps, s.conf.InRange b.addr)
    (hreach : ∀ b ∈ s.conf.bps, w.reaches b.addr = true) (bps : List Breakpoint)
    (hsub : ∀ b ∈ bps, b ∈ s.conf.bps) {own : Mem} {t : State ρ} {c : Child ρ} (ht : Ready s t c)
    (hnodup : (t.conf.bps.map Breakpoint.addr ++ bps.map Breakpoint.addr).Nodup)
    (htraps : Trapped own (addrs t.conf.bps) c.mem) (ids : List Nat) (hids : ids.length = bps.length) :
    ∃ l t' c', Path (act w) t l t' ∧
      l.map Edge.action = (bps.zip ids).map (fun e => breakLine (listLine e.2 e.1)) ∧
      Ready s t' c' ∧ c'.regs = c.regs ∧
      t'.conf.bps.map Breakpoint.addr = t.conf.bps.map Breakpoint.addr ++ bps.map Breakpoint.addr ∧
      Trapped own (addrs t'.conf.bps) c'.mem := by
  induction bps generalizing t c ids with
  | nil => exact ⟨[], t, c, .nil, rfl, ht, rfl, by simp, htraps⟩
  | cons b bps ih =>
    obtain ⟨id, ids, rfl⟩ : ∃ id ids', ids = id :: ids' := by
      cases ids with
      | nil => cases hids
      | cons id ids => exact ⟨id, ids, rfl⟩
    obtain ⟨hb, hbps⟩ := List.forall_mem_cons.mp hsub
    have haddr := breakLine_addr id b
    have hrange' : t.conf.InRange b.addr := by
      have hb' := hrange b hb
      unfold Config.InRange at hb' ⊢
      rw [ht.entrypoint, ht.textsize]
      exact hb'
    have hnew : b.addr ∉ addrs t.conf.bps := by
      rintro ⟨b', hb', hba⟩
      have hdisjoint := List.disjoint_of_nodup_append hnodup
      exact hdisjoint (List.mem_map.mpr ⟨b', hb', hba⟩) List.mem_cons_self
    have hsets : Sets t (strtoull (lineWord (listLine id b) 1)) := by
      rw [haddr]
      exact ⟨ht.running, hrange', hnew⟩
    have hset := setbreak_sets (w := w) hsets ht.stopped (by rw [haddr]; exact hreach b hb)
    rw [haddr] at hset
    let u : State ρ := { t with
      conf := { t.conf with
        bps := t.conf.bps ++ [⟨b.addr, alternate t.conf.bps (peek c.mem b.addr) b.addr false true⟩] }
      proc := .stopped { c with mem := poke c.mem b.addr (withLow (peek c.mem b.addr) 0xcc) } }
    have hact : act w (breakLine (listLine id b)) t = .ok u := bind_ok.mpr ⟨(0, u), hset, rfl⟩
    have hready : Ready s u { c with mem := poke c.mem b.addr (withLow (peek c.mem b.addr) 0xcc) } :=
      ⟨ht.running, rfl, ht.entrypoint, ht.textsize⟩
    have haddrs : u.conf.bps.map Breakpoint.addr = t.conf.bps.map Breakpoint.addr ++ [b.addr] := by
      simp [u]
    have htraps' : Trapped own (addrs u.conf.bps)
        (poke c.mem b.addr (withLow (peek c.mem b.addr) 0xcc)) := by
      show Trapped own (addrs (t.conf.bps ++ [_])) _
      rw [addrs_append]
      exact htraps.insert b.addr
    have hnodup' : (u.conf.bps.map Breakpoint.addr ++ bps.map Breakpoint.addr).Nodup := by
      rw [haddrs, List.append_assoc]
      exact hnodup
    obtain ⟨l, t', c', hpath, hacts, hready', hregs, haddrs', htraps''⟩ :=
      ih hbps hready hnodup' htraps' ids (Nat.succ.inj hids)
    refine ⟨_, t', c', .cons hact hpath, ?_, hready', hregs, ?_, htraps''⟩
    · rw [List.map_cons, List.zip_cons_cons, List.map_cons, hacts]
    · rw [haddrs', haddrs, List.append_assoc]
      rfl

/-- **`delete` with the number of a printed line takes that breakpoint out, and `break` with
the address of each line, in a session of the same program that has no breakpoint yet, sets
the same breakpoints under the same numbers, over the words found there.** -/
theorem listed_replay (w : World ρ) {l : List (Edge (State ρ) Action)} {s : State ρ}
    (h : Path (act w) {} l s) :
    (list s).2.out = s.out ++ listed s.conf.bps ∧
    (∀ (i : Nat) (line : String) (c : Child ρ), s.conf.status = .running → s.proc = .stopped c →
      i < 2 ^ 31 → (listed s.conf.bps)[i]? = some line →
      Removed s i (deletebreak w (lineWord line 0) s)) ∧
    ∀ (t : State ρ) (c : Child ρ), Ready s t c → t.conf.bps = [] →
      ∃ l' t' c', Path (act w) t l' t' ∧
        l'.map Edge.action = (listed s.conf.bps).map breakLine ∧
        Ready s t' c' ∧ c'.regs = c.regs ∧
        t'.conf.bps.map Breakpoint.addr = s.conf.bps.map Breakpoint.addr ∧
        Trapped c.mem (addrs s.conf.bps) c'.mem := by
  have hsited := Sited.initial.path h
  have hreach : ∀ b ∈ s.conf.bps, w.reaches b.addr = true := by
    have hrun : Run (act w) (fun _ _ => True) {} s := ⟨l, h, fun _ _ => trivial⟩
    refine hrun.invariant (I := fun s => ∀ b ∈ s.conf.bps, w.reaches b.addr = true) nofun ?_
    exact fun _ _ _ hs _ ht => reaches_step hs ht
  refine ⟨by rw [list_eq], fun i line c hs hc hi hline => ?_, fun t c ht hnone => ?_⟩
  · obtain ⟨b, hb, rfl⟩ : ∃ b, s.conf.bps[i]? = some b ∧ line = listLine i b := by
      simpa [listed, eq_comm] using hline
    have hread := (listLine_read hi b).1
    exact deletebreak_removes hs hread ⟨b, c, hb, hc, hreach b (List.mem_of_getElem? hb)⟩
  · have hnodup : (t.conf.bps.map Breakpoint.addr ++ s.conf.bps.map Breakpoint.addr).Nodup := by
      rw [hnone]
      exact hsited.distinct
    have htraps : Trapped c.mem (addrs t.conf.bps) c.mem := by
      rw [hnone, addrs_nil]
      exact ⟨fun x hx => absurd hx (Set.notMem_empty x), fun _ _ => rfl⟩
    obtain ⟨l', t', c', hpath, hacts, hready, hregs, haddrs, htraps'⟩ :=
      break_lines hsited.inRange hreach s.conf.bps (fun _ hb => hb) ht hnodup htraps
        (List.range s.conf.bps.length) List.length_range
    rw [hnone, List.map_nil, List.nil_append] at haddrs
    refine ⟨l', t', c', hpath, ?_, hready, hregs, haddrs, ?_⟩
    · rw [hacts, listed, List.map_map, List.zipIdx_eq_zip_range', List.range_eq_range']
      rfl
    · rwa [← addrs_eq haddrs]

/-- The walk with two breakpoints, and another session of it at the entry point. -/
def twoBreaks : List Action :=
  [.command (.load "walk") {}, .command .start {}, .command (.break_ "401008") {},
   .command (.break_ "0x401004") {}]

def freshWalk : List Action := [.command (.load "walk") {}, .command .start {}]

/-- Stopped with these breakpoints, any address being in the range. -/
def stoppedWith (bps : List Breakpoint) (s : State Unit) : Bool :=
  decide (s.conf.bps = bps) && (decide (s.conf.status = .running) &&
    (decide (s.conf.entrypoint = 0) && (decide (s.conf.textsize = 0) && s.proc.check fun _ => true)))

theorem ready_of_stoppedWith {bps bps' : List Breakpoint} {s t : State Unit}
    (hs : stoppedWith bps s = true) (ht : stoppedWith bps' t = true) :
    s.conf.bps = bps ∧ t.conf.bps = bps' ∧ ∃ c d, Ready s s c ∧ Ready s t d := by
  simp only [stoppedWith, Bool.and_eq_true, decide_eq_true_eq] at hs ht
  obtain ⟨hbps, hrun, hentry, hsize, hstopped⟩ := hs
  obtain ⟨hbps', hrun', hentry', hsize', hstopped'⟩ := ht
  obtain ⟨c, hc, -⟩ := Proc.stopped_of_check hstopped
  obtain ⟨d, hd, -⟩ := Proc.stopped_of_check hstopped'
  exact ⟨hbps, hbps', c, d, ⟨hrun, hc, rfl, rfl⟩, hrun', hd, hentry'.trans hentry.symm,
    hsize'.trans hsize.symm⟩

theorem listed_replay_walk : ∃ l s t, ∃ c : Child Unit, Path (act walk) {} l s ∧
    l.map Edge.action = twoBreaks ∧
    (listed s.conf.bps)[1]? = some "  1: 401004, 0x9090909090909090" ∧
    Removed s 1 (deletebreak walk (lineWord "  1: 401004, 0x9090909090909090" 0) s) ∧
    t.conf.bps = [] ∧ Ready s t c ∧ ∃ l' t' c', Path (act walk) t l' t' ∧
      l'.map Edge.action = (listed s.conf.bps).map breakLine ∧
      t'.conf.bps.map Breakpoint.addr = [0x401008, 0x401004] ∧ Ready s t' c' := by
  let two : List Breakpoint := [⟨0x401008, 0x9090909090909090⟩, ⟨0x401004, 0x9090909090909090⟩]
  have hfollow : (follow (act walk) twoBreaks {}).any (fun p => stoppedWith two p.2) = true := by
    decide +kernel
  obtain ⟨l, s, hpath, hacts, hs⟩ := exists_path (fun _ t => stoppedWith two t) hfollow
  have hfollow' : (follow (act walk) freshWalk {}).any (fun p => stoppedWith [] p.2) = true := by
    decide +kernel
  obtain ⟨_, t, _, _, ht⟩ := exists_path (fun _ t => stoppedWith [] t) hfollow'
  obtain ⟨hbps, hnone, c, d, hc, hready⟩ := ready_of_stoppedWith hs ht
  obtain ⟨-, hremoved, hreplay⟩ := listed_replay walk hpath
  obtain ⟨l', t', c', hpath', hacts', hready', -, haddrs, -⟩ := hreplay t d hready hnone
  have hline : (listed s.conf.bps)[1]? = some "  1: 401004, 0x9090909090909090" := by
    rw [hbps]
    decide
  have hgone := hremoved 1 _ c hc.running hc.stopped (by decide) hline
  refine ⟨l, s, t, d, hpath, hacts, hline, hgone, hnone, hready, l', t', c', hpath', hacts', ?_, hready'⟩
  rw [haddrs, hbps]
  rfl

end Apue.Sdb

import Apue.Sdb.Overlay
import Apue.Sdb.Status
import Apue.Sdb.Stores

/-! What `dump` and `disasm` show.

Both read the eighty bytes in ten words, each mixed with the traps of the list, so that
they should show a trap at every breakpoint and the program's own bytes elsewhere,
whatever is armed. `consistent_iff`: in a session that loses none of the child's bytes
they do exactly when no breakpoint that only passes for a near one is seen, and the last
byte of no word shown has a bit that its breakpoint's trap has not. -/
namespace Apue.Sdb
open Memory CLib Transition

variable {ρ : Type}

instance (bps : List Breakpoint) (x : Addr) : Decidable (x ∈ addrs bps) :=
  inferInstanceAs (Decidable (∃ b ∈ bps, b.addr = x))

/-- The byte there is to show at `x`. -/
def trueByte (bps : List Breakpoint) (own : Mem) (x : Addr) : Byte :=
  if x ∈ addrs bps then 0xcc else own x

/-- Byte `i` of the ten words the debugger shows. -/
def viewByte (w : World ρ) (s : State ρ) (a : Addr) (i : Nat) : Byte :=
  byteOf (viewWord w s (a + BitVec.ofNat 64 (8 * (i / 8)))) (i % 8)

def asciiOf (b : Byte) : Char :=
  let c := Char.ofNat b.toNat
  if isprint c then c else '.'

/-- A line of `dump` with sixteen given bytes. -/
def dumpLine (a : Addr) (bytes : List Byte) : String :=
  "\t" ++ hexify a ++ ":" ++ String.join (bytes.map fun b => " " ++ hexByte b) ++ " |" ++
    String.ofList (bytes.map asciiOf) ++ "|"

/-- The five lines of `dump` with eighty given bytes. -/
def dumpText (a : Addr) (f : Nat → Byte) : List String :=
  (List.range 5).map fun l =>
    dumpLine (a + BitVec.ofNat 64 (16 * l)) ((List.range 16).map fun i => f (16 * l + i))

/-- `dump` prints the true bytes, and `disasm` decodes them. -/
structure Consistent (w : World ρ) (s : State ρ) (own : Mem) (a : Addr) : Prop where
  dump : ∀ addr, strtoull addr = a → dump w addr s = .ok (0, { s with
    out := s.out ++ dumpText a fun i => trueByte s.conf.bps own (a + BitVec.ofNat 64 i) })
  disasm : disasmCode w s a =
    (List.range 80).map fun i => trueByte s.conf.bps own (a + BitVec.ofNat 64 i)

/-- What there has to be at the ten words: `stray` and `strayLast` are about breakpoints
that only pass for near ones. -/
structure Viewable (bps : List Breakpoint) (m own : Mem) (a : Addr) : Prop where
  stray : ∀ j < 10, ∀ k < 7, hits bps (a + BitVec.ofNat 64 (8 * j)) true k ≠ [] →
    a + BitVec.ofNat 64 (8 * j + k) ∉ addrs bps → own (a + BitVec.ofNat 64 (8 * j + k)) = 0xcc
  strayLast : ∀ j < 10, hits bps (a + BitVec.ofNat 64 (8 * j)) true 7 ≠ [] →
    a + BitVec.ofNat 64 (8 * j + 7) ∉ addrs bps → Bits 0xcc (own (a + BitVec.ofNat 64 (8 * j + 7)))
  last : ∀ j < 10, a + BitVec.ofNat 64 (8 * j + 7) ∈ addrs bps →
    Bits (m (a + BitVec.ofNat 64 (8 * j + 7))) 0xcc

instance (bps : List Breakpoint) (m own : Mem) (a : Addr) : Decidable (Viewable bps m own a) :=
  decidable_of_iff
    ((∀ j < 10, ∀ k < 7, hits bps (a + BitVec.ofNat 64 (8 * j)) true k ≠ [] →
      a + BitVec.ofNat 64 (8 * j + k) ∉ addrs bps →
        own (a + BitVec.ofNat 64 (8 * j + k)) = 0xcc) ∧
    (∀ j < 10, hits bps (a + BitVec.ofNat 64 (8 * j)) true 7 ≠ [] →
      a + BitVec.ofNat 64 (8 * j + 7) ∉ addrs bps →
        Bits 0xcc (own (a + BitVec.ofNat 64 (8 * j + 7)))) ∧
    ∀ j < 10, a + BitVec.ofNat 64 (8 * j + 7) ∈ addrs bps →
      Bits (m (a + BitVec.ofNat 64 (8 * j + 7))) 0xcc)
    ⟨fun h => ⟨h.1, h.2.1, h.2.2⟩, fun h => ⟨h.stray, h.strayLast, h.last⟩⟩

/-! ### Bytes and text -/

section
variable {w : World ρ} {s : State ρ} {a : Addr}

theorem disasmCode_eq : disasmCode w s a = (List.range 80).map (viewByte w s a) := rfl

theorem join_append (l l' : List String) : String.join (l ++ l') = String.join l ++ String.join l' := by
  have hfoldl : ∀ (l : List String) (s : String), l.foldl (· ++ ·) s = s ++ String.join l := by
    intro l
    induction l with
    | nil => exact fun s => (String.append_empty).symm
    | cons t rest ih =>
      intro s
      have hcons : String.join (t :: rest) = t ++ String.join rest := by
        show rest.foldl (· ++ ·) ("" ++ t) = _
        rw [ih, String.empty_append]
      rw [List.foldl_cons, ih, hcons, String.append_assoc]
  rw [String.join, List.foldl_append, hfoldl]
  rfl

/-- Two words side by side are sixteen bytes. -/
theorem dumpLines_succ (n : Nat) : dumpLines w s (n + 1) a =
    dumpLine a (wordBytes (viewWord w s a) ++ wordBytes (viewWord w s (a + 8))) ::
      dumpLines w s n (a + 16) := by
  rw [dumpLines, dumpLine, List.map_append, List.map_append, join_append, String.ofList_append]
  simp only [dumpLayout, dumpAscii, String.append_assoc]
  rfl

/-- The bytes of line `l`. -/
theorem lineBytes (l : Nat) :
    wordBytes (viewWord w s (a + BitVec.ofNat 64 (16 * l))) ++
      wordBytes (viewWord w s (a + BitVec.ofNat 64 (16 * l) + 8)) =
    (List.range 16).map fun i => viewByte w s a (16 * l + i) := by
  have hoffset : BitVec.ofNat 64 (16 * l) + 8 = BitVec.ofNat 64 (8 * (2 * l + 1)) := by bv_omega
  have hhigh : a + BitVec.ofNat 64 (16 * l) + 8 = a + BitVec.ofNat 64 (8 * (2 * l + 1)) := by
    rw [BitVec.add_assoc, hoffset]
  have hsplit : List.range 16 = List.range 8 ++ (List.range 8).map (8 + ·) := rfl
  rw [hhigh, hsplit, List.map_append, List.map_map]
  refine congrArg₂ (· ++ ·) ?_ ?_
  · apply List.map_congr_left
    intro i hi
    have hi' : i < 8 := List.mem_range.mp hi
    rw [viewByte, show 8 * ((16 * l + i) / 8) = 16 * l by omega, show (16 * l + i) % 8 = i by omega]
  · apply List.map_congr_left
    intro i hi
    have hi' : i < 8 := List.mem_range.mp hi
    show _ = viewByte w s a (16 * l + (8 + i))
    rw [viewByte, show (16 * l + (8 + i)) / 8 = 2 * l + 1 by omega,
      show (16 * l + (8 + i)) % 8 = i by omega]

theorem dumpLines_eq : dumpLines w s 5 a = dumpText a (viewByte w s a) := by
  have hlines : ∀ n m, dumpLines w s n (a + BitVec.ofNat 64 (16 * m)) =
      (List.range' m n).map fun l => dumpLine (a + BitVec.ofNat 64 (16 * l))
        ((List.range 16).map fun i => viewByte w s a (16 * l + i)) := by
    intro n
    induction n with
    | zero => exact fun _ => rfl
    | succ n ih =>
      intro m
      have hnext : a + BitVec.ofNat 64 (16 * m) + 16 = a + BitVec.ofNat 64 (16 * (m + 1)) := by
        have hoffset : BitVec.ofNat 64 (16 * m) + 16 = BitVec.ofNat 64 (16 * (m + 1)) := by bv_omega
        rw [BitVec.add_assoc, hoffset]
      rw [dumpLines_succ, lineBytes, hnext, ih, List.range'_succ, List.map_cons]
  have h0 := hlines 5 0
  rw [Nat.mul_zero, BitVec.add_zero] at h0
  rw [h0]
  rfl

/-- The two views are the true ones when the eighty bytes are. -/
theorem consistent_iff_bytes {own : Mem} (hs : s.conf.status = .running) : Consistent w s own a ↔
    ∀ i < 80, viewByte w s a i = trueByte s.conf.bps own (a + BitVec.ofNat 64 i) := by
  constructor
  · intro h i hi
    have hlist := h.disasm
    rw [disasmCode_eq] at hlist
    exact List.map_inj_left.mp hlist i (List.mem_range.mpr hi)
  · intro h
    refine ⟨?_, ?_⟩
    · have htext : dumpLines w s 5 a =
          dumpText a fun i => trueByte s.conf.bps own (a + BitVec.ofNat 64 i) := by
        rw [dumpLines_eq]
        apply List.map_congr_left
        intro l hl
        have hl' : l < 5 := List.mem_range.mp hl
        refine congrArg (dumpLine _) (List.map_congr_left fun i hi => ?_)
        have hi' : i < 16 := List.mem_range.mp hi
        exact h _ (by omega)
      rintro addr rfl
      rw [Sdb.dump, checked_running (by decide) hs, htext]
    · rw [disasmCode_eq]
      exact List.map_congr_left fun i hi => h i (List.mem_range.mp hi)

/-! ### One word -/

variable {bps : List Breakpoint} {m own : Mem} {x : Addr}

theorem hits_ne_nil {k : Nat} (hk : k < 8) (hx : x + BitVec.ofNat 64 k ∈ addrs bps) :
    hits bps x true k ≠ [] := by
  obtain ⟨b, hb, hba⟩ := hx
  refine List.ne_nil_of_mem (a := b) (List.mem_filter.mpr ⟨hb, ?_⟩)
  exact decide_eq_true (hits_of_addr hk hba (.inl rfl))

theorem shown_iff {k : Nat} (hk : k < 7)
    (hoff : x + BitVec.ofNat 64 k ∉ addrs bps → m (x + BitVec.ofNat 64 k) = own (x + BitVec.ofNat 64 k)) :
    byteOf (alternate bps (peek m x) x true true) k = trueByte bps own (x + BitVec.ofNat 64 k) ↔
      (hits bps x true k ≠ [] → x + BitVec.ofNat 64 k ∉ addrs bps →
        own (x + BitVec.ofNat 64 k) = 0xcc) := by
  rw [byteOf_alternate_trap _ hk, trueByte, byteOf_peek m x (by omega)]
  by_cases hx : x + BitVec.ofNat 64 k ∈ addrs bps
  · rw [if_neg (hits_ne_nil (by omega) hx), if_pos hx]
    simp [hx]
  · rw [if_neg hx]
    split
    · next hnil => simp [hnil, hoff hx]
    · next hne => exact ⟨fun h _ _ => h.symm, fun h => (h hne hx).symm⟩

theorem shown_last_iff (hoff : x + 7 ∉ addrs bps → m (x + 7) = own (x + 7)) :
    byteOf (alternate bps (peek m x) x true true) 7 = trueByte bps own (x + 7) ↔
      (hits bps x true 7 ≠ [] → x + 7 ∉ addrs bps → Bits 0xcc (own (x + 7))) ∧
      (x + 7 ∈ addrs bps → Bits (m (x + 7)) 0xcc) := by
  rw [byteOf_alternate_trap_last, trueByte, byteOf_peek m x (by decide)]
  have h7 : BitVec.ofNat 64 7 = (7 : Addr) := rfl
  rw [h7]
  by_cases hx : x + 7 ∈ addrs bps
  · rw [if_neg (hits_ne_nil (by decide) hx), if_pos hx]
    exact ⟨fun h => ⟨fun _ hno => absurd hx hno, fun _ => h⟩, fun h => h.2 hx⟩
  · rw [if_neg hx, hoff hx]
    split
    · next hnil => exact iff_of_true rfl ⟨fun hne => absurd hnil hne, fun hon => absurd hon hx⟩
    · next hne =>
        rw [BitVec.or_comm]
        exact ⟨fun h => ⟨fun _ _ => h, fun hon => absurd hon hx⟩, fun h => h.1 hne hx⟩

/-- **Where memory off the breakpoints is the child's own, the views are the true ones
exactly when the words are viewable.** -/
theorem consistent_iff_viewable {c : Child ρ} (hs : s.conf.status = .running) (hc : s.proc = .stopped c)
    (hoff : Set.EqOn c.mem own ((addrs s.conf.bps)ᶜ))
    (hreach : ∀ j < 10, w.reaches (a + BitVec.ofNat 64 (8 * j)) = true) :
    Consistent w s own a ↔ Viewable s.conf.bps c.mem own a := by
  have hbyte : ∀ j < 10, ∀ k < 8, viewByte w s a (8 * j + k) =
      byteOf (alternate s.conf.bps (peek c.mem (a + BitVec.ofNat 64 (8 * j)))
        (a + BitVec.ofNat 64 (8 * j)) true true) k := by
    intro j hj k hk
    rw [viewByte, show (8 * j + k) / 8 = j by omega, show (8 * j + k) % 8 = k by omega, viewWord,
      peektext_stopped hc (hreach j hj)]
  have haddr : ∀ j k, a + BitVec.ofNat 64 (8 * j) + BitVec.ofNat 64 k =
      a + BitVec.ofNat 64 (8 * j + k) := by
    intro j k
    rw [BitVec.add_assoc, BitVec.ofNat_add]
  have hlast : ∀ j, a + BitVec.ofNat 64 (8 * j) + 7 = a + BitVec.ofNat 64 (8 * j + 7) :=
    fun j => haddr j 7
  rw [consistent_iff_bytes hs]
  constructor
  · intro h
    have hword : ∀ j < 10, ∀ k < 8, byteOf (alternate s.conf.bps
        (peek c.mem (a + BitVec.ofNat 64 (8 * j))) (a + BitVec.ofNat 64 (8 * j)) true true) k =
        trueByte s.conf.bps own (a + BitVec.ofNat 64 (8 * j) + BitVec.ofNat 64 k) := by
      intro j hj k hk
      rw [← hbyte j hj k hk, haddr]
      exact h _ (by omega)
    refine ⟨fun j hj k hk => ?_, fun j hj => ?_, fun j hj => ?_⟩
    · rw [← haddr]
      exact (shown_iff hk fun hx => hoff hx).mp (hword j hj k (by omega))
    · rw [← hlast]
      exact ((shown_last_iff fun hx => hoff hx).mp (hword j hj 7 (by decide))).1
    · rw [← hlast]
      exact ((shown_last_iff fun hx => hoff hx).mp (hword j hj 7 (by decide))).2
  · intro h i hi
    have hj : i / 8 < 10 := by omega
    have hi' : 8 * (i / 8) + i % 8 = i := by omega
    rw [← hi', hbyte _ hj _ (by omega), ← haddr]
    by_cases hk : i % 8 = 7
    · rw [hk]
      refine (shown_last_iff fun hx => hoff hx).mpr ⟨?_, ?_⟩
      · rw [hlast]
        exact h.strayLast _ hj
      · rw [hlast]
        exact h.last _ hj
    · refine (shown_iff (by omega) fun hx => hoff hx).mpr ?_
      rw [haddr]
      exact h.stray _ hj _ (by omega)

end

/-! ### Sessions -/

/-- The step writes no byte of the child's over: `run` is `cont`, after `start` if there is
no child yet. -/
def Lossless (w : World ρ) (s : State ρ) : Action → Prop
  | .command .run e =>
    (s.conf.status = .running →
      Near w s (.command .cont e) ∧ Unstale w s (.command .cont e)) ∧
    (s.conf.status = .loaded → Unstale w s (.command .start e) ∧
      ∀ ret t, start w e.spawn s = .ok (ret, t) →
        Near w t (.command .cont e) ∧ Unstale w t (.command .cont e))
  | a => Near w s a ∧ Unstale w s a

/-- What holds at every prompt of a session of lossless steps, whatever the commands. -/
structure Held (w : World ρ) (p : Target) (s : State ρ) : Prop where
  sound : Sound w p s.conf
  untouched : Untouched s
  loaded : s.conf.status ≠ .notLoaded
  running : ∀ c, s.proc = .stopped c → s.conf.status = .running

section
variable {w : World ρ} {p : Target} {s t : State ρ} {e : Env} {cmd : Command} {r : Reply ρ}
  {c : Child ρ} {a : Addr}

theorem Held.same (h : Held w p s) (hconf : t.conf = s.conf) (hproc : t.proc = s.proc) :
    Held w p t := by
  refine ⟨?_, ?_, ?_, ?_⟩
  · rw [hconf]
    exact h.sound
  · rw [Untouched, hconf, hproc]
    exact h.untouched
  · rw [hconf]
    exact h.loaded
  · rw [hconf, hproc]
    exact h.running

theorem Held.shows (h : Held w p s) (hs : Shows s t) : Held w p t := by
  obtain ⟨lines, rfl⟩ := hs
  exact h.same rfl rfl

/-- The status after a wait: RUNNING if there is a child. -/
theorem waitstatus_status {cont : Bool} {wt : Wait ρ} (hs : s.conf.status = .running)
    (h : waitstatus w cont wt s = .ok r) :
    r.2.conf.status ≠ .notLoaded ∧ ∀ c, r.2.proc = .stopped c → r.2.conf.status = .running := by
  cases wt with
  | stopped c =>
    obtain ⟨-, hstatus, -⟩ := waitstatus_stopped_alike h
    rw [hstatus, hs]
    exact ⟨nofun, fun _ _ => rfl⟩
  | exited code =>
    obtain ⟨hgone, hstatus, -⟩ := waitstatus_exited h
    rw [hstatus, hgone]
    exact ⟨nofun, nofun⟩
  | signaled =>
    obtain ⟨hgone, hstatus, -⟩ := waitstatus_signaled h
    rw [hstatus, hgone, hs]
    exact ⟨nofun, nofun⟩

theorem status_handle (hcmd : Debugging cmd) (h : Held w p s) (hr : handle w e cmd s = .ok r) :
    r.2.conf.status ≠ .notLoaded ∧ ∀ c, r.2.proc = .stopped c → r.2.conf.status = .running := by
  have hshows : Shows s r.2 → r.2.conf.status ≠ .notLoaded ∧
      ∀ c, r.2.proc = .stopped c → r.2.conf.status = .running :=
    fun hs => ⟨(h.shows hs).loaded, (h.shows hs).running⟩
  cases hcmd with
  | break_ addr =>
    rcases setbreak_cases hr with ⟨hs, -⟩ | ⟨c, hc, hsets, -, rfl⟩
    · exact hshows hs
    · exact ⟨h.loaded, fun _ _ => hsets.running⟩
  | delete id =>
    rcases deletebreak_cases hr with ⟨hs, -⟩ | ⟨did, b, c, out, hdel, -, hc, -, rfl⟩
    · exact hshows hs
    · exact ⟨h.loaded, fun _ _ => hdel.1⟩
  | si =>
    rcases si_cases hr with ⟨-, hs⟩ | ⟨hs, c, wt, -, -, hwait⟩
    · exact hshows hs
    · exact waitstatus_status hs hwait
  | cont =>
    rcases cont_cases hr with ⟨-, hs⟩ | ⟨hs, wt, -, hwait⟩
    · exact hshows hs
    · exact waitstatus_status hs hwait
  | start =>
    rcases start_cases hr with ⟨-, hs⟩ | ⟨-, -, ret, u, out, v, -, -, rfl⟩
    · exact hshows hs
    · exact ⟨nofun, fun _ _ => rfl⟩

theorem held_debug (hcmd : Debugging cmd) (h : Held w p s) (hnear : Near w s (.command cmd e))
    (hun : Unstale w s (.command cmd e)) (hr : handle w e cmd s = .ok r) : Held w p r.2 := by
  have hstep : act w (.command cmd e) s = .ok r.2 := bind_ok.mpr ⟨r, hr, rfl⟩
  obtain ⟨hsound, huntouched⟩ := untouched_step h.sound h.untouched
    (show Session (.command cmd e) from hcmd) hnear hstep
  obtain ⟨hloaded, hrunning⟩ := status_handle hcmd h hr
  exact ⟨hsound, huntouched.mpr hun, hloaded, hrunning⟩

theorem held_run (h : Held w p s) (hok : Lossless w s (.command .run e))
    (hr : run w e s = .ok r) : Held w p r.2 := by
  rcases run_cases hr with ⟨hs, -⟩ | ⟨hs, out, hcont⟩ | ⟨hs, ret, t, hstart, hret⟩
  · exact absurd hs h.loaded
  · obtain ⟨hnear, hun⟩ := hok.1 hs
    have hsaid : Held w p { s with out := out } := h.same rfl rfl
    exact held_debug (e := e) .cont hsaid hnear hun hcont
  · obtain ⟨hun, hthen⟩ := hok.2 hs
    have hnear : Near w s (.command .start e) := by
      rintro a (ha | ha)
      · exact absurd ha (Set.notMem_empty a)
      · exact absurd ha (Set.notMem_empty a)
    have hstarted : Held w p t := held_debug (e := e) .start h hnear hun hstart
    rcases hret with ⟨-, rfl⟩ | ⟨-, hcont⟩
    · exact hstarted
    · obtain ⟨hnear', hun'⟩ := hthen ret t hstart
      exact held_debug (e := e) .cont hstarted hnear' hun' hcont

theorem held_step {x : Action} (h : Held w p s) (hok : Lossless w s x) (hstep : act w x s = .ok t) :
    Held w p t := by
  cases x with
  | killed =>
    rw [← Except.ok.inj hstep]
    unfold State.kill
    split
    · exact ⟨h.sound, nofun, h.loaded, nofun⟩
    · exact h
  | command cmd e =>
    obtain ⟨ret, hr⟩ := act_command hstep
    by_cases hdebug : Debugging cmd
    case pos =>
      have hok' : Near w s (.command cmd e) ∧ Unstale w s (.command cmd e) := by
        cases hdebug <;> exact hok
      exact held_debug hdebug h hok'.1 hok'.2 hr
    cases cmd with
    | run => exact held_run h hok hr
    | load program =>
      rcases load_cases hr with hs | ⟨hs, -⟩
      · exact h.shows hs
      · exact absurd hs h.loaded
    | set reg val =>
      rcases setReg_cases hr with hs | ⟨c, i, map, hc, -, ht⟩
      · exact h.shows hs
      · have ht' : t = _ := ht
        rw [ht']
        refine ⟨h.sound, fun c' hc' => ?_, h.loaded, fun _ _ => h.running c hc⟩
        rw [← Proc.stopped.inj hc']
        exact h.untouched c hc
    | _ => exact h.shows (handle_quiet hr hdebug nofun nofun nofun)

/-- **At every stop of a session of lossless steps, `dump` and `disasm` show a trap at every
breakpoint and the program's own bytes elsewhere exactly when the ten words are viewable.** -/
theorem consistent_iff {l : List (Edge (State ρ) Action)} (h : Path (act w) p.loaded l t)
    (hok : ∀ e ∈ l, Lossless w e.before e.action) (hc : t.proc = .stopped c)
    (hread : ∀ i < 80, w.mapped (a + BitVec.ofNat 64 i) = true) :
    Consistent w t c.own a ↔ Viewable t.conf.bps c.mem c.own a := by
  have h0 : Held w p (p.loaded : State ρ) := ⟨sound_loaded w p, nofun, nofun, nofun⟩
  have hheld : Held w p t := by
    have hrun : Run (act w) (Lossless w) p.loaded t := ⟨l, h, hok⟩
    exact hrun.invariant h0 fun s x t hs hx hstep => held_step hs hx hstep
  refine consistent_iff_viewable (hheld.running c hc) hc (hheld.untouched c hc) fun j hj => ?_
  refine List.all_eq_true.mpr fun k hk => ?_
  have hk' : k < 8 := List.mem_range.mp hk
  rw [BitVec.add_assoc, ← BitVec.ofNat_add]
  exact hread _ (by omega)

end

/-! ### Two views of the walk -/

/-- The steps of the walk with one breakpoint are lossless. -/
theorem lossless_break {l : List (Edge (State Unit) Action)} {addr : String}
    (hacts : l.map Edge.action = [.command .start {}, .command (.break_ addr) {}])
    (hnone : ∀ e ∈ l, e.before.conf.bps = []) : ∀ e ∈ l, Lossless walk e.before e.action := by
  intro e he
  have hmem : e.action ∈ [.command .start {}, .command (.break_ addr) {}] :=
    hacts ▸ List.mem_map_of_mem he
  have hnear : ∀ cmd, Near walk e.before (.command cmd {}) := by
    intro cmd a _
    rw [hnone e he]
    exact (clean_nil a).untruncated
  simp only [List.mem_cons, List.not_mem_nil, or_false] at hmem
  rcases hmem with ha | ha
  · rw [ha]
    refine ⟨hnear _, fun _ _ => ?_⟩
    rw [hnone e he]
    exact fun _ _ => rfl
  · rw [ha]
    exact ⟨hnear _, trivial⟩

/-- An armed trap is shown as what it is. -/
theorem consistent_armed : ∃ l t c, Path (act walk) walkTarget.loaded l t ∧
    l.map Edge.action = [.command .start {}, .command (.break_ "401002") {}] ∧
    t.proc = .stopped c ∧ Consistent walk t c.own 0x401000 := by
  let check := fun (l : List (Edge (State Unit) Action)) (t : State Unit) =>
    (l.all fun e => decide (e.before.conf.bps = [])) &&
      t.proc.check fun c => decide (Viewable t.conf.bps c.mem c.own 0x401000)
  have hfollow : (follow (act walk) [.command .start {}, .command (.break_ "401002") {}]
      walkTarget.loaded).any (fun p => check p.1 p.2) = true := by decide +kernel
  obtain ⟨l, t, hpath, hacts, hcheck⟩ := exists_path check hfollow
  obtain ⟨hnone, hstopped⟩ := (Bool.and_eq_true _ _).mp hcheck
  obtain ⟨c, hc, hview⟩ := Proc.stopped_of_check hstopped
  have hok := lossless_break hacts fun e he => of_decide_eq_true (List.all_eq_true.mp hnone e he)
  have hread : ∀ i < 80, walk.mapped (0x401000 + BitVec.ofNat 64 i) = true := by decide
  exact ⟨l, t, c, hpath, hacts, hc, (consistent_iff hpath hok hc hread).mpr (of_decide_eq_true hview)⟩

/-- A trap that is taken out, at the last byte of a word, is or-ed into the `nop` there. -/
theorem consistent_ored : ∃ l t c, Path (act walk) walkTarget.loaded l t ∧
    l.map Edge.action = [.command .start {}, .command (.break_ "401007") {},
      .command .cont { resume := { steps := 20 } }] ∧
    t.proc = .stopped c ∧ 0x401007 ∈ addrs t.conf.bps ∧
    (disasmCode walk t 0x401000)[7]? = some 0xdc ∧ ¬ Consistent walk t c.own 0x401000 := by
  let check := fun (_ : List (Edge (State Unit) Action)) (t : State Unit) =>
    decide ((0x401007 : Addr) ∈ addrs t.conf.bps) &&
      decide ((disasmCode walk t 0x401000)[7]? = some 0xdc) && t.proc.check fun _ => true
  have hfollow : (follow (act walk) [.command .start {}, .command (.break_ "401007") {},
      .command .cont { resume := { steps := 20 } }] walkTarget.loaded).any
      (fun p => check p.1 p.2) = true := by decide +kernel
  obtain ⟨l, t, hpath, hacts, hcheck⟩ := exists_path check hfollow
  simp only [check, Bool.and_eq_true, decide_eq_true_eq] at hcheck
  obtain ⟨⟨hon, hdc⟩, hstopped⟩ := hcheck
  obtain ⟨c, hc, -⟩ := Proc.stopped_of_check hstopped
  refine ⟨l, t, c, hpath, hacts, hc, hon, hdc, fun hcons => ?_⟩
  rw [hcons.disasm] at hdc
  have htrap : trueByte t.conf.bps c.own 0x401007 = 0xcc := if_pos hon
  have hored : trueByte t.conf.bps c.own 0x401007 = 0xdc := by simpa using hdc
  exact absurd (htrap.symm.trans hored) (by decide)

end Apue.Sdb

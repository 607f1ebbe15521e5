import Apue.Sdb.Fragment

/-! The pending-restore index.

`conf.lid` is a position in `conf.bps` that stays pending from one stop to the next
wait. `Pending` says it names the breakpoint the last `restoreifbreak` took out, and
that the next `resetbreak` puts exactly that one back. `deletebreak` shifts the list
and leaves the index alone, so one kind of step breaks it: deleting a breakpoint at or
before the pending one. `pending_iff`: along any run it is right at every prompt
exactly when no step is of that kind. -/
namespace Apue.Sdb
open Memory CLib Transition

variable {ρ : Type}

/-- The index is -1 or names the breakpoint taken out. -/
def Names (s : State ρ) : Prop :=
  s.conf.lid = -1 ∨
    ∃ (i : Nat) (b : Breakpoint), s.conf.lid = i ∧ s.conf.bps[i]? = some b ∧ s.taken = some b

/-- The pending index is right, and the next `resetbreak` indexes in range and puts a
trap at that breakpoint's address. -/
structure Pending (w : World ρ) (s : State ρ) : Prop where
  names : Names s
  inRange : resetbreak w s ≠ .error .undefined
  rearms : ∀ s', resetbreak w s = .ok s' → s'.conf.lid = -1 ∧
    ∀ b, 0 ≤ s.conf.lid → s.taken = some b → ∃ c, s'.proc = .stopped c ∧ c.mem b.addr = 0xcc

theorem Names.pending_eq {s : State ρ} (h : Names s) (hlid : 0 ≤ s.conf.lid) :
    ∃ b, s.pending = some b ∧ s.taken = some b := by
  rcases h with hneg | ⟨i, b, hi, hb, htaken⟩
  · omega
  · refine ⟨b, ?_, htaken⟩
    rw [State.pending, hi]
    exact hb

/-- Naming the right breakpoint is all it takes. -/
theorem Names.toPending {s : State ρ} (h : Names s) (w : World ρ) : Pending w s := by
  refine ⟨h, fun hu => ?_, fun s' hs' => ?_⟩
  · unfold resetbreak at hu
    split at hu
    case isTrue => cases hu
    case isFalse hneg =>
      obtain ⟨b, hb, -⟩ := h.pending_eq (by omega)
      rw [hb] at hu
      simp only [poketext] at hu
      split at hu
      case h_1 => split at hu <;> cases hu
      case h_2 => cases hu
  · rcases resetbreak_cases hs' with ⟨hneg, rfl⟩ | ⟨bp, c, hlid, hbp, hc, -, rfl⟩
    · refine ⟨?_, fun b hlid => absurd hneg (by omega)⟩
      rcases h with hlid | ⟨i, b, hi, -⟩ <;> omega
    · refine ⟨rfl, fun b _ htaken => ⟨_, rfl, ?_⟩⟩
      obtain ⟨b', hb', htaken'⟩ := h.pending_eq hlid
      obtain rfl : bp = b' := Option.some.inj (hbp.symm.trans hb')
      obtain rfl : bp = b := Option.some.inj (htaken'.symm.trans htaken)
      have hmem : bp ∈ s.conf.bps := List.mem_of_getElem? hbp
      exact (poke_self c.mem bp.addr _).trans (byteOf_alternate_armed hmem _)

/-! ### Waits -/

theorem names_resetbreak {w : World ρ} {s s' : State ρ} (h : Names s)
    (hs : resetbreak w s = .ok s') : s'.conf.lid = -1 := by
  rcases resetbreak_cases hs with ⟨hneg, rfl⟩ | ⟨bp, c, -, -, -, -, rfl⟩
  · rcases h with hlid | ⟨i, b, hi, -⟩ <;> omega
  · rfl

theorem names_restoreifbreak {w : World ρ} {cont : Bool} {s s' : State ρ} {c : Child ρ}
    (hlid : s.conf.lid = -1) (hc : s.proc = .stopped c) (hs : restoreifbreak w cont s = .ok s') :
    Names s' := by
  rcases restoreifbreak_cases hc hs with ⟨-, rfl⟩ | ⟨rid, bp, out, -, hbp, -, rfl⟩
  · exact .inl hlid
  · exact .inr ⟨rid, bp, rfl, hbp, rfl⟩

/-- `resetbreak` leaves a stopped child stopped. -/
theorem resetbreak_stopped {w : World ρ} {s s' : State ρ} {c : Child ρ} (hc : s.proc = .stopped c)
    (h : resetbreak w s = .ok s') : ∃ c', s'.proc = .stopped c' := by
  rcases resetbreak_cases h with ⟨-, rfl⟩ | ⟨bp, c', -, -, -, -, rfl⟩
  · exact ⟨c, hc⟩
  · exact ⟨_, rfl⟩

/-- However a wait ends, the index is right afterwards. -/
theorem names_waitstatus {w : World ρ} {cont : Bool} {wt : Wait ρ} {s : State ρ} {r : Reply ρ}
    (h : Names s) (hr : waitstatus w cont wt s = .ok r) : Names r.2 := by
  cases wt with
  | exited code =>
    rw [← Except.ok.inj hr]
    exact h
  | signaled =>
    rw [← Except.ok.inj hr]
    exact h
  | stopped c =>
    obtain ⟨-, out, t, ht, hu⟩ := waitstatus_stopped hr
    have h' : Names { s with proc := .stopped c, out := out } := h
    have hlid := names_resetbreak h' ht
    obtain ⟨c', hc'⟩ := resetbreak_stopped rfl ht
    exact names_restoreifbreak hlid hc' hu

theorem names_cont {w : World ρ} {res : Resume} {s : State ρ} {r : Reply ρ} (h : Names s)
    (hr : cont w res s = .ok r) : Names r.2 := by
  rcases cont_cases hr with ⟨-, lines, hl⟩ | ⟨-, wt, -, hwt⟩
  · rw [hl]
    exact h
  · exact names_waitstatus h hwt

theorem names_si {w : World ρ} {res : Resume} {s : State ρ} {r : Reply ρ} (h : Names s)
    (hr : si w res s = .ok r) : Names r.2 := by
  rcases si_cases hr with ⟨-, lines, hl⟩ | ⟨-, c, wt, -, -, hwt⟩
  · rw [hl]
    exact h
  · exact names_waitstatus h hwt

theorem names_start {w : World ρ} {e : Spawn} {s : State ρ} {r : Reply ρ} (h : Names s)
    (hr : start w e s = .ok r) : Names r.2 := by
  rcases start_cases hr with ⟨-, lines, hl⟩ | ⟨-, -, ret, t, out, u, ht, hu, rfl⟩
  · rw [hl]
    exact h
  · have h' : Names { s with conf := { s.conf with child := e.pid } } := h
    have hnames := names_waitstatus h' ht
    obtain ⟨proc, rfl⟩ := setallbreak_same hu
    exact hnames

theorem names_run {w : World ρ} {e : Env} {s : State ρ} {r : Reply ρ} (h : Names s)
    (hr : run w e s = .ok r) : Names r.2 := by
  rcases run_cases hr with ⟨-, lines, hl⟩ | ⟨-, out, hcont⟩ | ⟨-, ret, t, hstart, hret⟩
  · rw [hl]
    exact h
  · have h' : Names { s with out := out } := h
    exact names_cont h' hcont
  · have hnames := names_start h hstart
    rcases hret with ⟨-, rfl⟩ | ⟨-, hcont⟩
    · exact hnames
    · exact names_cont hnames hcont

/-! ### Breakpoints -/

theorem names_setbreak {w : World ρ} {addr : String} {s : State ρ} {r : Reply ρ} (h : Names s)
    (hr : setbreak w addr s = .ok r) : Names r.2 := by
  rcases setbreak_cases hr with ⟨⟨lines, hl⟩, -⟩ | ⟨c, -, -, -, rfl⟩
  · rw [hl]
    exact h
  · rcases h with hlid | ⟨i, b, hi, hb, htaken⟩
    · exact .inl hlid
    · refine .inr ⟨i, b, hi, ?_, htaken⟩
      show (s.conf.bps ++ _)[i]? = some b
      rw [List.getElem?_append_left (List.getElem?_eq_some_iff.mp hb).1]
      exact hb

/-- Deleting a breakpoint at or before the pending one. -/
def DeletesPending (s : State ρ) (id : String) : Prop :=
  ∃ did : Nat, Deletes s id did ∧ (did : Int) ≤ s.conf.lid

/-- A deletion keeps the index right exactly when the breakpoint deleted comes after the
pending one. -/
theorem names_deletebreak {w : World ρ} {id : String} {s : State ρ} {r : Reply ρ} (h : Names s)
    (hd : Distinct s.conf.bps) (hr : deletebreak w id s = .ok r) :
    Names r.2 ↔ ¬ DeletesPending s id := by
  rcases deletebreak_cases hr with ⟨⟨lines, hl⟩, hno⟩ | ⟨did, bp, c, out, hdel, hbp, -, -, rfl⟩
  · rw [hl]
    exact ⟨fun _ ⟨did, hdid, _⟩ => hno did hdid, fun _ => h⟩
  · have honly : ¬ DeletesPending s id ↔ s.conf.lid < did := by
      refine ⟨fun hnot => ?_, fun hlt ⟨n, hn, hle⟩ => ?_⟩
      · by_contra hge
        exact hnot ⟨did, hdel, by omega⟩
      · have : (did : Int) = n := Except.ok.inj (hdel.2.1.symm.trans hn.2.1)
        omega
    rw [honly]
    rcases h with hlid | ⟨i, b, hi, hb, htaken⟩
    · exact ⟨fun _ => by omega, fun _ => .inl hlid⟩
    constructor
    · -- the successor of index `i` would be the breakpoint at `i` itself
      rintro (hlid | ⟨j, b', hj, hb', htaken'⟩)
      · have : s.conf.lid = -1 := hlid
        omega
      · obtain rfl : i = j := by
          have : s.conf.lid = j := hj
          omega
        obtain rfl : b = b' := Option.some.inj (htaken.symm.trans htaken')
        by_contra hge
        have hnext : s.conf.bps[i + 1]? = some b := by
          have : (s.conf.bps.eraseIdx did)[i]? = some b := hb'
          rwa [List.getElem?_eraseIdx, if_neg (by omega)] at this
        have haddr : (s.conf.bps.map Breakpoint.addr)[i]? = (s.conf.bps.map Breakpoint.addr)[i + 1]? := by
          rw [List.getElem?_map, List.getElem?_map, hb, hnext]
        have hlen : i < (s.conf.bps.map Breakpoint.addr).length := by
          rw [List.length_map]
          exact (List.getElem?_eq_some_iff.mp hb).1
        have := (List.getElem?_inj hlen hd).mp haddr
        omega
    · intro hlt
      refine .inr ⟨i, b, hi, ?_, htaken⟩
      show (s.conf.bps.eraseIdx did)[i]? = some b
      rw [List.getElem?_eraseIdx, if_pos (by omega)]
      exact hb

/-! ### Sessions -/

/-- Every command but `delete` keeps the index right. -/
theorem names_handle {w : World ρ} {e : Env} {c : Command} {s : State ρ} {r : Reply ρ}
    (h : Names s) (hc : ∀ id, c ≠ .delete id) (hr : handle w e c s = .ok r) : Names r.2 := by
  cases c with
  | delete id => exact absurd rfl (hc id)
  | break_ addr => exact names_setbreak h hr
  | si => exact names_si h hr
  | cont => exact names_cont h hr
  | start => exact names_start h hr
  | run => exact names_run h hr
  | set reg val =>
    rcases setReg_cases hr with ⟨lines, hl⟩ | ⟨c', i, map, -, -, hl⟩
    all_goals
      rw [hl]
      exact h
  | load p =>
    rcases load_cases hr with ⟨lines, hl⟩ | ⟨-, out, hl | ⟨-, entry, size, hl⟩⟩
    all_goals
      rw [hl]
      exact h
  | _ =>
    have hquiet := handle_quiet hr (by intro h; cases h) (by simp) (by simp) (by simp)
    obtain ⟨lines, hl⟩ := hquiet
    rw [hl]
    exact h

/-- The steps that keep the pending index right. -/
def SparesPending (s : State ρ) : Action → Prop
  | .command (.delete id) _ => ¬ DeletesPending s id
  | _ => True

theorem names_act {w : World ρ} {a : Action} {s t : State ρ} (h : Names s)
    (hd : Distinct s.conf.bps) (hs : act w a s = .ok t) : Names t ↔ SparesPending s a := by
  cases a with
  | killed =>
    rw [← Except.ok.inj hs]
    unfold State.kill
    split <;> exact ⟨fun _ => trivial, fun _ => h⟩
  | command c e =>
    obtain ⟨ret, hr⟩ := act_command hs
    by_cases hdel : ∃ id, c = .delete id
    · obtain ⟨id, rfl⟩ := hdel
      exact names_deletebreak h hd hr
    · have hc : ∀ id, c ≠ .delete id := fun id hid => hdel ⟨id, hid⟩
      refine ⟨fun _ => ?_, fun _ => names_handle h hc hr⟩
      unfold SparesPending
      split
      case h_1 id _ heq => exact absurd (Action.command.inj heq).1 (hc id)
      case h_2 => trivial

/-- **The pending index is right at every prompt of a run exactly when no step of the
run deletes a breakpoint at or before the pending one.** -/
theorem pending_iff (w : World ρ) {l : List (Edge (State ρ) Action)} {t : State ρ}
    (h : Path (act w) {} l t) :
    (∀ e ∈ l, Pending w e.after) ↔ ∀ e ∈ l, SparesPending e.before e.action := by
  have hstep : ∀ (s : State ρ) (a : Action) (t : State ρ), Distinct s.conf.bps → Pending w s →
      True → act w a s = .ok t → Distinct t.conf.bps ∧ (Pending w t ↔ SparesPending s a) := by
    intro s a t hd hp _ hs
    have hiff := names_act hp.names hd hs
    exact ⟨(act_moves hs).distinct hd, fun ht => hiff.mp ht.names, fun hok => (hiff.mpr hok).toPending w⟩
  exact h.forall_after_iff (fun _ _ => trivial) hstep List.nodup_nil (Names.toPending (.inl rfl) w)

def steppedSession : List Action :=
  [.command (.load "walk") {}, .command .start {}, .command (.break_ "401004") {},
   .command .cont { resume := { steps := 20 } }, .command .si { resume := { steps := 1 } }]

theorem pending_stepped : ∃ l t, Path (act walk) {} l t ∧ l.map Edge.action = steppedSession ∧
    ∀ e ∈ l, Pending walk e.after := by
  have hfollow : (follow (act walk) steppedSession {}).any (fun _ => true) = true := by
    decide +kernel
  obtain ⟨l, t, h, hacts, -⟩ := exists_path (fun _ _ => true) hfollow
  refine ⟨l, t, h, hacts, (pending_iff walk h).mpr fun e he => ?_⟩
  have hmem : e.action ∈ steppedSession := hacts ▸ List.mem_map_of_mem he
  simp only [steppedSession, List.mem_cons, List.not_mem_nil, or_false] at hmem
  rcases hmem with ha | ha | ha | ha | ha <;> rw [ha] <;> trivial

def lostSession : List Action :=
  [.command (.load "walk") {}, .command .start {}, .command (.break_ "401004") {},
   .command .cont { resume := { steps := 20 } }, .command (.delete "0") {}]

/-- Deleting the breakpoint the child is stopped at leaves index 0 into an empty list. -/
theorem pending_lost : ∃ l t, Path (act walk) {} l t ∧ l.map Edge.action = lostSession ∧
    ¬ Pending walk t := by
  have hfollow : (follow (act walk) lostSession {}).any
      (fun p => decide (p.2.conf.lid = 0 ∧ p.2.conf.bps = [])) = true := by
    decide +kernel
  obtain ⟨l, t, h, hacts, hlost⟩ := exists_path
    (fun _ (t : State Unit) => decide (t.conf.lid = 0 ∧ t.conf.bps = [])) hfollow
  obtain ⟨hlid, hbps⟩ := of_decide_eq_true hlost
  refine ⟨l, t, h, hacts, fun hp => ?_⟩
  obtain ⟨b, hb, -⟩ := hp.names.pending_eq (by omega)
  simp [State.pending, hbps] at hb

end Apue.Sdb

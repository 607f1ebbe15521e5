import Apue.Sdb.Fragment

/-! What `delete` does with its argument.

The argument goes through `stoi`, which throws at what is no number and stops at the first
character that is no digit, and the guard compares with `>` where the vector needs `>=`.
`allOrNothing_iff`: `delete` removes the breakpoint its argument denotes, or else reports
an error and changes nothing, exactly when `stoi` reads a number other than the number of
breakpoints, and reads the whole of the argument where that is a breakpoint's. -/
namespace Apue.Sdb
open Memory CLib Transition

variable {ρ : Type}

/-- Exactly the breakpoint at index `i` is gone. -/
def Removed (s : State ρ) (i : Nat) (x : Except Halt (Reply ρ)) : Prop :=
  ∃ r, x = .ok r ∧ r.1 = 0 ∧ r.2.conf.bps = s.conf.bps.eraseIdx i

/-- An error is returned and nothing has changed. -/
def Refused (s : State ρ) (x : Except Halt (Reply ρ)) : Prop :=
  ∃ r, x = .ok r ∧ r.1 < 0 ∧ r.2.conf.bps = s.conf.bps ∧ r.2.conf.lid = s.conf.lid ∧
    r.2.proc = s.proc

def AllOrNothing (w : World ρ) (s : State ρ) (id : String) : Prop :=
  (∀ i : Nat, i < s.conf.bps.length → denotes id = some (i : Int) →
    Removed s i (deletebreak w id s)) ∧
  ((∀ i : Nat, i < s.conf.bps.length → denotes id ≠ some (i : Int)) →
    Refused s (deletebreak w id s))

/-- The breakpoint at index `i` is there, and the child and its word. -/
def Deletable (w : World ρ) (s : State ρ) (i : Nat) : Prop :=
  ∃ b c, s.conf.bps[i]? = some b ∧ s.proc = .stopped c ∧ w.reaches b.addr = true

section
variable {w : World ρ} {s : State ρ} {id : String} {i : Nat}

theorem not_removed_of_error {h : Halt} : ¬ Removed s i (.error h) := by
  rintro ⟨r, hr, -⟩
  cases hr

theorem not_refused_of_error {h : Halt} : ¬ Refused s (.error h) := by
  rintro ⟨r, hr, -⟩
  cases hr

/-- A command that does not come back is neither. -/
theorem not_allOrNothing_of_error {h : Halt} (hx : deletebreak w id s = .error h) :
    ¬ AllOrNothing w s id := by
  intro ⟨hsome, hnone⟩
  rw [hx] at hsome hnone
  refine not_refused_of_error (hnone fun i hi hid => ?_)
  exact not_removed_of_error (hsome i hi hid)

/-! ### The three outcomes -/

theorem deletebreak_throws {e : StoiError} (hs : s.conf.status = .running) (h : stoi id = .error e) :
    deletebreak w id s = .error .abort := by
  rw [deletebreak, checked_running running_delete hs, h]

theorem deletebreak_refuses {j : Int} (hs : s.conf.status = .running) (h : stoi id = .ok j)
    (hj : tooLarge j s.conf.bps.length) : Refused s (deletebreak w id s) := by
  rw [deletebreak, checked_running running_delete hs, h]
  simp only [hj, if_true]
  exact ⟨_, rfl, show errBadBreakpoint < 0 by decide, rfl, rfl, rfl⟩

/-- One past the last breakpoint the vector is read out of its bounds. -/
theorem deletebreak_past (hs : s.conf.status = .running)
    (h : stoi id = .ok (s.conf.bps.length : Int)) : deletebreak w id s = .error .undefined := by
  have hsmall : ¬ tooLarge (s.conf.bps.length : Int) s.conf.bps.length := by
    unfold tooLarge
    omega
  rw [deletebreak, checked_running running_delete hs, h]
  simp [hsmall]

theorem deletebreak_removes (hs : s.conf.status = .running) (h : stoi id = .ok (i : Int))
    (hi : Deletable w s i) : Removed s i (deletebreak w id s) := by
  obtain ⟨b, c, hb, hc, hr⟩ := hi
  have hsmall : ¬ tooLarge (i : Int) s.conf.bps.length := by
    have hlt := (List.getElem?_eq_some_iff.mp hb).1
    unfold tooLarge
    omega
  rw [deletebreak, checked_running running_delete hs, h]
  simp only [hsmall, if_false, Int.toNat_natCast, hb, poketext_stopped _ hc hr]
  exact ⟨_, rfl, rfl, rfl⟩

/-- What returns for a breakpoint's index has removed it. -/
theorem deletable_of_ok {r : Reply ρ} (hs : s.conf.status = .running) (h : stoi id = .ok (i : Int))
    (hi : i < s.conf.bps.length) (hr : deletebreak w id s = .ok r) :
    Deletable w s i ∧ r.1 = 0 := by
  rcases deletebreak_cases hr with ⟨-, hno⟩ | ⟨did, b, c, out, hdel, hb, hc, hreach, rfl⟩
  · exact absurd ⟨hs, h, hi⟩ (hno i)
  · have hij : (did : Int) = (i : Int) := Except.ok.inj (hdel.2.1.symm.trans h)
    obtain rfl : did = i := by omega
    exact ⟨⟨b, c, hb, hc, hreach⟩, rfl⟩

/-- Where `stoi` reads the index of a breakpoint. -/
theorem allOrNothing_iff_of_lt (hs : s.conf.status = .running) {i : Nat} (hstoi : stoi id = .ok (i : Int))
    (hi : i < s.conf.bps.length) :
    AllOrNothing w s id ↔ denotes id = some (i : Int) ∧ Deletable w s i := by
  constructor
  · intro ⟨hsome, hnone⟩
    by_cases hid : denotes id = some (i : Int)
    · obtain ⟨r, hr, -⟩ := hsome i hi hid
      exact ⟨hid, (deletable_of_ok hs hstoi hi hr).1⟩
    · obtain ⟨r, hr, hneg, -⟩ := hnone fun k _ hk => hid (eq_of_denotes hstoi hk ▸ hk)
      have hzero := (deletable_of_ok hs hstoi hi hr).2
      omega
  · intro ⟨hid, hdel⟩
    refine ⟨fun k _ hk => ?_, fun hno => absurd hid (hno i hi)⟩
    obtain rfl : i = k := by
      have := eq_of_denotes hstoi hk
      omega
    exact deletebreak_removes hs hstoi hdel

/-- **`delete` removes the breakpoint its argument denotes, or else reports an error and
changes nothing, exactly when `stoi` reads a number that is not the number of breakpoints
and, where it is a breakpoint's, the argument denotes it, with a child there to write to.** -/
theorem allOrNothing_iff (hs : s.conf.status = .running) : AllOrNothing w s id ↔
    ∃ j, stoi id = .ok j ∧ j ≠ s.conf.bps.length ∧
      (tooLarge j s.conf.bps.length ∨ denotes id = some j ∧ Deletable w s j.toNat) := by
  cases hstoi : stoi id with
  | error e =>
    refine iff_of_false (not_allOrNothing_of_error (deletebreak_throws hs hstoi)) ?_
    rintro ⟨j, hj, -⟩
    cases hj
  | ok j =>
    simp only [Except.ok.injEq, exists_eq_left']
    by_cases hpast : j = s.conf.bps.length
    case pos =>
      have hno : ¬ AllOrNothing w s id :=
        not_allOrNothing_of_error (deletebreak_past hs (hpast ▸ hstoi))
      exact iff_of_false hno fun h => h.1 hpast
    rw [and_iff_right hpast]
    by_cases hlarge : tooLarge j s.conf.bps.length
    case pos =>
      refine iff_of_true ⟨fun i hi hid => ?_, fun _ => deletebreak_refuses hs hstoi hlarge⟩ (.inl hlarge)
      have hj := eq_of_denotes hstoi hid
      unfold tooLarge at hlarge
      omega
    obtain ⟨i, hi, rfl⟩ : ∃ i : Nat, i < s.conf.bps.length ∧ j = i := by
      unfold tooLarge at hlarge
      exact ⟨j.toNat, by omega, by omega⟩
    rw [or_iff_right hlarge]
    exact allOrNothing_iff_of_lt hs hstoi hi

end

/-! ### Some arguments -/

/-- The walk with a breakpoint at the jump's target. -/
def breakSession : List Action :=
  [.command (.load "walk") {}, .command .start {}, .command (.break_ "401002") {}]

theorem removes_first : ∃ l s, Path (act walk) {} l s ∧ l.map Edge.action = breakSession ∧
    AllOrNothing walk s "0" ∧ AllOrNothing walk s "7" := by
  let check := fun (_ : List (Edge (State Unit) Action)) (s : State Unit) =>
    decide (s.conf.status = .running) && decide (s.conf.bps = [⟨0x401002, 0x9090909090909090⟩]) &&
      s.proc.check fun _ => true
  have hfollow : (follow (act walk) breakSession {}).any (fun p => check p.1 p.2) = true := by
    decide +kernel
  obtain ⟨l, s, hpath, hacts, hcheck⟩ := exists_path check hfollow
  simp only [check, Bool.and_eq_true, decide_eq_true_eq] at hcheck
  obtain ⟨⟨hs, hbps⟩, hstopped⟩ := hcheck
  obtain ⟨c, hc, -⟩ := Proc.stopped_of_check hstopped
  refine ⟨l, s, hpath, hacts, (allOrNothing_iff hs).mpr ?_, (allOrNothing_iff hs).mpr ?_⟩
  · have hreach : walk.reaches 0x401002 = true := by decide
    refine ⟨0, by decide, by rw [hbps]; decide, .inr ⟨by decide, ?_⟩⟩
    exact ⟨⟨0x401002, 0x9090909090909090⟩, c, by rw [hbps]; rfl, hc, hreach⟩
  · exact ⟨7, by decide, by rw [hbps]; decide, .inl (by rw [hbps]; decide)⟩

/-- With no breakpoint, `delete 0` reads the empty vector, and `delete x` ends the
debugger. -/
theorem removes_none : ∃ l s, Path (act walk) {} l s ∧
    l.map Edge.action = [.command (.load "walk") {}, .command .start {}] ∧
    s.conf.status = .running ∧ s.conf.bps = [] ∧
    deletebreak walk "0" s = .error .undefined ∧ deletebreak walk "x" s = .error .abort ∧
    ¬ AllOrNothing walk s "0" ∧ ¬ AllOrNothing walk s "x" := by
  let check := fun (_ : List (Edge (State Unit) Action)) (s : State Unit) =>
    decide (s.conf.status = .running) && decide (s.conf.bps = [])
  have hfollow : (follow (act walk) [.command (.load "walk") {}, .command .start {}] {}).any
      (fun p => check p.1 p.2) = true := by decide +kernel
  obtain ⟨l, s, hpath, hacts, hcheck⟩ := exists_path check hfollow
  simp only [check, Bool.and_eq_true, decide_eq_true_eq] at hcheck
  obtain ⟨hs, hbps⟩ := hcheck
  have hzero : stoi "0" = .ok (s.conf.bps.length : Int) := by
    rw [hbps]
    decide
  have hpast := deletebreak_past (w := walk) hs hzero
  have hthrows : deletebreak walk "x" s = .error .abort :=
    deletebreak_throws hs (show stoi "x" = .error .invalidArgument by decide)
  exact ⟨l, s, hpath, hacts, hs, hbps, hpast, hthrows, not_allOrNothing_of_error hpast,
    not_allOrNothing_of_error hthrows⟩

end Apue.Sdb

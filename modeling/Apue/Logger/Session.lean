import Apue.Logger.Fields

/-! A program under the logger.

The program makes calls, whose records are given to `dprintf`, and between them does as it
likes to the process, to what `dprintf` leaves of it, too. It ends when a call does not
return. -/
namespace Apue.Logger
open Memory Transition

variable {ρ : Type}

inductive Step (ρ : Type) where
  | call (c : Call)
  | program (env : Process ρ)

structure Session (ρ : Type) where
  state : State (Process ρ)
  /-- What `dprintf` was given: the log, where it could write that. -/
  printed : List Byte

def Session.start (env : Process ρ) : Session ρ := ⟨init env, []⟩

def Session.step (libc : Libc (Process ρ)) : Step ρ → Session ρ → Except Unit (Session ρ)
  | .call c, s =>
    match c.run libc s.state with
    | some (_, t, record) => .ok ⟨t, s.printed ++ record.text⟩
    | none => .error ()
  | .program env, s => .ok { s with state := { s.state with env := env } }

/-- `P` of every call, in the state it is made in. -/
def Along (libc : Libc (Process ρ)) (P : Call → State (Process ρ) → Prop) :
    List (Step ρ) → State (Process ρ) → Prop
  | [], _ => True
  | .call c :: rest, s => P c s ∧ Along libc P rest (c.after libc s)
  | .program env :: rest, s => Along libc P rest { s with env := env }

theorem step_call_iff {libc : Libc (Process ρ)} {c : Call} {s t : Session ρ} :
    Session.step libc (.call c) s = .ok t ↔ c.There libc s.state ∧
      c.Quotable libc s.state ∧
      t = ⟨c.after libc s.state, s.printed ++ (c.record libc s.state).text⟩ := by
  cases hrun : c.run libc s.state with
  | none =>
    simp only [Session.step, hrun, reduceCtorEq, false_iff]
    intro ⟨hthere, hquotable, _⟩
    rw [run_of_there hthere hquotable] at hrun
    cases hrun
  | some out =>
    obtain ⟨ret, u, r⟩ := out
    obtain ⟨hthere, hquotable, -, rfl, rfl⟩ := run_iff.mp hrun
    simp only [Session.step, hrun, Except.ok.injEq]
    exact ⟨fun h => ⟨hthere, hquotable, h.symm⟩, fun h => h.2.2.symm⟩

/-- The calls of a program return as long as all they resolve can be quoted. -/
theorem returns_iff {libc : Libc (Process ρ)} {steps : List (Step ρ)} {s : Session ρ}
    (h : Along libc (fun c s => c.There libc s) steps s.state) :
    (∃ l t, Path (Session.step libc) s l t ∧ l.map Edge.action = steps) ↔
      Along libc (fun c s => c.Quotable libc s) steps s.state := by
  induction steps generalizing s with
  | nil => exact iff_of_true ⟨[], s, .nil, rfl⟩ trivial
  | cons step rest ih =>
    have hcons : (∃ l t, Path (Session.step libc) s l t ∧ l.map Edge.action = step :: rest) ↔
        ∃ u, Session.step libc step s = .ok u ∧
          ∃ l t, Path (Session.step libc) u l t ∧ l.map Edge.action = rest := by
      constructor
      · rintro ⟨l, t, hpath, hacts⟩
        cases hpath with
        | nil => cases hacts
        | @cons _ u _ _ l hs hpath =>
          obtain ⟨rfl, hrest⟩ := List.cons.inj hacts
          exact ⟨u, hs, l, t, hpath, hrest⟩
      · rintro ⟨u, hs, l, t, hpath, hacts⟩
        exact ⟨_, t, .cons hs hpath, congrArg (step :: ·) hacts⟩
    rw [hcons]
    cases step with
    | call c =>
      have hnext := ih (s := ⟨c.after libc s.state, s.printed ++ (c.record libc s.state).text⟩) h.2
      simp only [step_call_iff, Along, ← hnext, h.1, true_and]
      constructor
      · rintro ⟨u, ⟨hquotable, rfl⟩, hrest⟩
        exact ⟨hquotable, hrest⟩
      · rintro ⟨hquotable, hrest⟩
        exact ⟨_, ⟨hquotable, rfl⟩, hrest⟩
    | program env =>
      rw [Along, ← ih (s := { s with state := { s.state with env := env } }) h]
      simp [Session.step]

end Apue.Logger

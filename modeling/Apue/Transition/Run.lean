import Mathlib.Tactic.TypeStar

/-! Runs of a fallible step function.

A `Path` is a finite sequence of actions, each of which returned a state, with the
states it passes through. `Run step ok s t`: a path leads from `s` to `t` and every
action on it is `ok` in the state it is taken in. -/
namespace Apue.Transition

/-- A sequence of two fallible computations returns when both do. -/
theorem bind_ok {ε : Type*} {α β : Type _} {x : Except ε α} {f : α → Except ε β} {b : β} :
    (x >>= f) = .ok b ↔ ∃ a, x = .ok a ∧ f a = .ok b := by
  cases x with
  | error e => exact ⟨fun h => (nomatch h), fun ⟨_, h, _⟩ => (nomatch h)⟩
  | ok a => exact ⟨fun h => ⟨a, rfl, h⟩, fun ⟨_, h, hf⟩ => Except.ok.inj h ▸ hf⟩

variable {σ α ε : Type*}

/-- One transition: the state before, the action and the state after. -/
structure Edge (σ α : Type*) where
  before : σ
  action : α
  after : σ

inductive Path (step : α → σ → Except ε σ) : σ → List (Edge σ α) → σ → Prop where
  | nil {s : σ} : Path step s [] s
  | cons {s t u : σ} {a : α} {l : List (Edge σ α)} :
      step a s = .ok t → Path step t l u → Path step s (⟨s, a, t⟩ :: l) u

def Run (step : α → σ → Except ε σ) (ok : σ → α → Prop) (s t : σ) : Prop :=
  ∃ l, Path step s l t ∧ ∀ e ∈ l, ok e.before e.action

variable {step : α → σ → Except ε σ} {ok : σ → α → Prop}

/-- **The invariant rule**: what holds at the start and is kept by every `ok` step
holds at the end of every run. -/
theorem Run.invariant {I : σ → Prop} {s t : σ} (h : Run step ok s t) (h0 : I s)
    (hstep : ∀ s a t, I s → ok s a → step a s = .ok t → I t) : I t := by
  obtain ⟨l, hpath, hok⟩ := h
  induction hpath with
  | nil => exact h0
  | @cons s t u a l hs _ ih =>
    obtain ⟨ha, hrest⟩ := List.forall_mem_cons.mp hok
    exact ih (hstep s a t h0 ha hs) hrest

/-- What is kept by the steps of a path holds before each of them. -/
theorem Path.forall_before {I : σ → Prop} {s t : σ} {l : List (Edge σ α)} (h : Path step s l t)
    (hok : ∀ e ∈ l, ok e.before e.action) (h0 : I s)
    (hstep : ∀ s a t, I s → ok s a → step a s = .ok t → I t) : ∀ e ∈ l, I e.before := by
  induction h with
  | nil => nofun
  | @cons s t u a l hs _ ih =>
    obtain ⟨ha, hrest⟩ := List.forall_mem_cons.mp hok
    exact List.forall_mem_cons.mpr ⟨h0, ih hrest (hstep s a t h0 ha hs)⟩

theorem Path.step_of_mem {s t : σ} {l : List (Edge σ α)} (h : Path step s l t) :
    ∀ e ∈ l, step e.action e.before = .ok e.after := by
  induction h with
  | nil => nofun
  | cons hs _ ih => exact List.forall_mem_cons.mpr ⟨hs, ih⟩

/-- Where one step that is `G` keeps `P` exactly when it is `ok`, a path of such steps
stays in `P` exactly when all of them are. `J` is what may be assumed of every state on
the way. -/
theorem Path.forall_after_iff {J P : σ → Prop} {G : σ → α → Prop} {s t : σ} {l : List (Edge σ α)}
    (h : Path step s l t) (hG : ∀ e ∈ l, G e.before e.action)
    (hstep : ∀ s a t, J s → P s → G s a → step a s = .ok t → J t ∧ (P t ↔ ok s a))
    (hJ : J s) (hP : P s) : (∀ e ∈ l, P e.after) ↔ ∀ e ∈ l, ok e.before e.action := by
  induction h with
  | nil => simp
  | @cons s t u a l hs _ ih =>
    obtain ⟨ha, hrest⟩ := List.forall_mem_cons.mp hG
    obtain ⟨hJt, hPt⟩ := hstep s a t hJ hP ha hs
    have ih' := ih hrest hJt
    simp only [List.forall_mem_cons, hPt]
    constructor
    · intro ⟨hok, hafter⟩
      exact ⟨hok, (ih' (hPt.mpr hok)).mp hafter⟩
    · intro ⟨hok, hall⟩
      exact ⟨hok, (ih' (hPt.mpr hok)).mpr hall⟩

/-! ### Paths one after the other -/

theorem Path.append {s t u : σ} {l l' : List (Edge σ α)} (h : Path step s l t) (h' : Path step t l' u) :
    Path step s (l ++ l') u := by
  induction h with
  | nil => exact h'
  | cons hs _ ih => exact .cons hs (ih h')

/-- A path of large steps is one of the small steps they are made of. -/
theorem Path.split {β : Type*} {large : β → σ → Except ε σ} {small : β → List α}
    (hsplit : ∀ b s t, large b s = .ok t → ∃ l, Path step s l t ∧ l.map Edge.action = small b)
    {s t : σ} {l : List (Edge σ β)} (h : Path large s l t) :
    ∃ l', Path step s l' t ∧ l'.map Edge.action = (l.map Edge.action).flatMap small := by
  induction h with
  | nil => exact ⟨[], .nil, rfl⟩
  | @cons s t u b l hs _ ih =>
    obtain ⟨l₁, h₁, hacts₁⟩ := hsplit b s t hs
    obtain ⟨l₂, h₂, hacts₂⟩ := ih
    refine ⟨l₁ ++ l₂, h₁.append h₂, ?_⟩
    rw [List.map_append, hacts₁, hacts₂, List.map_cons, List.flatMap_cons]

/-- Each of the actions is `ok` where it is taken, as far as they return. -/
def Along (step : α → σ → Except ε σ) (ok : σ → α → Prop) : List α → σ → Prop
  | [], _ => True
  | a :: rest, s => ok s a ∧ ∀ t, step a s = .ok t → Along step ok rest t

/-- What is true of the actions is true of the path that takes them. -/
theorem forall_of_actions {P : α → Prop} {l : List (Edge σ α)} {as : List α}
    (h : l.map Edge.action = as) (hP : ∀ a ∈ as, P a) : ∀ e ∈ l, P e.action :=
  fun _ he => hP _ (h ▸ List.mem_map_of_mem he)

/-- The path that takes the given actions, if each of them returns. -/
def follow (step : α → σ → Except ε σ) : List α → σ → Option (List (Edge σ α) × σ)
  | [], s => some ([], s)
  | a :: rest, s =>
    match step a s with
    | .ok t => (follow step rest t).map fun p => (⟨s, a, t⟩ :: p.1, p.2)
    | .error _ => none

theorem path_of_follow {as : List α} {s t : σ} {l : List (Edge σ α)}
    (h : follow step as s = some (l, t)) : Path step s l t ∧ l.map Edge.action = as := by
  induction as generalizing s l with
  | nil =>
    cases h
    exact ⟨.nil, rfl⟩
  | cons a rest ih =>
    unfold follow at h
    split at h
    case h_1 u hu =>
      obtain ⟨⟨l', t'⟩, hp, he⟩ := Option.map_eq_some_iff.mp h
      cases he
      obtain ⟨hpath, hacts⟩ := ih hp
      exact ⟨.cons hu hpath, congrArg (a :: ·) hacts⟩
    case h_2 => cases h

/-- What a computed check says of the path and its end is true of an actual path. -/
theorem exists_path {as : List α} {s : σ} (check : List (Edge σ α) → σ → Bool)
    (h : (follow step as s).any (fun p => check p.1 p.2) = true) :
    ∃ l t, Path step s l t ∧ l.map Edge.action = as ∧ check l t = true := by
  obtain ⟨⟨l, t⟩, hp, hc⟩ := (Option.any_eq_true _ _).mp h
  obtain ⟨hpath, hacts⟩ := path_of_follow hp
  exact ⟨l, t, hpath, hacts, hc⟩

end Apue.Transition

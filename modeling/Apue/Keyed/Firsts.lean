import Mathlib.Data.Set.Function

/-! The first items with each key.

A scan that keeps an item when its key has not been seen. A coarser key loses items: by
`firsts_coarse` the scan by `g ∘ key` agrees with the scan by `key` exactly when `g` tells
the keys apart. -/
namespace Apue.Keyed

variable {α β γ : Type*} [DecidableEq β] [DecidableEq γ]

/-- The items whose key has not been seen before. -/
def firsts (key : α → β) : List β → List α → List α
  | _, [] => []
  | seen, a :: as =>
    if key a ∈ seen then firsts key seen as else a :: firsts key (key a :: seen) as

variable {key : α → β} {seen : List β} {as : List α}

theorem firsts_cons_mem {a : α} (h : key a ∈ seen) : firsts key seen (a :: as) = firsts key seen as :=
  if_pos h

theorem firsts_cons_notMem {a : α} (h : key a ∉ seen) :
    firsts key seen (a :: as) = a :: firsts key (key a :: seen) as :=
  if_neg h

theorem firsts_sublist (key : α → β) (seen : List β) (as : List α) :
    (firsts key seen as).Sublist as := by
  induction as generalizing seen with
  | nil => exact List.Sublist.refl _
  | cons a as ih =>
    by_cases h : key a ∈ seen
    · rw [firsts_cons_mem h]
      exact (ih seen).cons a
    · rw [firsts_cons_notMem h]
      exact (ih _).cons_cons a

/-- What is kept has a new key. -/
theorem key_notMem {a : α} (h : a ∈ firsts key seen as) : key a ∉ seen := by
  induction as generalizing seen with
  | nil => cases h
  | cons b as ih =>
    by_cases hb : key b ∈ seen
    · rw [firsts_cons_mem hb] at h
      exact ih h
    · rw [firsts_cons_notMem hb] at h
      rcases List.mem_cons.mp h with rfl | h
      · exact hb
      · exact fun ha => ih h (List.mem_cons_of_mem _ ha)

/-- No key is kept twice. -/
theorem nodup_firsts (key : α → β) (seen : List β) (as : List α) :
    ((firsts key seen as).map key).Nodup := by
  induction as generalizing seen with
  | nil => exact List.nodup_nil
  | cons a as ih =>
    by_cases h : key a ∈ seen
    · rw [firsts_cons_mem h]
      exact ih seen
    · rw [firsts_cons_notMem h, List.map_cons, List.nodup_cons]
      refine ⟨fun ha => ?_, ih _⟩
      obtain ⟨b, hb, hkey⟩ := List.mem_map.mp ha
      exact key_notMem hb (hkey ▸ List.mem_cons_self)

/-- No key is lost. -/
theorem mem_firsts_key {b : β} : b ∈ (firsts key seen as).map key ↔ b ∈ as.map key ∧ b ∉ seen := by
  induction as generalizing seen with
  | nil => simp [firsts]
  | cons a as ih =>
    by_cases h : key a ∈ seen
    · rw [firsts_cons_mem h, ih, List.map_cons, List.mem_cons]
      refine ⟨fun ⟨hb, hs⟩ => ⟨.inr hb, hs⟩, fun ⟨hb, hs⟩ => ⟨hb.resolve_left ?_, hs⟩⟩
      rintro rfl
      exact hs h
    · rw [firsts_cons_notMem h, List.map_cons, List.map_cons, List.mem_cons, List.mem_cons, ih,
        List.mem_cons]
      by_cases hb : b = key a
      · simp [hb, h]
      · simp [hb]

omit [DecidableEq β] in
/-- The keys of an item that is seen already are no more. -/
theorem keys_cons_mem {a : α} (h : key a ∈ seen) :
    {b | b ∈ seen ∨ b ∈ (a :: as).map key} = {b | b ∈ seen ∨ b ∈ as.map key} := by
  ext b
  simp only [List.map_cons, List.mem_cons, Set.mem_ofPred_eq]
  refine ⟨fun hb => ?_, fun hb => hb.imp_right .inr⟩
  rcases hb with hb | rfl | hb
  · exact .inl hb
  · exact .inl h
  · exact .inr hb

omit [DecidableEq β] in
theorem keys_cons (key : α → β) (seen : List β) (a : α) (as : List α) :
    {b | b ∈ seen ∨ b ∈ (a :: as).map key} = {b | b ∈ key a :: seen ∨ b ∈ as.map key} := by
  ext b
  simp only [List.map_cons, List.mem_cons, Set.mem_ofPred_eq]
  exact or_left_comm.trans or_assoc.symm

omit [DecidableEq β] [DecidableEq γ] in
/-- One more key whose image is new. -/
theorem injOn_cons {g : β → γ} {b : β} (hseen : Set.InjOn g {b | b ∈ seen}) (hb : g b ∉ seen.map g) :
    Set.InjOn g {c | c ∈ b :: seen} := by
  have hnew : b ∉ seen := fun h => hb (List.mem_map_of_mem h)
  have hset : {c | c ∈ b :: seen} = insert b {c | c ∈ seen} := by
    ext c
    exact List.mem_cons
  rw [hset, Set.injOn_insert (s := {c | c ∈ seen}) hnew]
  refine ⟨hseen, fun himage => hb ?_⟩
  obtain ⟨c, hc, hgc⟩ := himage
  exact hgc ▸ List.mem_map_of_mem hc

/-- **A coarser key** keeps as many keys exactly when it is injective on those there are. -/
theorem firsts_coarse {g : β → γ} (hseen : Set.InjOn g {b | b ∈ seen}) :
    (firsts (g ∘ key) (seen.map g) as).map (g ∘ key) = (firsts key seen as).map (g ∘ key) ↔
      Set.InjOn g {b | b ∈ seen ∨ b ∈ as.map key} := by
  induction as generalizing seen with
  | nil =>
    have hset : {b | b ∈ seen ∨ b ∈ ([] : List α).map key} = {b | b ∈ seen} := by simp
    rw [hset]
    exact iff_of_true rfl hseen
  | cons a as ih =>
    by_cases ha : key a ∈ seen
    case pos =>
      have hg : (g ∘ key) a ∈ seen.map g := List.mem_map_of_mem ha
      rw [firsts_cons_mem ha, firsts_cons_mem hg, keys_cons_mem ha]
      exact ih hseen
    by_cases hg : (g ∘ key) a ∈ seen.map g
    case pos =>
      rw [firsts_cons_mem hg, firsts_cons_notMem ha]
      refine iff_of_false (fun heq => ?_) fun hinj => ?_
      · -- the coarse scan keeps nothing with the coarse key of `a`
        have hmem : g (key a) ∈ (firsts (g ∘ key) (seen.map g) as).map (g ∘ key) := by
          rw [heq]
          exact List.mem_cons_self
        exact (mem_firsts_key.mp hmem).2 hg
      · obtain ⟨b, hb, hgb⟩ := List.mem_map.mp hg
        have heq : b = key a := hinj (.inl hb) (.inr List.mem_cons_self) hgb
        exact ha (heq ▸ hb)
    case neg =>
      rw [firsts_cons_notMem hg, firsts_cons_notMem ha, keys_cons, List.map_cons, List.map_cons,
        List.cons_inj_right]
      exact ih (injOn_cons hseen hg)

/-- Where it is injective the two scans agree. -/
theorem firsts_of_injOn {g : β → γ} (h : Set.InjOn g {b | b ∈ seen ∨ b ∈ as.map key}) :
    firsts (g ∘ key) (seen.map g) as = firsts key seen as := by
  induction as generalizing seen with
  | nil => rfl
  | cons a as ih =>
    have hmem : g (key a) ∈ seen.map g ↔ key a ∈ seen := by
      refine ⟨fun hg => ?_, List.mem_map_of_mem⟩
      obtain ⟨b, hb, hgb⟩ := List.mem_map.mp hg
      exact h (.inl hb) (.inr List.mem_cons_self) hgb ▸ hb
    by_cases ha : key a ∈ seen
    · rw [firsts_cons_mem ha, firsts_cons_mem (show (g ∘ key) a ∈ seen.map g from hmem.mpr ha)]
      exact ih (h.mono fun b hb => hb.imp_right (List.mem_cons_of_mem _))
    · rw [firsts_cons_notMem ha,
        firsts_cons_notMem (show (g ∘ key) a ∉ seen.map g from mt hmem.mp ha)]
      rw [keys_cons] at h
      exact congrArg (a :: ·) (ih h)

end Apue.Keyed

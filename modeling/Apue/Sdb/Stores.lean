import Apue.Sdb.SavedWord

/-! What the child stores.

Three commands write a whole saved word back, seven bytes of which are the child's. A
byte the child has stored there since the word was saved is lost. `untouched_iff`: in a
session whose distances fit an `int`, every byte off the breakpoints is the child's own
at every prompt exactly when no step writes a stale byte back. Nothing is asked of what
the child stores, or where. -/
namespace Apue.Sdb
open Memory CLib Transition

variable {ρ : Type}

/-- Every byte at no breakpoint is the one the child has there by itself. -/
def Untouched (s : State ρ) : Prop :=
  ∀ c, s.proc = .stopped c → Set.EqOn c.mem c.own ((addrs s.conf.bps)ᶜ)

/-- The saved words written into a memory, in order. -/
def writeBack (ws : List Breakpoint) (m : Mem) : Mem := ws.foldl (fun m b => poke m b.addr b.code) m

/-- Off `A`, writing the saved words back changes nothing of the child's own memory. -/
def Fresh (ws : List Breakpoint) (own : Mem) (A : Set Addr) : Prop :=
  Set.EqOn (writeBack ws own) own (Aᶜ)

/-- The saved words a stop at `c` writes: the pending breakpoint's and the one's it is at. -/
def stopWords (s : State ρ) (cont : Bool) (c : Child ρ) : List Breakpoint :=
  (if s.conf.lid < 0 then [] else s.pending.toList) ++
    ((hitIndex s.conf.bps cont c.rip).bind (s.conf.bps[·]?)).toList

/-- The step writes no stale byte back. -/
def Unstale (w : World ρ) (s : State ρ) : Action → Prop
  | .command .start e => s.conf.status = .loaded → e.spawn.result = .execd →
      Fresh (sortedByAddr s.conf.bps) (w.load s.conf.program).mem (addrs s.conf.bps)
  | .command (.delete id) _ => ∀ did b c, Deletes s id did → s.conf.bps[did]? = some b →
      s.proc = .stopped c → Fresh [b] c.own (addrs s.conf.bps \ {b.addr})
  | .command .si e => ∀ c, StopsAs w false e s c →
      Fresh (stopWords s false c) c.own (addrs s.conf.bps)
  | .command .cont e => ∀ c, StopsAs w true e s c →
      Fresh (stopWords s true c) c.own (addrs s.conf.bps)
  | _ => True

theorem unstale_resumes {w : World ρ} {s : State ρ} {cont : Bool} {e : Env} :
    Unstale w s (.command (resumes cont) e) ↔
      ∀ c, StopsAs w cont e s c → Fresh (stopWords s cont c) c.own (addrs s.conf.bps) := by
  cases cont <;> exact Iff.rfl

theorem unstale_of_idle {w : World ρ} {s : State ρ} {cmd : Command} {e : Env}
    (h : Idle w e s cmd) : Unstale w s (.command cmd e) := by
  cases cmd with
  | start => exact fun hs hexec => absurd ⟨hs, hexec⟩ h
  | delete id => exact fun did b c hdel => absurd hdel (h did)
  | si => exact fun c hstop => absurd hstop (h c)
  | cont => exact fun c hstop => absurd hstop (h c)
  | _ => trivial

/-! ### What the words leave -/

section Words
variable {w : World ρ} {p : Target} {bps ws : List Breakpoint} {A : Set Addr} {m m' own : Mem}
  {s : State ρ} {c c' : Child ρ} {cont : Bool} {lid : Int}

theorem writeBack_append (ws vs : List Breakpoint) (m : Mem) :
    writeBack (ws ++ vs) m = writeBack vs (writeBack ws m) :=
  List.foldl_append

/-- A memory that agrees with the words written over another is right where that is. -/
theorem eqOn_iff_fresh (h : Set.EqOn m (writeBack ws own) (Aᶜ)) :
    Set.EqOn m own (Aᶜ) ↔ Fresh ws own A :=
  ⟨fun hm => h.symm.trans hm, fun hf => h.trans hf⟩

/-- Off the breakpoints the mixed word is the saved one. -/
theorem eqOn_alternate {b : Breakpoint} (hu : Untruncated bps b.addr)
    (h : Set.EqOn m m' ((addrs bps)ᶜ)) (to0xcc includeSelf : Bool) :
    Set.EqOn (poke m b.addr (alternate bps b.code b.addr to0xcc includeSelf))
      (poke m' b.addr b.code) ((addrs bps)ᶜ) :=
  eqOn_poke_poke (fun _ hx _ => h hx) fun _ hk hoff =>
    byteOf_alternate_off hu b.code to0xcc includeSelf hk hoff

/-- `deletebreak` puts the breakpoint's own byte back as well. -/
theorem eqOn_deleted {b : Breakpoint} (hu : Untruncated bps b.addr)
    (h : Set.EqOn m m' ((addrs bps)ᶜ)) :
    Set.EqOn (poke m b.addr (alternate bps b.code b.addr true false)) (poke m' b.addr b.code)
      ((addrs bps \ {b.addr})ᶜ) := by
  refine eqOn_poke_poke (fun x hx hw => h fun hB => hx ⟨hB, ?_⟩) fun k hk hoff => ?_
  · rintro rfl
    exact hw (self_mem_window _)
  · by_cases hk0 : k = 0
    · rw [hk0]
      exact byteOf_alternate_self hu b.code true
    · have hne : b.addr + BitVec.ofNat 64 k ∉ ({b.addr} : Set Addr) := by
        intro he
        have h0 : b.addr + BitVec.ofNat 64 k = b.addr + BitVec.ofNat 64 0 := by simpa using he
        exact hk0 (add_inj b.addr (by omega) (by decide) h0)
      exact byteOf_alternate_off hu b.code true false hk fun hB => hoff ⟨hB, hne⟩

/-- A stop writes its words. -/
theorem eqOn_stop (hrearm : ∀ a, Rearms s a → Untruncated s.conf.bps a)
    (hhit : ∀ a, HitAt s.conf.bps cont c.rip a → Untruncated s.conf.bps a)
    (hstops : Stops s.conf.bps cont { c with mem := rearmed s c.mem } lid c')
    (h : Set.EqOn c.mem c.own ((addrs s.conf.bps)ᶜ)) :
    Set.EqOn c'.mem (writeBack (stopWords s cont c) c.own) ((addrs s.conf.bps)ᶜ) := by
  have hreset : Set.EqOn (rearmed s c.mem)
      (writeBack (if s.conf.lid < 0 then [] else s.pending.toList) c.own)
      ((addrs s.conf.bps)ᶜ) := by
    rcases rearmed_cases s with ⟨hnone, hmem, -⟩ | ⟨b, hlid, hb, hmem, -⟩
    · have hwords : (if s.conf.lid < 0 then [] else s.pending.toList) = [] := by
        rcases hnone with hneg | hnone
        · exact if_pos hneg
        · rw [hnone, Option.toList_none, ite_self]
      rw [hmem, hwords]
      exact h
    · rw [hmem, if_neg (by omega), hb]
      exact eqOn_alternate (hrearm _ ⟨hlid, b, hb, rfl⟩) h true true
  rw [stopWords, writeBack_append]
  cases hstops with
  | elsewhere hnone =>
    have hnone' : hitIndex s.conf.bps cont c.rip = none := hnone
    rw [hnone']
    exact hreset
  | @hit rid b hrid hb =>
    have hrid' : hitIndex s.conf.bps cont c.rip = some rid := hrid
    rw [hrid', Option.bind_some, hb]
    exact eqOn_alternate (hhit _ (hitAt_of_hitIndex hrid' hb)) hreset false false

/-- What is under the words does not matter. -/
theorem writeBack_congr (h : ∀ x, (∀ b ∈ ws, x ∉ window b.addr) → m x = m' x) :
    writeBack ws m = writeBack ws m' := by
  induction ws generalizing m m' with
  | nil => exact funext fun x => h x nofun
  | cons b rest ih =>
    refine ih fun x hx => ?_
    show poke m b.addr b.code x = poke m' b.addr b.code x
    by_cases hw : x ∈ window b.addr
    · obtain ⟨k, hk, rfl⟩ := exists_offset hw
      rw [poke_apply m _ _ hk, poke_apply m' _ _ hk]
    · rw [poke_off hw, poke_off hw]
      exact h x (List.forall_mem_cons.mpr ⟨hw, hx⟩)

/-- `setallbreak` writes every word, with traps at the breakpoints. -/
theorem eqOn_setall (hsub : addrs ws ⊆ A) (h : Set.EqOn m m' (Aᶜ)) :
    Set.EqOn (setallMem ws m) (writeBack ws m') (Aᶜ) := by
  induction ws generalizing m m' with
  | nil => exact h
  | cons b rest ih =>
    rw [addrs_cons] at hsub
    refine ih (fun x hx => hsub (Set.mem_insert_of_mem _ hx)) ?_
    refine eqOn_poke_poke (fun x hx _ => h hx) fun k hk hoff => ?_
    have hk0 : 0 < k := by
      by_contra hk0
      obtain rfl : k = 0 := by omega
      exact hoff (hsub (by simp))
    exact byteOf_withLow b.code (by decide) hk0 hk

/-- A start writes every saved word over the image. -/
theorem eqOn_start (hc : c = w.spawned s.conf.program)
    (hstops : Stops s.conf.bps false { c with mem := rearmed s c.mem } lid c') :
    Set.EqOn (setallMem (sortedByAddr s.conf.bps) c'.mem)
      (writeBack (sortedByAddr s.conf.bps) (w.load s.conf.program).mem)
      ((addrs s.conf.bps)ᶜ) := by
  have himage : writeBack (sortedByAddr s.conf.bps) c'.mem =
      writeBack (sortedByAddr s.conf.bps) (w.load s.conf.program).mem := by
    refine writeBack_congr fun x hx => ?_
    have hoff : ∀ b ∈ s.conf.bps, x ∉ window b.addr := fun b hb => hx b (mem_sortedByAddr.mpr hb)
    rw [hstops.mem_off hoff]
    show rearmed s c.mem x = _
    rw [rearmed_off hoff, hc]
    rfl
  rw [← himage]
  refine eqOn_setall ?_ fun _ _ => rfl
  rintro x ⟨b, hb, rfl⟩
  exact mem_addrs (mem_sortedByAddr.mp hb)

/-- The child's stores go to both memories, wherever they go. -/
theorem eqOn_resume {single : Bool} {r : Resume} (hc : s.proc = .stopped c)
    (hstop : resume w single r s = .ok (.stopped c')) (h : Set.EqOn c.mem c.own (Aᶜ)) :
    Set.EqOn c'.mem c'.own (Aᶜ) := by
  refine resume_invariant (I := fun c => Set.EqOn c.mem c.own (Aᶜ)) ?_ ?_ hc hstop h
  · intro c c' hI hs
    obtain ⟨-, regs, st, rest, -, rfl⟩ := stepChild_ran hs
    intro x hx
    show store c.mem st x = store c.own st x
    simp only [store, hI hx]
  · intro c c' hI hs
    obtain ⟨-, rfl⟩ := stepChild_trapped hs
    exact hI

end Words

/-! ### Sessions -/

variable {w : World ρ} {p : Target} {s t : State ρ}

theorem untouched_deletes (hsound : Sound w p s.conf) (h : Untouched s) {id : String} {e : Env} {did : Nat}
    {b : Breakpoint} {c : Child ρ} (hnear : Untruncated s.conf.bps b.addr) (hdel : Deletes s id did)
    (hb : s.conf.bps[did]? = some b) (hc : s.proc = .stopped c)
    (hconf : t.conf = { s.conf with bps := s.conf.bps.eraseIdx did })
    (hproc : t.proc = .stopped { c with
      mem := poke c.mem b.addr (alternate s.conf.bps b.code b.addr true false) }) :
    Untouched t ↔ Unstale w s (.command (.delete id) e) := by
  have hword : Set.EqOn (poke c.mem b.addr (alternate s.conf.bps b.code b.addr true false))
      (writeBack [b] c.own) ((addrs s.conf.bps \ {b.addr})ᶜ) := eqOn_deleted hnear (h c hc)
  have hwrite := eqOn_iff_fresh hword
  have haddrs : addrs t.conf.bps = addrs s.conf.bps \ {b.addr} := by
    rw [hconf]
    exact addrs_eraseIdx hsound.distinct hb
  rw [← haddrs] at hwrite
  constructor
  · intro ht did' b' c' hdel' hb' hc'
    obtain rfl : did = did' := by
      have := Except.ok.inj (hdel.2.1.symm.trans hdel'.2.1)
      omega
    obtain rfl := Option.some.inj (hb.symm.trans hb')
    obtain rfl := Proc.stopped.inj (hc.symm.trans hc')
    rw [← haddrs]
    exact hwrite.mp (ht _ hproc)
  · intro hfresh c' hc'
    rw [← Proc.stopped.inj (hproc.symm.trans hc')]
    refine hwrite.mpr ?_
    rw [haddrs]
    exact hfresh did b c hdel hb hc

/-- The child's bytes, when all that is asked of the state is about them. -/
theorem untouched_stopped {c : Child ρ} {own : Mem} {bps : List Breakpoint} (hproc : t.proc = .stopped c)
    (hown : c.own = own) (hbps : t.conf.bps = bps) :
    Untouched t ↔ Set.EqOn c.mem own ((addrs bps)ᶜ) := by
  rw [Untouched, hproc, hbps, ← hown]
  exact ⟨fun ht => ht c rfl, fun ht c' hc' => Proc.stopped.inj hc' ▸ ht⟩

theorem untouched_stops (h : Untouched s) {cont : Bool} {e : Env} {c₀ c c' : Child ρ} {lid : Int}
    (hnear : Near w s (.command (resumes cont) e)) (hc₀ : s.proc = .stopped c₀)
    (hstop : StopsAs w cont e s c)
    (hstops : Stops s.conf.bps cont { c with mem := rearmed s c.mem } lid c')
    (hconf : t.conf = { s.conf with lid := lid }) (hproc : t.proc = .stopped c') :
    Untouched t ↔ Unstale w s (.command (resumes cont) e) := by
  have hwrite := eqOn_iff_fresh (eqOn_stop (fun a ha => hnear a (.inl (mem_arms hstop ha)))
    (fun a ha => hnear a (.inr (mem_restores hstop ha))) hstops
    (eqOn_resume hc₀ hstop.2 (h c₀ hc₀)))
  rw [untouched_stopped hproc hstops.own (congrArg Config.bps hconf), hwrite, unstale_resumes]
  constructor
  · intro hfresh c'' hstop''
    obtain rfl := Wait.stopped.inj (Except.ok.inj (hstop.2.symm.trans hstop''.2))
    exact hfresh
  · exact fun hfresh => hfresh c hstop

theorem untouched_step {a : Action} (hsound : Sound w p s.conf) (h : Untouched s)
    (hsess : Session a) (hnear : Near w s a) (hstep : act w a s = .ok t) :
    Sound w p t.conf ∧ (Untouched t ↔ Unstale w s a) := by
  obtain ⟨cmd, e, rfl, he⟩ := effect_act hsound.lid hsess hstep
  refine ⟨hsound.effect he, ?_⟩
  cases he with
  | shows hidle hconf hproc =>
    refine ⟨fun _ => unstale_of_idle hidle, fun _ => ?_⟩
    rw [Untouched, hconf, hproc]
    exact h
  | @breaks addr a c t ha hc hsets hreach hconf hproc =>
    refine ⟨fun _ => trivial, fun _ c' hc' => ?_⟩
    rw [hproc] at hc'
    rw [← Proc.stopped.inj hc', hconf, addrs_append]
    exact eqOn_poke_low a (h c hc) (by decide)
  | @deletes id did b c t hdel hb hc hconf hproc =>
    have hu := hnear b.addr (.inl ⟨did, b, hdel, hb, rfl⟩)
    exact untouched_deletes hsound h hu hdel hb hc hconf hproc
  | @stops cont c₀ c c' lid t hc₀ hstop hstops hconf hproc =>
    exact untouched_stops h hnear hc₀ hstop hstops hconf hproc
  | ends hidle hconf hproc =>
    refine ⟨fun _ => unstale_of_idle hidle, fun _ c hc => ?_⟩
    rw [hproc] at hc
    cases hc
  | @starts c c' lid t hs hexec hc hstops hconf hproc =>
    have hown : c'.own = (w.load s.conf.program).mem := by
      rw [hstops.own, hc]
      rfl
    rw [untouched_stopped hproc hown (congrArg Config.bps hconf), eqOn_iff_fresh (eqOn_start hc hstops)]
    exact ⟨fun hfresh _ _ => hfresh, fun hfresh => hfresh hs hexec⟩

/-- **In a session whose distances fit an `int`, every byte off the breakpoints is the
child's own at every prompt exactly when no step writes a stale byte back.** -/
theorem untouched_iff {l : List (Edge (State ρ) Action)} (h : Path (act w) p.loaded l t)
    (hsession : ∀ e ∈ l, Session e.action ∧ Near w e.before e.action) :
    (∀ e ∈ l, Untouched e.after) ↔ ∀ e ∈ l, Unstale w e.before e.action := by
  have hu0 : Untouched (p.loaded : State ρ) := nofun
  have hstep : ∀ (s : State ρ) (a : Action) (t : State ρ), Sound w p s.conf → Untouched s →
      Session a ∧ Near w s a → act w a s = .ok t →
      Sound w p t.conf ∧ (Untouched t ↔ Unstale w s a) :=
    fun s a t hsound hu ⟨hsess, hnear⟩ hstep => untouched_step hsound hu hsess hnear hstep
  exact h.forall_after_iff hsession hstep (sound_loaded w p) hu0

/-! ### Read-only text -/

/-- Words that are right write nothing. -/
theorem fresh_of_saved {own : Mem} {bps ws : List Breakpoint} {A : Set Addr} (hs : Saved own bps)
    (hws : ∀ b ∈ ws, b ∈ bps) : Fresh ws own A := by
  have hsame : writeBack ws own = own := by
    induction ws with
    | nil => rfl
    | cons b rest ih =>
      obtain ⟨hb, hrest⟩ := List.forall_mem_cons.mp hws
      have hpoke : poke own b.addr b.code = own := poke_same (hs b hb)
      show writeBack rest (poke own b.addr b.code) = own
      rw [hpoke]
      exact ih hrest
  rw [Fresh, hsame]
  exact fun _ _ => rfl

theorem mem_stopWords {cont : Bool} {c : Child ρ} {b : Breakpoint} (hb : b ∈ stopWords s cont c) :
    b ∈ s.conf.bps := by
  rcases List.mem_append.mp hb with hb | hb
  · split at hb
    · cases hb
    · exact State.pending_mem (Option.mem_toList.mp hb)
  · obtain ⟨rid, -, hrid⟩ := Option.bind_eq_some_iff.mp (Option.mem_toList.mp hb)
    exact List.mem_of_getElem? hrid

/-! ### A byte kept -/

/-- A store, two `nop`s, an exit and a byte of data. -/
def storeCode : List Byte := [0x88, 0x07, 0x90, 0x90, 0x0f, 0x05, 0xaa]

/-- It stores a zero over the data. -/
def storing : World Unit := fragment (fun _ => false) 0x401000 storeCode 0x401006

def storingTarget : Target := fragmentTarget 0x401000 storeCode (by decide) (by decide)

/-- The breakpoints' words are what the child has by itself where it stops. -/
def freshCheck (w : World ρ) (s : State ρ) : Action → Bool
  | .command .start _ => s.conf.bps.isEmpty
  | .command (.break_ _) _ => true
  | .command .si e =>
    match resume w true e.resume s with
    | .ok (.stopped c) => s.conf.bps.all fun b => b.code = peek c.own b.addr
    | _ => true
  | _ => false

theorem saved_of_peek {own : Mem} {bps : List Breakpoint} (h : ∀ b ∈ bps, b.code = peek own b.addr) :
    Saved own bps := by
  intro b hb k hk
  rw [h b hb, byteOf_peek own b.addr hk]

theorem unstale_of_check {a : Action} (h : freshCheck w s a = true) : Unstale w s a := by
  unfold freshCheck at h
  split at h
  case h_1 e =>
    intro _ _
    rw [List.isEmpty_iff.mp h]
    exact fun _ _ => rfl
  case h_2 => trivial
  case h_3 e =>
    intro c hstop
    have hresume : resume w true e.resume s = .ok (.stopped c) := hstop.2
    rw [hresume] at h
    have hcodes : ∀ b ∈ s.conf.bps, b.code = peek c.own b.addr := fun b hb =>
      of_decide_eq_true (List.all_eq_true.mp h b hb)
    exact fresh_of_saved (saved_of_peek hcodes) fun b hb => mem_stopWords hb
  case h_4 => cases h

/-- The store, and a `break` three bytes below the data with a stop there. -/
def keptSession : List Action :=
  [.command .start {}, .command .si { resume := { steps := 1 } }, .command (.break_ "401003") {},
   .command .si { resume := { steps := 1 } }, .command .si { resume := { steps := 1 } }]

/-- A byte that was stored before the word was saved is written back as it is. -/
theorem untouched_kept : ∃ l t c, Path (act storing) storingTarget.loaded l t ∧
    l.map Edge.action = keptSession ∧ t.proc = .stopped c ∧ c.mem 0x401003 = 0xcc ∧
    c.own 0x401006 ≠ storingTarget.image storing 0x401006 ∧ ∀ e ∈ l, Untouched e.after := by
  have hfollow : (follow (act storing) keptSession storingTarget.loaded).any
      (fun p => p.1.all (fun e => roomy e.before e.action && freshCheck storing e.before e.action) &&
        p.2.proc.check fun c => c.mem 0x401003 = 0xcc && c.own 0x401006 = 0) = true := by
    decide +kernel
  obtain ⟨l, t, h, hacts, hcheck⟩ := exists_path
    (fun (l : List (Edge (State Unit) Action)) t =>
      l.all (fun e => roomy e.before e.action && freshCheck storing e.before e.action) &&
        t.proc.check fun c => c.mem 0x401003 = 0xcc && c.own 0x401006 = 0) hfollow
  obtain ⟨hall, hstop⟩ := Bool.and_eq_true_iff.mp hcheck
  obtain ⟨c, hc, hmem⟩ := Proc.stopped_of_check hstop
  simp only [Bool.and_eq_true, decide_eq_true_eq] at hmem
  have hboth : ∀ e ∈ l, roomy e.before e.action = true ∧
      freshCheck storing e.before e.action = true := fun e he =>
    Bool.and_eq_true_iff.mp (List.all_eq_true.mp hall e he)
  have hsession : ∀ e ∈ l, Session e.action ∧ Near storing e.before e.action := fun e he =>
    ⟨forall_of_actions hacts (by decide) e he,
      near_of_cleanStep (cleanStep_of_roomy (hboth e he).1)⟩
  refine ⟨l, t, c, h, hacts, hc, hmem.1, ?_, (untouched_iff h hsession).mpr fun e he =>
    unstale_of_check (hboth e he).2⟩
  rw [hmem.2]
  decide

/-! ### A byte lost -/

/-- A `break` four bytes below the data, and a step to it. -/
def storeSession : List Action :=
  [.command .start {}, .command (.break_ "401002") {},
   .command .si { resume := { steps := 1 } }]

/-- Up to `n` instructions of the child store nothing at a breakpoint. -/
def storesOff (w : World ρ) (bps : List Breakpoint) : Nat → Child ρ → Bool
  | 0, _ => true
  | n + 1, c =>
    match w.exec c.mem c.regs c.rest, stepChild w c with
    | .next _ st _, .ran c' => (bps.all fun b => (st b.addr).isNone) && storesOff w bps n c'
    | _, _ => true

/-- While the step resumes it the child stores nothing at a breakpoint. -/
def offBreaks (w : World ρ) (s : State ρ) (a : Action) : Bool :=
  match a, s.proc with
  | .command .si e, .stopped c => storesOff w s.conf.bps (min e.resume.steps 1) c
  | .command .cont e, .stopped c => storesOff w s.conf.bps e.resume.steps c
  | _, _ => true

/-- The stop at the breakpoint puts the old byte back over the child's. -/
theorem untouched_lost : ∃ l t, Path (act storing) storingTarget.loaded l t ∧
    l.map Edge.action = storeSession ∧
    (∀ e ∈ l, Session e.action ∧ offBreaks storing e.before e.action = true) ∧ ¬ Untouched t := by
  have hfollow : (follow (act storing) storeSession storingTarget.loaded).any
      (fun p => (p.1.all fun e => offBreaks storing e.before e.action) &&
        decide (p.2.conf.bps.map Breakpoint.addr = [0x401002]) &&
        p.2.proc.check fun c => c.mem 0x401006 = 0xaa && c.own 0x401006 = 0) = true := by
    decide +kernel
  obtain ⟨l, t, h, hacts, hcheck⟩ := exists_path
    (fun (l : List (Edge (State Unit) Action)) (t : State Unit) =>
      (l.all fun e => offBreaks storing e.before e.action) &&
        decide (t.conf.bps.map Breakpoint.addr = [0x401002]) &&
        t.proc.check fun c => c.mem 0x401006 = 0xaa && c.own 0x401006 = 0) hfollow
  obtain ⟨hcheck, hstop⟩ := Bool.and_eq_true_iff.mp hcheck
  obtain ⟨hoff, hbps⟩ := Bool.and_eq_true_iff.mp hcheck
  obtain ⟨c, hc, hmem⟩ := Proc.stopped_of_check hstop
  simp only [Bool.and_eq_true, decide_eq_true_eq] at hmem
  refine ⟨l, t, h, hacts, fun e he => ⟨forall_of_actions hacts (by decide) e he,
    List.all_eq_true.mp hoff e he⟩, fun hu => ?_⟩
  have hclear : (0x401006 : Addr) ∉ addrs t.conf.bps := by
    rintro ⟨b, hb, hba⟩
    have hb' := List.mem_map_of_mem (f := Breakpoint.addr) hb
    rw [of_decide_eq_true hbps, hba] at hb'
    exact absurd hb' (by decide)
  have hsame := hu c hc hclear
  rw [hmem.1, hmem.2] at hsame
  exact absurd hsame (by decide)

end Apue.Sdb

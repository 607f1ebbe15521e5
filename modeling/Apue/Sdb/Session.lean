import Apue.Sdb.Stop

/-! Sessions of break, delete, si, cont and start.

`Effect` says once what such a command can do to the configuration and the child. From it
come the invariants every session keeps: `Sound` for the configuration, and, as long as
the saved words are right, `Intact` for the child: its memory is its own with traps at
some of the breakpoints. -/
namespace Apue.Sdb
open Memory CLib Transition

variable {ρ : Type}

/-- A loaded program: the range `break` accepts, and a text that covers every word the
debugger can write there. -/
structure Target where
  program : String
  entrypoint : Word
  textsize : Word
  text : Set Addr
  covers : ∀ a, ({ entrypoint, textsize } : Config).InRange a → window a ⊆ text

/-- The debugger with the program loaded. -/
def Target.loaded (p : Target) : State ρ := Sdb.loaded p.program p.entrypoint p.textsize

def Target.image (p : Target) (w : World ρ) : Mem := (w.load p.program).mem

/-- `si` and `cont`. -/
def resumes : Bool → Command
  | false => .si
  | true => .cont

/-- The breakpoint a wait puts back. -/
def Rearms (s : State ρ) (a : Addr) : Prop :=
  0 ≤ s.conf.lid ∧ ∃ p, s.pending = some p ∧ p.addr = a

/-- The breakpoint a stop at `rip` is at. -/
def HitAt (bps : List Breakpoint) (cont : Bool) (rip a : Addr) : Prop :=
  a ∈ addrs bps ∧ a = rip - (if cont then 1 else 0)

/-- The child stops, at `c`, when it is resumed. -/
def StopsAs (w : World ρ) (cont : Bool) (e : Env) (s : State ρ) (c : Child ρ) : Prop :=
  s.conf.status = .running ∧ resume w (!cont) e.resume s = .ok (.stopped c)

/-- Where a command puts traps in, or looks for them in what it saves. -/
def Arms (w : World ρ) (s : State ρ) : Command → Env → Set Addr
  | .break_ addr, _ => {a | a = strtoull addr ∧ Sets s a}
  | .delete id, _ => {a | ∃ did b, Deletes s id did ∧ s.conf.bps[did]? = some b ∧ b.addr = a}
  | .si, e => {a | (∃ c, StopsAs w false e s c) ∧ Rearms s a}
  | .cont, e => {a | (∃ c, StopsAs w true e s c) ∧ Rearms s a}
  | _, _ => ∅

/-- Where a command takes traps out. -/
def Restores (w : World ρ) (s : State ρ) : Command → Env → Set Addr
  | .si, e => {a | ∃ c, StopsAs w false e s c ∧ HitAt s.conf.bps false c.rip a}
  | .cont, e => {a | ∃ c, StopsAs w true e s c ∧ HitAt s.conf.bps true c.rip a}
  | _, _ => ∅

/-- Where a command finds nothing to do or no child that stops. -/
def Idle (w : World ρ) (e : Env) (s : State ρ) : Command → Prop
  | .start => ¬ (s.conf.status = .loaded ∧ e.spawn.result = .execd)
  | .break_ addr => ¬ Sets s (strtoull addr)
  | .delete id => ∀ did, ¬ Deletes s id did
  | .si => ∀ c, ¬ StopsAs w false e s c
  | .cont => ∀ c, ¬ StopsAs w true e s c
  | _ => True

theorem idle_resumes {w : World ρ} {e : Env} {s : State ρ} {cont : Bool} :
    Idle w e s (resumes cont) ↔ ∀ c, ¬ StopsAs w cont e s c := by
  cases cont <;> exact Iff.rfl

/-- What a command can do. -/
inductive Effect (w : World ρ) (e : Env) (s : State ρ) : Command → State ρ → Prop where
  | shows {cmd : Command} {t : State ρ} :
      Idle w e s cmd → t.conf = s.conf → t.proc = s.proc → Effect w e s cmd t
  | breaks {addr : String} {a : Addr} {c : Child ρ} {t : State ρ} :
      a = strtoull addr → s.proc = .stopped c → Sets s a → w.reaches a = true →
      t.conf = { s.conf with
        bps := s.conf.bps ++ [⟨a, alternate s.conf.bps (peek c.mem a) a false true⟩] } →
      t.proc = .stopped { c with mem := poke c.mem a (withLow (peek c.mem a) 0xcc) } →
      Effect w e s (.break_ addr) t
  | deletes {id : String} {did : Nat} {b : Breakpoint} {c : Child ρ} {t : State ρ} :
      Deletes s id did → s.conf.bps[did]? = some b → s.proc = .stopped c →
      t.conf = { s.conf with bps := s.conf.bps.eraseIdx did } →
      t.proc = .stopped { c with
        mem := poke c.mem b.addr (alternate s.conf.bps b.code b.addr true false) } →
      Effect w e s (.delete id) t
  | stops {cont : Bool} {c₀ c c' : Child ρ} {lid : Int} {t : State ρ} :
      s.proc = .stopped c₀ → StopsAs w cont e s c →
      Stops s.conf.bps cont { c with mem := rearmed s c.mem } lid c' →
      t.conf = { s.conf with lid := lid } → t.proc = .stopped c' → Effect w e s (resumes cont) t
  | ends {cmd : Command} {t : State ρ} : Idle w e s cmd →
      t.conf = { s.conf with child := t.conf.child, status := t.conf.status } → t.proc = .gone →
      Effect w e s cmd t
  | starts {c c' : Child ρ} {lid : Int} {t : State ρ} :
      s.conf.status = .loaded → e.spawn.result = .execd → c = w.spawned s.conf.program →
      Stops s.conf.bps false { c with mem := rearmed s c.mem } lid c' →
      t.conf = { s.conf with child := e.spawn.pid, lid := lid, status := .running } →
      t.proc = .stopped { c' with mem := setallMem (sortedByAddr s.conf.bps) c'.mem } →
      Effect w e s .start t

theorem Effect.of_shows {w : World ρ} {e : Env} {cmd : Command} {s t : State ρ}
    (h : Shows s t) (hidle : Idle w e s cmd) : Effect w e s cmd t := by
  obtain ⟨lines, rfl⟩ := h
  exact .shows hidle rfl rfl

/-- The wait of `si` and `cont`. -/
theorem effect_wait {w : World ρ} {e : Env} {cont : Bool} {wt : Wait ρ} {s : State ρ}
    {r : Reply ρ} (hs : s.conf.status = .running) (hlid : -1 ≤ s.conf.lid)
    (hwt : resume w (!cont) e.resume s = .ok wt) (h : waitstatus w cont wt s = .ok r) :
    Effect w e s (resumes cont) r.2 := by
  by_cases hstop : ∃ c, wt = .stopped c
  · obtain ⟨c, rfl⟩ := hstop
    obtain ⟨c₀, hc₀, -⟩ := resume_stopped hwt
    obtain ⟨lid, c', hstops, hconf, hproc, -⟩ := waitstatus_stops h hlid
    exact .stops hc₀ ⟨hs, hwt⟩ hstops hconf hproc
  · obtain ⟨hgone, hconf⟩ := waitstatus_gone (fun c hc => hstop ⟨c, hc⟩) h
    refine .ends (idle_resumes.mpr fun c hc => hstop ⟨c, ?_⟩) ?_ hgone
    · exact Except.ok.inj (hwt.symm.trans hc.2)
    · rw [hconf]

theorem effect_start {w : World ρ} {e : Env} {s : State ρ} {r : Reply ρ}
    (hlid : -1 ≤ s.conf.lid) (h : start w e.spawn s = .ok r) : Effect w e s .start r.2 := by
  rcases start_cases h with ⟨hno, hshows⟩ | ⟨hs, hfork, ret, t, out, u, hwait, hset, rfl⟩
  · exact .of_shows hshows fun hidle => hno hidle.1
  by_cases hexec : e.spawn.result = .execd
  · rw [hexec] at hwait
    obtain ⟨lid, c', hstops, hconf, hproc, -⟩ := waitstatus_stops hwait hlid
    have hbps : t.conf.bps = s.conf.bps := by rw [hconf]
    have hu := setallbreak_stopped hset hproc
    refine .starts hs hexec rfl hstops ?_ ?_
    · rw [hu]
      show { t.conf with status := .running } = _
      rw [hconf]
    · rw [hu]
      show Proc.stopped { c' with mem := setallMem (sortedByAddr t.conf.bps) c'.mem } = _
      rw [hbps]
  · have hstop : ∀ c, firstWait w s.conf.program e.spawn.result ≠ .stopped c := by
      intro c
      cases hres : e.spawn.result with
      | execd => exact absurd hres hexec
      | _ => nofun
    obtain ⟨hgone, hconf⟩ := waitstatus_gone hstop hwait
    have hnone : ∀ c, t.proc ≠ .stopped c := by
      rw [hgone]
      nofun
    rw [(setallbreak_absent hset hnone).2]
    refine .ends (fun hexecd => hexec hexecd.2) ?_ hgone
    show { t.conf with status := .running } = _
    rw [hconf]

/-- **What a command of a session can do.** -/
theorem effect_handle {w : World ρ} {e : Env} {cmd : Command} {s : State ρ} {r : Reply ρ}
    (hcmd : Debugging cmd) (hlid : -1 ≤ s.conf.lid) (h : handle w e cmd s = .ok r) :
    Effect w e s cmd r.2 := by
  cases hcmd with
  | start => exact effect_start hlid h
  | break_ addr =>
    rcases setbreak_cases h with ⟨hshows, hno⟩ | ⟨c, hc, hsets, hreach, rfl⟩
    · exact .of_shows hshows hno
    · exact .breaks rfl hc hsets hreach rfl rfl
  | delete id =>
    rcases deletebreak_cases h with ⟨hshows, hno⟩ | ⟨did, b, c, out, hdel, hb, hc, -, rfl⟩
    · exact .of_shows hshows hno
    · exact .deletes hdel hb hc rfl rfl
  | si =>
    rcases si_cases h with ⟨hno, hshows⟩ | ⟨hs, c, wt, -, hwt, h⟩
    · exact .of_shows hshows fun c hc => hno hc.1
    · exact effect_wait hs hlid hwt h
  | cont =>
    rcases cont_cases h with ⟨hno, hshows⟩ | ⟨hs, wt, hwt, h⟩
    · exact .of_shows hshows fun c hc => hno hc.1
    · exact effect_wait hs hlid hwt h

/-! ### The configuration -/

/-- What every session keeps of the configuration. -/
structure Sound (w : World ρ) (p : Target) (conf : Config) : Prop where
  program : conf.program = p.program
  entrypoint : conf.entrypoint = p.entrypoint
  textsize : conf.textsize = p.textsize
  lid : -1 ≤ conf.lid
  distinct : Distinct conf.bps
  reaches : ∀ b ∈ conf.bps, w.reaches b.addr = true
  text : ∀ b ∈ conf.bps, window b.addr ⊆ p.text

variable {w : World ρ} {p : Target} {e : Env} {s t : State ρ} {cmd : Command}

theorem sound_loaded (w : World ρ) (p : Target) : Sound w p (p.loaded : State ρ).conf where
  program := rfl
  entrypoint := rfl
  textsize := rfl
  lid := Int.le_refl _
  distinct := List.nodup_nil
  reaches := nofun
  text := nofun

/-- The whole window of a breakpoint is the user's. -/
theorem Sound.user (h : Sound w p s.conf) {b : Breakpoint} (hb : b ∈ s.conf.bps) :
    b.addr.toNat < 2 ^ 63 := by
  have hreach := List.all_eq_true.mp (h.reaches b hb) 0 (by decide)
  have hmapped : w.mapped b.addr = true := by simpa using hreach
  exact w.mapped_user b.addr hmapped

theorem Sound.covers (h : Sound w p s.conf) {a : Addr} (ha : s.conf.InRange a) :
    window a ⊆ p.text := by
  apply p.covers a
  show ¬ (a < p.entrypoint ∨ p.entrypoint + p.textsize - 1 < a)
  rw [← h.entrypoint, ← h.textsize]
  exact ha

theorem Stops.lid_ge {bps : List Breakpoint} {cont : Bool} {c c' : Child ρ} {lid : Int}
    (h : Stops bps cont c lid c') : -1 ≤ lid := by
  cases h with
  | elsewhere => omega
  | hit => omega

theorem Sound.breaks (h : Sound w p s.conf) {b : Breakpoint} (ha : s.conf.InRange b.addr)
    (hreach : w.reaches b.addr = true) (hnew : b.addr ∉ addrs s.conf.bps) :
    Sound w p { s.conf with bps := s.conf.bps ++ [b] } where
  program := h.program
  entrypoint := h.entrypoint
  textsize := h.textsize
  lid := h.lid
  distinct := h.distinct.append hnew
  reaches := by
    intro c hc
    rcases List.mem_append.mp hc with hc | hc
    · exact h.reaches c hc
    · rw [List.mem_singleton.mp hc]
      exact hreach
  text := by
    intro c hc
    rcases List.mem_append.mp hc with hc | hc
    · exact h.text c hc
    · rw [List.mem_singleton.mp hc]
      exact h.covers ha

theorem Sound.deletes (h : Sound w p s.conf) (did : Nat) :
    Sound w p { s.conf with bps := s.conf.bps.eraseIdx did } where
  program := h.program
  entrypoint := h.entrypoint
  textsize := h.textsize
  lid := h.lid
  distinct := h.distinct.eraseIdx did
  reaches := fun b hb => h.reaches b ((List.eraseIdx_sublist s.conf.bps did).subset hb)
  text := fun b hb => h.text b ((List.eraseIdx_sublist s.conf.bps did).subset hb)

/-- The status, the child's number and a fresh index do not matter. -/
theorem Sound.with_lid (h : Sound w p s.conf) (child : Nat) (status : Status) {lid : Int}
    (hlid : -1 ≤ lid) :
    Sound w p { s.conf with child := child, status := status, lid := lid } :=
  ⟨h.program, h.entrypoint, h.textsize, hlid, h.distinct, h.reaches, h.text⟩

theorem Sound.effect (h : Sound w p s.conf) (he : Effect w e s cmd t) : Sound w p t.conf := by
  cases he with
  | shows hidle hconf =>
    rw [hconf]
    exact h
  | breaks ha hc hsets hreach hconf =>
    rw [hconf]
    exact h.breaks hsets.inRange hreach hsets.fresh
  | deletes hdel hb hc hconf =>
    rw [hconf]
    exact h.deletes _
  | stops hc hstop hstops hconf =>
    rw [hconf]
    exact h.with_lid s.conf.child s.conf.status hstops.lid_ge
  | ends hcmd hconf =>
    rw [hconf]
    exact h.with_lid t.conf.child t.conf.status h.lid
  | starts hs hexec hc hstops hconf =>
    rw [hconf]
    exact h.with_lid _ _ hstops.lid_ge

theorem hitAt_of_hitIndex {bps : List Breakpoint} {cont : Bool} {rip : Addr} {rid : Nat}
    {b : Breakpoint} (h : hitIndex bps cont rip = some rid) (hb : bps[rid]? = some b) :
    HitAt bps cont rip b.addr := by
  obtain ⟨b', hb', hrip⟩ := hitIndex_some h
  obtain rfl : b = b' := Option.some.inj (hb.symm.trans hb')
  exact ⟨mem_addrs (List.mem_of_getElem? hb), hrip⟩

/-- The words of a stop are among those the command is answerable for. -/
theorem mem_arms {cont : Bool} {a : Addr} {c : Child ρ} (h : StopsAs w cont e s c)
    (ha : Rearms s a) : a ∈ Arms w s (resumes cont) e := by
  cases cont <;> exact ⟨⟨c, h⟩, ha⟩

theorem mem_restores {cont : Bool} {a : Addr} {c : Child ρ} (h : StopsAs w cont e s c)
    (ha : HitAt s.conf.bps cont c.rip a) : a ∈ Restores w s (resumes cont) e := by
  cases cont <;> exact ⟨c, h, ha⟩

/-- Apart from `break`, commands write at breakpoints only. -/
theorem arms_restores_sub {a : Addr} (hcmd : ∀ addr, cmd ≠ .break_ addr)
    (ha : a ∈ Arms w s cmd e ∪ Restores w s cmd e) : a ∈ addrs s.conf.bps := by
  have hrearm : Rearms s a → a ∈ addrs s.conf.bps :=
    fun ⟨_, p, hp, hpa⟩ => ⟨p, State.pending_mem hp, hpa⟩
  cases cmd with
  | break_ addr => exact absurd rfl (hcmd addr)
  | delete id =>
    obtain ⟨did, b, -, hb, hba⟩ := ha.resolve_right (Set.notMem_empty a)
    exact ⟨b, List.mem_of_getElem? hb, hba⟩
  | si | cont =>
    rcases ha with ⟨-, hr⟩ | ⟨c, -, hhit⟩
    · exact hrearm hr
    · exact hhit.1
  | _ => exact absurd (ha.elim id id) (Set.notMem_empty a)

/-! ### The new child -/

theorem rearmed_off {m : Mem} {x : Addr} (hx : ∀ b ∈ s.conf.bps, x ∉ window b.addr) :
    rearmed s m x = m x := by
  rcases rearmed_cases s with ⟨-, hmem, -⟩ | ⟨b, -, hb, hmem, -⟩
  · rw [hmem]
  · rw [hmem]
    exact poke_off (hx b (State.pending_mem hb))

theorem Stops.mem_off {bps : List Breakpoint} {cont : Bool} {c c' : Child ρ} {lid : Int}
    (h : Stops bps cont c lid c') {x : Addr} (hx : ∀ b ∈ bps, x ∉ window b.addr) :
    c'.mem x = c.mem x := by
  cases h with
  | elsewhere => rfl
  | hit hrid hb => exact poke_off (hx _ (List.mem_of_getElem? hb))

theorem Stops.own {bps : List Breakpoint} {cont : Bool} {c c' : Child ρ} {lid : Int}
    (h : Stops bps cont c lid c') : c'.own = c.own := by
  cases h <;> rfl

theorem Stops.rest {bps : List Breakpoint} {cont : Bool} {c c' : Child ρ} {lid : Int}
    (h : Stops bps cont c lid c') : c'.rest = c.rest := by
  cases h <;> rfl

/-- Words of the text that are right for the image are right for any memory that has it. -/
theorem Saved.of_text {m : Mem} (hs : Saved (p.image w) s.conf.bps) (h : Sound w p s.conf)
    (htext : ∀ x ∈ p.text, m x = p.image w x) : Saved m s.conf.bps := by
  intro b hb k hk
  rw [hs b hb k hk, htext _ (h.text b hb (mem_window b.addr hk))]

/-- A new child has a trap at every breakpoint. -/
theorem trapped_start (h : Sound w p s.conf) (hs : Saved (p.image w) s.conf.bps) {lid : Int}
    {c c' : Child ρ} (hc : c = w.spawned s.conf.program)
    (hstops : Stops s.conf.bps false { c with mem := rearmed s c.mem } lid c') :
    c'.own = p.image w ∧
      Trapped c'.own (addrs s.conf.bps) (setallMem (sortedByAddr s.conf.bps) c'.mem) := by
  have hown : c'.own = p.image w := by
    rw [hstops.own, hc, h.program]
    rfl
  refine ⟨hown, Trapped.setall h.distinct (hown ▸ hs) (fun b hb => h.user hb) fun x hx => ?_⟩
  rw [hstops.mem_off hx]
  show rearmed s c.mem x = c'.own x
  rw [rearmed_off hx, hown, hc, h.program]
  rfl

/-! ### Sessions -/

/-- The actions of a session. -/
def Session : Action → Prop
  | .command cmd _ => Debugging cmd
  | .killed => False

instance (a : Action) : Decidable (Session a) :=
  match a with
  | .command cmd _ => inferInstanceAs (Decidable (Debugging cmd))
  | .killed => isFalse id

theorem effect_act (hlid : -1 ≤ s.conf.lid) {a : Action} (ha : Session a)
    (h : act w a s = .ok t) : ∃ cmd e, a = .command cmd e ∧ Effect w e s cmd t := by
  cases a with
  | killed => exact absurd ha id
  | command cmd e =>
    obtain ⟨ret, hr⟩ := act_command h
    exact ⟨cmd, e, rfl, effect_handle ha hlid hr⟩

end Apue.Sdb

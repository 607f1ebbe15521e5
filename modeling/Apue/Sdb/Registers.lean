import Apue.Sdb.Fragment

/-! The commands on one register.

`get` and `set` share the map from names to indices and look names up differently: `get`
with `find`, `set` with `operator[]`, which adds the name it does not find, at index 0.
`registers_iff`: a session of such commands keeps to the registers it names exactly when
it sets none that the initial map does not have. -/
namespace Apue.Sdb
open Memory CLib Transition

variable {ρ : Type}

inductive RegCommand where
  | get (reg : String)
  | set (reg val : String)
  deriving DecidableEq, Repr

def RegCommand.command : RegCommand → Command
  | .get reg => .get reg
  | .set reg val => .set reg val

/-- A session of these commands goes from one reply to the next. -/
def replyTo (w : World ρ) (cmd : RegCommand) (r : Reply ρ) : Except Halt (Reply ρ) :=
  handle w {} cmd.command r.2

def regText (reg : String) (v : Word) : String :=
  reg ++ " = " ++ toString v.toNat ++ " (" ++ hexify v ++ ")"

/-- The child after the command: only `set` of a register changes one. -/
def RegCommand.apply (c : Child ρ) : RegCommand → Child ρ
  | .get _ => c
  | .set reg val =>
    match regOffset.lookup reg with
    | some i => { c with regs := c.regs.set i (strtoull val) }
    | none => c

/-- The name is one of the 27 of the initial map. -/
def Known (reg : String) : Prop := ∃ i, regOffset.lookup reg = some i

/-- What the command owes in `s`, where the child is to be `c`. -/
def RegCommand.Owes (c : Child ρ) (s : State ρ) (r : Reply ρ) (cmd : RegCommand) : Prop :=
  r.2.proc = .stopped (cmd.apply c) ∧
    match cmd with
    | .get reg =>
      match regOffset.lookup reg with
      | some i => r.1 = 0 ∧ r.2.out = s.out ++ [regText reg (c.regs i)]
      | none => r.1 < 0
    | .set reg _ =>
      match regOffset.lookup reg with
      | some _ => r.1 = 0
      | none => r.1 < 0

/-- Every command of the session does what it owes after the ones before it. -/
def Faithful : Child ρ → List (Edge (Reply ρ) RegCommand) → Prop
  | _, [] => True
  | c, e :: rest => e.action.Owes c e.before.2 e.after ∧ Faithful (e.action.apply c) rest

/-- The index `set` writes at. -/
def setIndex (map : List (String × Nat)) (reg : String) : Nat := (map.lookup reg).getD 0

/-- The kernel takes the value that the command sets. -/
def RegCommand.Stored (w : World ρ) : RegCommand → Prop
  | .get _ => True
  | .set reg val => w.takes (setIndex regOffset reg) (strtoull val) = true

/-- RUNNING with the child `c`, and the map as it was at first. -/
structure Prompt (s : State ρ) (c : Child ρ) : Prop where
  running : s.conf.status = .running
  child : s.proc = .stopped c
  map : s.regOffset = regOffset

section
variable {w : World ρ} {s t : State ρ} {c : Child ρ} {reg val : String} {i : Nat}

/-- `get` is a lookup and nothing else. -/
theorem getReg_prompt (h : Prompt s c) : getReg reg s = .ok
    (match regOffset.lookup reg with
      | some i => (0, s.say (regText reg (c.regs i)))
      | none => (errBadReg, s)) := by
  rw [getReg, checked_running (by decide) h.running, h.map]
  cases regOffset.lookup reg with
  | none => rfl
  | some i => simp only [peekuser, h.child, regText]

theorem setReg_known (h : Prompt s c) (hreg : regOffset.lookup reg = some i)
    (ht : w.takes i (strtoull val) = true) : setReg w reg val s =
    .ok (0, { s with proc := .stopped { c with regs := c.regs.set i (strtoull val) } }) := by
  rw [setReg, checked_running (by decide) h.running]
  simp only [h.map, hreg, pokeuser_stopped _ h.child ht]
  rfl

/-- A name that is not found is added, and the first word of the user area written. -/
theorem setReg_unknown (h : Prompt s c) (hreg : regOffset.lookup reg = none)
    (ht : w.takes 0 (strtoull val) = true) : setReg w reg val s =
    .ok (0, { s with
      regOffset := (reg, 0) :: s.regOffset
      proc := .stopped { c with regs := c.regs.set 0 (strtoull val) } }) := by
  rw [setReg, checked_running (by decide) h.running]
  simp only [h.map, hreg, pokeuser, h.child, ht, if_true]
  rfl

/-- The map stays as it was until `set` adds a name. -/
theorem reply_prompt {cmd : RegCommand} {r₀ : Reply ρ} (h : Prompt r₀.2 c) (hstored : cmd.Stored w)
    (hset : ∀ reg val, cmd = .set reg val → Known reg) :
    ∃ r, replyTo w cmd r₀ = .ok r ∧ cmd.Owes c r₀.2 r ∧ Prompt r.2 (cmd.apply c) := by
  cases cmd with
  | get reg =>
    refine ⟨_, getReg_prompt h, ?_⟩
    cases hreg : regOffset.lookup reg with
    | none => exact ⟨⟨h.child, by simp only [hreg]; decide⟩, h⟩
    | some i => exact ⟨⟨h.child, by simp [hreg, State.say]⟩, h.running, h.child, h.map⟩
  | set reg val =>
    obtain ⟨i, hreg⟩ := hset reg val rfl
    have hindex : setIndex regOffset reg = i := by rw [setIndex, hreg]; rfl
    refine ⟨_, setReg_known h hreg (hindex ▸ hstored), ?_⟩
    have happly : (RegCommand.set reg val).apply c =
        { c with regs := c.regs.set i (strtoull val) } := by
      simp only [RegCommand.apply, hreg]
    exact ⟨⟨happly ▸ rfl, by simp only [hreg]⟩, h.running, happly ▸ rfl, h.map⟩

/-- A `set` of another name changes the first register and reports success. -/
theorem reply_unknown {r₀ : Reply ρ} (h : Prompt r₀.2 c)
    (hstored : (RegCommand.set reg val).Stored w) (hreg : ¬ Known reg) :
    ∃ r, replyTo w (.set reg val) r₀ = .ok r ∧ ¬ (RegCommand.set reg val).Owes c r₀.2 r := by
  have hnone : regOffset.lookup reg = none := by
    by_contra hne
    exact hreg (Option.ne_none_iff_exists'.mp hne)
  have hindex : setIndex regOffset reg = 0 := by rw [setIndex, hnone]; rfl
  refine ⟨_, setReg_unknown h hnone (hindex ▸ hstored), fun ⟨_, hret⟩ => ?_⟩
  simp [hnone] at hret

/-! ### Sessions -/

/-- Whatever the map has become, a command on a live child returns to the prompt. -/
theorem reply_live {cmd : RegCommand} {r₀ : Reply ρ} (hs : r₀.2.conf.status = .running)
    (hc : r₀.2.proc = .stopped c) (hmap : setIndex r₀.2.regOffset = setIndex regOffset)
    (hstored : cmd.Stored w) : ∃ r, replyTo w cmd r₀ = .ok r ∧ r.2.conf.status = .running ∧
      (∃ c', r.2.proc = .stopped c') ∧ setIndex r.2.regOffset = setIndex regOffset := by
  cases cmd with
  | get reg =>
    show ∃ r, getReg reg r₀.2 = .ok r ∧ _
    rw [getReg, checked_running (by decide) hs]
    cases r₀.2.regOffset.lookup reg with
    | none => exact ⟨_, rfl, hs, ⟨c, hc⟩, hmap⟩
    | some i => exact ⟨_, rfl, hs, ⟨c, hc⟩, hmap⟩
  | set reg val =>
    show ∃ r, setReg w reg val r₀.2 = .ok r ∧ _
    rw [setReg, checked_running (by decide) hs]
    have htakes : w.takes (setIndex r₀.2.regOffset reg) (strtoull val) = true := hmap ▸ hstored
    cases hreg : r₀.2.regOffset.lookup reg with
    | none =>
      have hzero : w.takes 0 (strtoull val) = true := by
        rwa [setIndex, hreg] at htakes
      simp only [pokeuser, hc, hzero, if_true]
      refine ⟨_, rfl, hs, ⟨_, rfl⟩, ?_⟩
      -- a new name gets the index it had without being there
      rw [← hmap]
      funext reg'
      by_cases hsame : reg' = reg
      · simp [setIndex, hsame, hreg]
      · have hbeq : (reg' == reg) = false := beq_eq_false_iff_ne.mpr hsame
        simp [setIndex, List.lookup_cons, hbeq]
    | some i =>
      have hi : w.takes i (strtoull val) = true := by
        rwa [setIndex, hreg] at htakes
      simp only [pokeuser, hc, hi, if_true]
      exact ⟨_, rfl, hs, ⟨_, rfl⟩, hmap⟩

theorem session_returns (cmds : List RegCommand) {r₀ : Reply ρ} (hs : r₀.2.conf.status = .running)
    (hc : r₀.2.proc = .stopped c) (hmap : setIndex r₀.2.regOffset = setIndex regOffset)
    (hstored : ∀ cmd ∈ cmds, cmd.Stored w) :
    ∃ l r, Path (replyTo w) r₀ l r ∧ l.map Edge.action = cmds := by
  induction cmds generalizing r₀ c with
  | nil => exact ⟨[], r₀, .nil, rfl⟩
  | cons cmd rest ih =>
    obtain ⟨hcmd, hrest⟩ := List.forall_mem_cons.mp hstored
    obtain ⟨r, hr, hs', ⟨c', hc'⟩, hmap'⟩ := reply_live hs hc hmap hcmd
    obtain ⟨l, r', hpath, hacts⟩ := ih hs' hc' hmap' hrest
    exact ⟨_, r', .cons hr hpath, congrArg (cmd :: ·) hacts⟩

theorem faithful_iff {l : List (Edge (Reply ρ) RegCommand)} {r₀ r : Reply ρ}
    (hpath : Path (replyTo w) r₀ l r) (h : Prompt r₀.2 c) (hstored : ∀ e ∈ l, e.action.Stored w) :
    Faithful c l ↔ ∀ e ∈ l, ∀ reg val, e.action = .set reg val → Known reg := by
  induction hpath generalizing c with
  | nil => simp [Faithful]
  | @cons r₀ r₁ r₂ cmd l hstep _ ih =>
    obtain ⟨hcmd, hrest⟩ := List.forall_mem_cons.mp hstored
    rw [Faithful, List.forall_mem_cons]
    by_cases hset : ∀ reg val, cmd = .set reg val → Known reg
    case pos =>
      obtain ⟨r, hr, howes, hprompt⟩ := reply_prompt (w := w) h hcmd hset
      obtain rfl : r = r₁ := Except.ok.inj (hr.symm.trans hstep)
      exact and_congr (iff_of_true howes hset) (ih hprompt hrest)
    case neg =>
      refine iff_of_false (fun hfaithful => hset ?_) fun hall => hset hall.1
      rintro reg val rfl
      by_contra hreg
      obtain ⟨r, hr, howes⟩ := reply_unknown (w := w) h hcmd hreg
      exact howes (Except.ok.inj (hr.symm.trans hstep) ▸ hfaithful.1)

/-- **A session of `set` and `get` touches only the registers it names, and reads what it
last set, exactly when every name it sets is one of the 27**, where the kernel takes what
it sets. -/
theorem registers_iff (w : World ρ) {s : State ρ} {c : Child ρ} (h : Prompt s c)
    (cmds : List RegCommand) (hstored : ∀ cmd ∈ cmds, cmd.Stored w) :
    ∃ l r, Path (replyTo w) (0, s) l r ∧ l.map Edge.action = cmds ∧
      (Faithful c l ↔ ∀ reg val, .set reg val ∈ cmds → Known reg) := by
  have hstart : ∃ l r, Path (replyTo w) (0, s) l r ∧ l.map Edge.action = cmds :=
    session_returns cmds h.running h.child (by rw [h.map]) hstored
  obtain ⟨l, r, hpath, hacts⟩ := hstart
  have hstored' : ∀ e ∈ l, e.action.Stored w :=
    fun e he => hstored e.action (hacts ▸ List.mem_map_of_mem he)
  refine ⟨l, r, hpath, hacts, (faithful_iff hpath h hstored').trans ?_⟩
  rw [← hacts]
  simp only [List.mem_map]
  constructor
  · rintro hall reg val ⟨e, he, hact⟩
    exact hall e he reg val hact
  · intro hall e he reg val hact
    exact hall reg val ⟨e, he, hact⟩

end

instance (reg : String) : Decidable (Known reg) :=
  decidable_of_iff ((regOffset.lookup reg).isSome = true) Option.isSome_iff_exists

/-- The walk at its entry. -/
def atEntry : State Unit :=
  { conf := { program := "walk", status := .running }, proc := .stopped (walk.spawned "walk") }

theorem prompt_atEntry : Prompt atEntry (walk.spawned "walk") := ⟨rfl, rfl, rfl⟩

/-- `rax` set twice and read, and a name nobody has set. -/
def raxSession : List RegCommand := [.set "rax" "2a", .get "rax", .set "rax" "-1", .get "eax"]

theorem registers_rax : ∃ l r, Path (replyTo walk) (0, atEntry) l r ∧
    l.map Edge.action = raxSession ∧ Faithful (walk.spawned "walk") l := by
  have hstored : ∀ cmd ∈ raxSession, cmd.Stored walk := by simp [raxSession, RegCommand.Stored]; decide
  obtain ⟨l, r, hpath, hacts, hiff⟩ := registers_iff walk prompt_atEntry raxSession hstored
  refine ⟨l, r, hpath, hacts, hiff.mpr fun reg val hmem => ?_⟩
  simp only [raxSession, List.mem_cons, RegCommand.set.injEq, reduceCtorEq, List.not_mem_nil,
    or_false, false_or] at hmem
  rcases hmem with ⟨rfl, -⟩ | ⟨rfl, -⟩ <;> decide

/-- `set foo 5` stores into `r15`, and `foo` can be read from then on. -/
theorem registers_foo : ∃ l r, Path (replyTo walk) (0, atEntry) l r ∧
    l.map Edge.action = [.set "foo" "5", .get "foo"] ∧ ¬ Faithful (walk.spawned "walk") l ∧
    r.1 = 0 ∧ r.2.out = ["foo = 5 (0x5)"] ∧ r.2.proc.check (fun c => c.regs 0 = 5) = true := by
  let check := fun (_ : List (Edge (Reply Unit) RegCommand)) (r : Reply Unit) =>
    decide (r.1 = 0) && (decide (r.2.out = ["foo = 5 (0x5)"]) &&
      r.2.proc.check fun c => c.regs 0 = 5)
  have hfollow : (follow (replyTo walk) [.set "foo" "5", .get "foo"] (0, atEntry)).any
      (fun p => check p.1 p.2) = true := by decide +kernel
  obtain ⟨l, r, hpath, hacts, hcheck⟩ := exists_path check hfollow
  simp only [check, Bool.and_eq_true, decide_eq_true_eq] at hcheck
  refine ⟨l, r, hpath, hacts, fun hfaithful => ?_, hcheck⟩
  have hstored : ∀ cmd ∈ [RegCommand.set "foo" "5", .get "foo"], cmd.Stored walk := by
    simp [RegCommand.Stored]; decide
  have hknown := (faithful_iff hpath prompt_atEntry fun e he =>
    hstored e.action (hacts ▸ List.mem_map_of_mem he)).mp hfaithful
  obtain ⟨e, he, hset⟩ : ∃ e ∈ l, e.action = .set "foo" "5" :=
    List.mem_map.mp (hacts ▸ List.mem_cons_self)
  exact absurd (hknown e he "foo" "5" hset) (by decide)

end Apue.Sdb

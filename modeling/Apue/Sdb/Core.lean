import Apue.Sdb.Show

/-! The command loop's dispatch, and what a session is made of.

`middleware` takes the words of one line. Between two prompts a session takes one
action: a command in some environment, or the death of the child at the prompt. -/
namespace Apue.Sdb
open Memory CLib Transition

variable {ρ : Type}

inductive Command where
  | empty
  | break_ (addr : String)
  | cont
  | delete (breakpointId : String)
  | disasm (addr : String)
  | dump (addr : String)
  | exit
  | get (reg : String)
  | getregs
  | help
  | list
  | load (program : String)
  | run
  | vmmap
  | set (reg val : String)
  | si
  | start
  | notgiven (arg : String)
  | lackarg
  | undefined (command : String)
  deriving DecidableEq, Repr

/-- A command with one argument. -/
def withArg (args : List String) (missing : String) (k : String → Command) : Command :=
  match args with
  | [] => .notgiven missing
  | a :: _ => k a

def Command.ofWords : List String → Command
  | [] => .empty
  | c :: args =>
    if c = "break" ∨ c = "b" then withArg args "address" .break_
    else if c = "cont" ∨ c = "c" then .cont
    else if c = "delete" then withArg args "break-point-id" .delete
    else if c = "disasm" ∨ c = "d" then withArg args "address" .disasm
    else if c = "dump" ∨ c = "x" then withArg args "address" .dump
    else if c = "exit" ∨ c = "q" then .exit
    else if c = "get" ∨ c = "g" then withArg args "register" .get
    else if c = "getregs" then .getregs
    else if c = "help" ∨ c = "h" then .help
    else if c = "list" ∨ c = "l" then .list
    else if c = "load" then withArg args "program path" .load
    else if c = "run" ∨ c = "r" then .run
    else if c = "vmmap" ∨ c = "m" then .vmmap
    else if c = "set" ∨ c = "s" then
      match args with
      | r :: v :: _ => .set r v
      | _ => .lackarg
    else if c = "si" then .si
    else if c = "start" then .start
    else .undefined c

def handle (w : World ρ) (e : Env) : Command → State ρ → Except Halt (Reply ρ)
  | .empty, s => .ok (0, s)
  | .break_ addr, s => setbreak w addr s
  | .cont, s => cont w e.resume s
  | .delete id, s => deletebreak w id s
  | .disasm addr, s => disasm w addr s
  | .dump addr, s => dump w addr s
  | .exit, _ => .error .quit
  | .get reg, s => getReg reg s
  | .getregs, s => getregs s
  | .help, s => .ok (help s)
  | .list, s => .ok (list s)
  | .load program, s => load w program s
  | .run, s => run w e s
  | .vmmap, s => vmmap w s
  | .set reg val, s => setReg w reg val s
  | .si, s => si w e.resume s
  | .start, s => start w e.spawn s
  | .notgiven arg, s => .ok (errLackArg, s.debug ("no " ++ arg ++ " is given"))
  | .lackarg, s => .ok (errLackArg, s.debug "Not enough input arguments")
  | .undefined c, s =>
    .ok (errUndefined, s.debug ("Undefined command: \"" ++ c ++ "\".  Try \"help\"."))

def middleware (w : World ρ) (e : Env) (words : List String) (s : State ρ) :
    Except Halt (Reply ρ) :=
  handle w e (Command.ofWords words) s

/-! ### Sessions -/

inductive Action where
  | command (c : Command) (e : Env)
  | killed
  deriving DecidableEq, Repr

/-- The child is killed while the debugger is at its prompt. -/
def State.kill (s : State ρ) : State ρ :=
  match s.proc with
  | .stopped _ => { s with proc := .zombie }
  | _ => s

def act (w : World ρ) : Action → State ρ → Except Halt (State ρ)
  | .command c e, s => do
    let (_, s) ← handle w e c s
    .ok s
  | .killed, s => .ok s.kill

/-- The commands of a debugging session. -/
inductive Debugging : Command → Prop where
  | start : Debugging .start
  | break_ (addr : String) : Debugging (.break_ addr)
  | delete (id : String) : Debugging (.delete id)
  | si : Debugging .si
  | cont : Debugging .cont

instance (c : Command) : Decidable (Debugging c) :=
  match c with
  | .start => isTrue .start
  | .break_ addr => isTrue (.break_ addr)
  | .delete id => isTrue (.delete id)
  | .si => isTrue .si
  | .cont => isTrue .cont
  | .empty | .disasm _ | .dump _ | .exit | .get _ | .getregs | .help | .list | .load _ | .run
  | .vmmap | .set _ _ | .notgiven _ | .lackarg | .undefined _ => isFalse nofun

/-- The debugger with a program loaded, as `load` leaves it. -/
def loaded (program : String) (entrypoint textsize : Word) : State ρ :=
  { conf := { program, entrypoint, textsize, status := .loaded } }

theorem act_command {w : World ρ} {c : Command} {e : Env} {s s' : State ρ}
    (h : act w (.command c e) s = .ok s') : ∃ ret, handle w e c s = .ok (ret, s') := by
  obtain ⟨⟨ret, t⟩, ht, hs⟩ := bind_ok.mp h
  exact ⟨ret, by rw [ht, Except.ok.inj hs]⟩

/-! ### What the handlers do, case by case -/

theorem checked_cases {command : String} {s : State ρ} {k : Except Halt (Reply ρ)} {r : Reply ρ}
    (h : checked command s k = .ok r) :
    (checks command s = true ∧ k = .ok r) ∨ (checks command s = false ∧ Shows s r.2) := by
  unfold checked at h
  split at h
  case isTrue hc => exact .inl ⟨hc, h⟩
  case isFalse hc =>
    refine .inr ⟨by simpa using hc, ?_⟩
    rw [← Except.ok.inj h]
    exact (Shows.refl s).say _

theorem resetbreak_cases {w : World ρ} {s s' : State ρ} (h : resetbreak w s = .ok s') :
    (s.conf.lid < 0 ∧ s' = s) ∨
    ∃ bp c, 0 ≤ s.conf.lid ∧ s.pending = some bp ∧ s.proc = .stopped c ∧ w.reaches bp.addr = true ∧
      s' = { s with
        conf := { s.conf with lid := -1 }
        proc := .stopped { c with
          mem := poke c.mem bp.addr (alternate s.conf.bps bp.code bp.addr true true) }
        taken := none } := by
  unfold resetbreak at h
  split at h
  case isTrue hneg => exact .inl ⟨hneg, (Except.ok.inj h).symm⟩
  case isFalse hneg =>
    split at h
    case h_1 => cases h
    case h_2 bp hbp =>
      obtain ⟨t, ht, hs⟩ := bind_ok.mp h
      obtain ⟨c, hc, hr, rfl⟩ := poketext_ok ht
      exact .inr ⟨bp, c, by omega, hbp, hc, hr, (Except.ok.inj hs).symm⟩

/-- The index `hitIndex` finds is that of a breakpoint at the address. -/
theorem hitIndex_some {bps : List Breakpoint} {cont : Bool} {rip : Addr} {rid : Nat}
    (h : hitIndex bps cont rip = some rid) :
    ∃ bp, bps[rid]? = some bp ∧ bp.addr = rip - (if cont then 1 else 0) := by
  obtain ⟨hlt, hp, -⟩ := List.findIdx?_eq_some_iff_getElem.mp h
  exact ⟨bps[rid], List.getElem?_eq_getElem hlt, by simpa using hp⟩

theorem hitIndex_none {bps : List Breakpoint} {cont : Bool} {rip : Addr}
    (h : hitIndex bps cont rip = none) {bp : Breakpoint} (hb : bp ∈ bps) :
    bp.addr ≠ rip - (if cont then 1 else 0) := by
  have := List.findIdx?_eq_none_iff.mp h bp hb
  simpa using this

theorem restoreifbreak_cases {w : World ρ} {cont : Bool} {s s' : State ρ} {c : Child ρ}
    (hc : s.proc = .stopped c) (h : restoreifbreak w cont s = .ok s') :
    (hitIndex s.conf.bps cont c.rip = none ∧ s' = s) ∨
    ∃ rid bp out, hitIndex s.conf.bps cont c.rip = some rid ∧ s.conf.bps[rid]? = some bp ∧
      w.reaches bp.addr = true ∧
      s' = { s with
        conf := { s.conf with lid := rid }
        proc := .stopped { c with
          regs := c.regs.set ripIndex bp.addr
          mem := poke c.mem bp.addr (alternate s.conf.bps bp.code bp.addr false false) }
        out := out
        taken := some bp } := by
  have hrip : peekuser s ripIndex = c.rip := by simp only [peekuser, hc]; rfl
  unfold restoreifbreak at h
  simp only [hrip] at h
  split at h
  case h_1 hnone => exact .inl ⟨hnone, (Except.ok.inj h).symm⟩
  case h_2 rid hrid =>
    split at h
    case h_1 => cases h
    case h_2 bp hbp =>
      obtain ⟨t, ht, h⟩ := bind_ok.mp h
      obtain ⟨c', hc', rfl⟩ := pokeuser_ok ht
      obtain ⟨u, hu, h⟩ := bind_ok.mp h
      obtain ⟨c'', hc'', hr, rfl⟩ := poketext_ok hu
      rw [hc] at hc'
      cases hc'
      cases hc''
      exact .inr ⟨rid, bp, _, hrid, hbp, hr, (Except.ok.inj h).symm⟩

/-- A stop: the pending breakpoint is put back, then the one the child is at is taken
out. -/
theorem waitstatus_stopped {w : World ρ} {cont : Bool} {c : Child ρ} {s : State ρ} {r : Reply ρ}
    (h : waitstatus w cont (.stopped c) s = .ok r) :
    r.1 = 0 ∧ ∃ out t, resetbreak w { s with proc := .stopped c, out := out } = .ok t ∧
      restoreifbreak w cont t = .ok r.2 := by
  obtain ⟨t, ht, h⟩ := bind_ok.mp h
  obtain ⟨u, hu, h⟩ := bind_ok.mp h
  rw [← Except.ok.inj h]
  exact ⟨rfl, _, t, ht, hu⟩

/-- Any other report leaves no child, and changes at most the status. -/
theorem waitstatus_gone {w : World ρ} {cont : Bool} {wt : Wait ρ} {s : State ρ} {r : Reply ρ}
    (hwt : ∀ c, wt ≠ .stopped c) (h : waitstatus w cont wt s = .ok r) :
    r.2.proc = .gone ∧ r.2.conf = { s.conf with status := r.2.conf.status } := by
  cases wt with
  | stopped c => exact absurd rfl (hwt c)
  | exited code =>
    rw [← Except.ok.inj h]
    exact ⟨rfl, rfl⟩
  | signaled =>
    rw [← Except.ok.inj h]
    exact ⟨rfl, rfl⟩

theorem checks_iff {command : String} {s : State ρ} {want : Status}
    (hw : statusMap.lookup command = some want) : checks command s = true ↔ s.conf.status = want := by
  simp only [checks, hw, decide_eq_true_eq, Option.some.injEq]
  exact eq_comm

/-- `checked_cases` for a command whose required status is known. -/
theorem checked_status {command : String} {s : State ρ} {k : Except Halt (Reply ρ)} {r : Reply ρ}
    {want : Status} (hw : statusMap.lookup command = some want) (h : checked command s k = .ok r) :
    (s.conf.status = want ∧ k = .ok r) ∨ (s.conf.status ≠ want ∧ Shows s r.2) := by
  have hiff : checks command s = true ↔ s.conf.status = want := checks_iff hw
  rcases checked_cases h with ⟨hs, h⟩ | ⟨hs, h⟩
  · exact .inl ⟨hiff.mp hs, h⟩
  · refine .inr ⟨fun hwant => ?_, h⟩
    rw [hiff.mpr hwant] at hs
    cases hs

/-- A command that asks for RUNNING is let through there. -/
theorem checked_running {command : String} {s : State ρ} {k : Except Halt (Reply ρ)}
    (hw : statusMap.lookup command = some .running) (hs : s.conf.status = .running) :
    checked command s k = k :=
  if_pos ((checks_iff hw).mpr hs)

theorem running_break : statusMap.lookup "break" = some .running := by decide
theorem running_delete : statusMap.lookup "delete" = some .running := by decide
theorem running_cont : statusMap.lookup "cont" = some .running := by decide
theorem running_si : statusMap.lookup "si" = some .running := by decide
theorem loaded_start : statusMap.lookup "start" = some .loaded := by decide
theorem notLoaded_load : statusMap.lookup "load" = some .notLoaded := by decide

/-- `break` sets a breakpoint at `a`. -/
structure Sets (s : State ρ) (a : Addr) : Prop where
  running : s.conf.status = .running
  inRange : s.conf.InRange a
  fresh : a ∉ addrs s.conf.bps

theorem setbreak_cases {w : World ρ} {addr : String} {s : State ρ} {r : Reply ρ}
    (h : setbreak w addr s = .ok r) :
    (Shows s r.2 ∧ ¬ Sets s (strtoull addr)) ∨
    ∃ c, s.proc = .stopped c ∧ Sets s (strtoull addr) ∧ w.reaches (strtoull addr) = true ∧
      r = (0, { s with
        conf := { s.conf with
          bps := s.conf.bps ++ [⟨strtoull addr,
            alternate s.conf.bps (peek c.mem (strtoull addr)) (strtoull addr) false true⟩] }
        proc := .stopped { c with
          mem := poke c.mem (strtoull addr) (withLow (peek c.mem (strtoull addr)) 0xcc) } }) := by
  rcases checked_status running_break h with ⟨hrun, h⟩ | ⟨hno, h⟩
  case inr => exact .inl ⟨h, fun hsets => hno hsets.running⟩
  simp only at h
  split at h
  case isTrue hrange =>
    rw [← Except.ok.inj h]
    exact .inl ⟨(Shows.refl s).say _, fun hsets => hrange hsets.inRange⟩
  case isFalse hrange =>
    split at h
    case isTrue hexists =>
      obtain ⟨b, hb, hba⟩ := List.any_eq_true.mp hexists
      rw [← Except.ok.inj h]
      exact .inl ⟨reportExisting_shows _ s,
        fun hsets => hsets.fresh ⟨b, hb, of_decide_eq_true hba⟩⟩
    case isFalse hnew =>
      obtain ⟨t, ht, h⟩ := bind_ok.mp h
      obtain ⟨c, hc, hr, rfl⟩ := poketext_ok ht
      rw [peektext_stopped hc hr] at h
      refine .inr ⟨c, hc, ⟨hrun, by simpa using hrange, ?_⟩, hr, (Except.ok.inj h).symm⟩
      rintro ⟨b, hb, hba⟩
      exact hnew (List.any_eq_true.mpr ⟨b, hb, by simpa using hba⟩)

/-- The argument of `delete` denotes the breakpoint at index `did`. -/
def Deletes (s : State ρ) (id : String) (did : Nat) : Prop :=
  s.conf.status = .running ∧ stoi id = .ok did ∧ did < s.conf.bps.length

theorem deletebreak_cases {w : World ρ} {id : String} {s : State ρ} {r : Reply ρ}
    (h : deletebreak w id s = .ok r) :
    (Shows s r.2 ∧ ∀ did, ¬ Deletes s id did) ∨
    ∃ (did : Nat) (bp : Breakpoint) (c : Child ρ) (out : List String),
      Deletes s id did ∧ s.conf.bps[did]? = some bp ∧ s.proc = .stopped c ∧
      w.reaches bp.addr = true ∧
      r = (0, { s with
        conf := { s.conf with bps := s.conf.bps.eraseIdx did }
        proc := .stopped { c with
          mem := poke c.mem bp.addr (alternate s.conf.bps bp.code bp.addr true false) }
        out := out }) := by
  rcases checked_status running_delete h with ⟨hrun, h⟩ | ⟨hs, h⟩
  case inr => exact .inl ⟨h, fun did hdid => hs hdid.1⟩
  split at h
  case h_1 => cases h
  case h_2 did hdid =>
    split at h
    case isTrue hlarge =>
      rw [← Except.ok.inj h]
      refine .inl ⟨(Shows.refl s).say _, fun n hn => ?_⟩
      have hn' : did = n := Except.ok.inj (hdid.symm.trans hn.2.1)
      have := hn.2.2
      unfold tooLarge at hlarge
      omega
    case isFalse hsmall =>
      have hnat : (did.toNat : Int) = did := by
        have : ¬ did < 0 := fun hneg => hsmall (.inl hneg)
        omega
      split at h
      case h_1 => cases h
      case h_2 bp hbp =>
        obtain ⟨t, ht, h⟩ := bind_ok.mp h
        obtain ⟨c, hc, hr, rfl⟩ := poketext_ok ht
        exact .inr ⟨did.toNat, bp, c, _,
          ⟨hrun, by rw [hdid, hnat], (List.getElem?_eq_some_iff.mp hbp).1⟩, hbp, hc, hr,
          (Except.ok.inj h).symm⟩

theorem cont_cases {w : World ρ} {res : Resume} {s : State ρ} {r : Reply ρ}
    (h : cont w res s = .ok r) :
    (s.conf.status ≠ .running ∧ Shows s r.2) ∨ (s.conf.status = .running ∧
      ∃ wt, resume w false res s = .ok wt ∧ waitstatus w true wt s = .ok r) := by
  rcases checked_status running_cont h with ⟨hrun, h⟩ | hno
  case inr => exact .inl hno
  obtain ⟨wt, hwt, h⟩ := bind_ok.mp h
  refine .inr ⟨hrun, wt, hwt, ?_⟩
  rw [← h, ← hrun]

theorem si_cases {w : World ρ} {res : Resume} {s : State ρ} {r : Reply ρ}
    (h : si w res s = .ok r) :
    (s.conf.status ≠ .running ∧ Shows s r.2) ∨ (s.conf.status = .running ∧
      ∃ c wt, s.proc = .stopped c ∧ resume w true res s = .ok wt ∧
        waitstatus w false wt s = .ok r) := by
  rcases checked_status running_si h with ⟨hrun, h⟩ | hno
  case inr => exact .inl hno
  split at h
  case h_1 c hc =>
    obtain ⟨wt, hwt, h⟩ := bind_ok.mp h
    exact .inr ⟨hrun, c, wt, hc, hwt, h⟩
  case h_2 => cases h

theorem start_cases {w : World ρ} {e : Spawn} {s : State ρ} {r : Reply ρ}
    (h : start w e s = .ok r) :
    (s.conf.status ≠ .loaded ∧ Shows s r.2) ∨ (s.conf.status = .loaded ∧ e.result ≠ .forkFailed ∧
      ∃ ret t out u, waitstatus w false (firstWait w s.conf.program e.result)
          { s with conf := { s.conf with child := e.pid } } = .ok (ret, t) ∧
        setallbreak w { t with out := out } = .ok u ∧
        r = (ret, { u with conf := { u.conf with status := .running } })) := by
  rcases checked_status loaded_start h with ⟨hloaded, h⟩ | hno
  case inr => exact .inl hno
  split at h
  case isTrue => cases h
  case isFalse hfork =>
    obtain ⟨⟨ret, t⟩, ht, h⟩ := bind_ok.mp h
    obtain ⟨u, hu, h⟩ := bind_ok.mp h
    exact .inr ⟨hloaded, hfork, ret, t, _, u, ht, hu, (Except.ok.inj h).symm⟩

/-- The memory after `setallbreak`: one overlapping word for each breakpoint, in
ascending order. -/
def setallMem (bps : List Breakpoint) (m : Mem) : Mem :=
  bps.foldl (fun m b => poke m b.addr (withLow b.code 0xcc)) m

theorem foldlM_poketext {w : World ρ} (bps : List Breakpoint) {s s' : State ρ} {c : Child ρ}
    (hc : s.proc = .stopped c)
    (h : bps.foldlM (fun s b => poketext w s b.addr (withLow b.code 0xcc)) s = .ok s') :
    s' = { s with proc := .stopped { c with mem := setallMem bps c.mem } } := by
  induction bps generalizing s c with
  | nil =>
    rw [← Except.ok.inj h, setallMem, List.foldl_nil]
    cases s
    simp_all
  | cons b rest ih =>
    rw [List.foldlM_cons] at h
    obtain ⟨t, ht, h⟩ := bind_ok.mp h
    obtain ⟨c', hc', -, rfl⟩ := poketext_ok ht
    rw [hc] at hc'
    cases hc'
    rw [ih rfl h]
    rfl

theorem setallbreak_stopped {w : World ρ} {s s' : State ρ} {c : Child ρ}
    (h : setallbreak w s = .ok s') (hc : s.proc = .stopped c) :
    s' = { s with proc := .stopped { c with mem := setallMem (sortedByAddr s.conf.bps) c.mem } } :=
  foldlM_poketext _ hc h

/-- Without a stopped child `setallbreak` returns only if it has nothing to do. -/
theorem setallbreak_absent {w : World ρ} {s s' : State ρ} (h : setallbreak w s = .ok s')
    (hc : ∀ c, s.proc ≠ .stopped c) : s.conf.bps = [] ∧ s' = s := by
  unfold setallbreak at h
  cases hb : sortedByAddr s.conf.bps with
  | nil =>
    rw [hb] at h
    have hperm := List.perm_insertionSort (fun b c : Breakpoint => b.addr ≤ c.addr) s.conf.bps
    rw [show List.insertionSort _ _ = _ from hb] at hperm
    exact ⟨hperm.nil_eq.symm, (Except.ok.inj h).symm⟩
  | cons b rest =>
    rw [hb, List.foldlM_cons] at h
    obtain ⟨t, ht, -⟩ := bind_ok.mp h
    obtain ⟨c, hc', -⟩ := poketext_ok ht
    exact absurd hc' (hc c)

/-- `setallbreak` writes into the child only. -/
theorem setallbreak_same {w : World ρ} {s s' : State ρ} (h : setallbreak w s = .ok s') :
    ∃ proc, s' = { s with proc := proc } := by
  by_cases hc : ∃ c, s.proc = .stopped c
  · obtain ⟨c, hc⟩ := hc
    exact ⟨_, setallbreak_stopped h hc⟩
  · exact ⟨s.proc, (setallbreak_absent h fun c hc' => hc ⟨c, hc'⟩).2⟩

theorem load_cases {w : World ρ} {program : String} {s : State ρ} {r : Reply ρ}
    (h : load w program s = .ok r) :
    Shows s r.2 ∨ (s.conf.status = .notLoaded ∧ ∃ out,
      (r.2 = { s with conf := { s.conf with program := "" }, out := out } ∨
        (w.file program).isSome ∧ ∃ entrypoint textsize,
          r.2 = { s with
            conf := { s.conf with program, entrypoint, textsize, status := .loaded }
            out := out })) := by
  rcases checked_status notLoaded_load h with ⟨hnot, h⟩ | ⟨-, h⟩
  case inr => exact .inl h
  refine .inr ⟨hnot, ?_⟩
  obtain ⟨⟨ret, t⟩, ht, h⟩ := bind_ok.mp h
  unfold elfinfo at ht
  split at ht
  case h_1 =>
    cases ht
    rw [← Except.ok.inj h]
    exact ⟨_, .inl rfl⟩
  case h_2 bytes hbytes =>
    split at ht
    case isTrue => cases ht
    case isFalse =>
      obtain ⟨found, -, ht⟩ := bind_ok.mp ht
      split at ht
      all_goals
        cases ht
        rw [← Except.ok.inj h]
        exact ⟨_, .inr ⟨Option.isSome_of_eq_some hbytes, _, _, rfl⟩⟩

theorem setReg_cases {w : World ρ} {reg val : String} {s : State ρ} {r : Reply ρ}
    (h : setReg w reg val s = .ok r) :
    Shows s r.2 ∨ ∃ c i map, s.proc = .stopped c ∧
      (s.regOffset.lookup reg = some i ∧ map = s.regOffset ∨
        s.regOffset.lookup reg = none ∧ i = 0 ∧ map = (reg, 0) :: s.regOffset) ∧
      r.2 = { s with
        regOffset := map
        proc := .stopped { c with regs := c.regs.set i (strtoull val) } } := by
  rcases checked_cases h with ⟨-, h⟩ | ⟨-, h⟩
  case inr => exact .inl h
  simp only at h
  split at h
  case h_1 i hi =>
    obtain ⟨t, ht, h⟩ := bind_ok.mp h
    obtain ⟨c, hc, rfl⟩ := pokeuser_ok ht
    rw [← Except.ok.inj h]
    exact .inr ⟨c, i, _, hc, .inl ⟨hi, rfl⟩, rfl⟩
  case h_2 hnone =>
    obtain ⟨t, ht, h⟩ := bind_ok.mp h
    obtain ⟨c, hc, rfl⟩ := pokeuser_ok ht
    rw [← Except.ok.inj h]
    exact .inr ⟨c, 0, _, hc, .inr ⟨hnone, rfl, rfl⟩, rfl⟩

theorem run_cases {w : World ρ} {e : Env} {s : State ρ} {r : Reply ρ} (h : run w e s = .ok r) :
    (s.conf.status = .notLoaded ∧ Shows s r.2) ∨
    (s.conf.status = .running ∧ ∃ out, cont w e.resume { s with out := out } = .ok r) ∨
    (s.conf.status = .loaded ∧ ∃ ret t, start w e.spawn s = .ok (ret, t) ∧
      (ret < 0 ∧ r = (ret, t) ∨ 0 ≤ ret ∧ cont w e.resume t = .ok r)) := by
  unfold run at h
  split at h
  case h_1 hs =>
    rw [← Except.ok.inj h]
    exact .inl ⟨hs, (Shows.refl s).say _⟩
  case h_2 hs => exact .inr (.inl ⟨hs, _, h⟩)
  case h_3 hs =>
    obtain ⟨⟨ret, t⟩, ht, h⟩ := bind_ok.mp h
    refine .inr (.inr ⟨hs, ret, t, ht, ?_⟩)
    simp only at h
    split at h
    case isTrue hneg => exact .inl ⟨hneg, (Except.ok.inj h).symm⟩
    case isFalse hneg => exact .inr ⟨by omega, h⟩

/-! ### What resuming keeps -/

/-- The same breakpoints and the same range, and no program unloaded. -/
structure Keeps (s t : State ρ) : Prop where
  bps : t.conf.bps = s.conf.bps
  entrypoint : t.conf.entrypoint = s.conf.entrypoint
  textsize : t.conf.textsize = s.conf.textsize
  loaded : s.conf.status ≠ .notLoaded → t.conf.status ≠ .notLoaded

section Keeps
variable {w : World ρ} {s t u : State ρ} {r : Reply ρ}

theorem Keeps.trans (h : Keeps s t) (h' : Keeps t u) : Keeps s u :=
  ⟨h'.bps.trans h.bps, h'.entrypoint.trans h.entrypoint, h'.textsize.trans h.textsize,
    fun hs => h'.loaded (h.loaded hs)⟩

theorem Keeps.of_shows (h : Shows s t) : Keeps s t := by
  obtain ⟨lines, rfl⟩ := h
  exact ⟨rfl, rfl, rfl, id⟩

theorem waitstatus_keeps {cont : Bool} {wt : Wait ρ} (h : waitstatus w cont wt s = .ok r) :
    Keeps s r.2 := by
  cases wt with
  | exited code =>
    rw [← Except.ok.inj h]
    exact ⟨rfl, rfl, rfl, fun _ => nofun⟩
  | signaled =>
    rw [← Except.ok.inj h]
    exact ⟨rfl, rfl, rfl, id⟩
  | stopped c =>
    obtain ⟨-, out, t, ht, hr⟩ := waitstatus_stopped h
    have hreset : Keeps s t ∧ ∃ c, t.proc = .stopped c := by
      rcases resetbreak_cases ht with ⟨-, rfl⟩ | ⟨p, c', -, -, -, -, rfl⟩
      · exact ⟨⟨rfl, rfl, rfl, id⟩, c, rfl⟩
      · exact ⟨⟨rfl, rfl, rfl, id⟩, _, rfl⟩
    obtain ⟨hkeeps, c', hc'⟩ := hreset
    rcases restoreifbreak_cases hc' hr with ⟨-, hrt⟩ | ⟨rid, b, out', -, -, -, hrt⟩
    all_goals
      rw [hrt]
      exact hkeeps.trans ⟨rfl, rfl, rfl, id⟩

theorem cont_keeps {res : Resume} (h : cont w res s = .ok r) : Keeps s r.2 := by
  rcases cont_cases h with ⟨-, hs⟩ | ⟨-, wt, -, h⟩
  · exact .of_shows hs
  · exact waitstatus_keeps h

theorem si_keeps {res : Resume} (h : si w res s = .ok r) : Keeps s r.2 := by
  rcases si_cases h with ⟨-, hs⟩ | ⟨-, c, wt, -, -, h⟩
  · exact .of_shows hs
  · exact waitstatus_keeps h

theorem start_keeps {sp : Spawn} (h : start w sp s = .ok r) : Keeps s r.2 := by
  rcases start_cases h with ⟨-, hs⟩ | ⟨-, -, ret, t, out, u, hwait, hset, rfl⟩
  · exact .of_shows hs
  · obtain ⟨proc, rfl⟩ := setallbreak_same hset
    have hkeeps := waitstatus_keeps hwait
    exact ⟨hkeeps.bps, hkeeps.entrypoint, hkeeps.textsize, fun _ => nofun⟩

theorem run_keeps {e : Env} (h : run w e s = .ok r) : Keeps s r.2 := by
  rcases run_cases h with ⟨-, hs⟩ | ⟨-, out, h⟩ | ⟨-, ret, t, hstart, ⟨-, rfl⟩ | ⟨-, h⟩⟩
  · exact .of_shows hs
  · have hkeeps := cont_keeps h
    exact ⟨hkeeps.bps, hkeeps.entrypoint, hkeeps.textsize, hkeeps.loaded⟩
  · exact start_keeps hstart
  · exact (start_keeps hstart).trans (cont_keeps h)

end Keeps

/-! ### The register map -/

theorem waitstatus_regOffset {w : World ρ} {cont : Bool} {wt : Wait ρ} {s : State ρ} {r : Reply ρ}
    (h : waitstatus w cont wt s = .ok r) : r.2.regOffset = s.regOffset := by
  cases wt with
  | exited code | signaled =>
    rw [← Except.ok.inj h]
    rfl
  | stopped c =>
    obtain ⟨-, out, t, ht, hr⟩ := waitstatus_stopped h
    have hreset : t.regOffset = s.regOffset ∧ ∃ c, t.proc = .stopped c := by
      rcases resetbreak_cases ht with ⟨-, rfl⟩ | ⟨p, c', -, -, -, -, rfl⟩
      · exact ⟨rfl, c, rfl⟩
      · exact ⟨rfl, _, rfl⟩
    obtain ⟨hmap, c', hc'⟩ := hreset
    rcases restoreifbreak_cases hc' hr with ⟨-, hrt⟩ | ⟨rid, b, out', -, -, -, hrt⟩
    all_goals
      rw [hrt]
      exact hmap

/-- Only `set` changes the register map. -/
theorem regOffset_handle {w : World ρ} {e : Env} {cmd : Command} {s : State ρ} {r : Reply ρ}
    (hcmd : Debugging cmd) (h : handle w e cmd s = .ok r) : r.2.regOffset = s.regOffset := by
  have hshows : Shows s r.2 → r.2.regOffset = s.regOffset := by
    intro ⟨lines, hl⟩
    rw [hl]
  cases hcmd with
  | break_ addr =>
    rcases setbreak_cases h with ⟨hs, -⟩ | ⟨c, -, -, -, rfl⟩
    · exact hshows hs
    · rfl
  | delete id =>
    rcases deletebreak_cases h with ⟨hs, -⟩ | ⟨did, b, c, out, -, -, -, -, rfl⟩
    · exact hshows hs
    · rfl
  | si =>
    rcases si_cases h with ⟨-, hs⟩ | ⟨-, c, wt, -, -, h⟩
    · exact hshows hs
    · exact waitstatus_regOffset h
  | cont =>
    rcases cont_cases h with ⟨-, hs⟩ | ⟨-, wt, -, h⟩
    · exact hshows hs
    · exact waitstatus_regOffset h
  | start =>
    rcases start_cases h with ⟨-, hs⟩ | ⟨-, -, ret, t, out, u, hwait, hset, rfl⟩
    · exact hshows hs
    · obtain ⟨proc, rfl⟩ := setallbreak_same hset
      have hmap := waitstatus_regOffset hwait
      exact hmap

/-- Apart from the commands that move breakpoints, the child or the program, a command
shows something or stores a register. -/
theorem handle_quiet {w : World ρ} {e : Env} {c : Command} {s : State ρ} {r : Reply ρ}
    (h : handle w e c s = .ok r) (hdebug : ¬ Debugging c) (hload : ∀ p, c ≠ .load p)
    (hrun : c ≠ .run) (hset : ∀ reg val, c ≠ .set reg val) : Shows s r.2 := by
  cases c with
  | empty =>
    rw [← Except.ok.inj h]
    exact Shows.refl s
  | disasm => exact disasm_shows h
  | dump => exact dump_shows h
  | exit => cases h
  | get => exact getReg_shows h
  | getregs => exact getregs_shows h
  | vmmap => exact vmmap_shows h
  | list =>
    rw [← Except.ok.inj h]
    exact list_shows s
  | help | notgiven | lackarg | undefined =>
    rw [← Except.ok.inj h]
    exact (Shows.refl s).say _
  | load p => exact absurd rfl (hload p)
  | run => exact absurd rfl hrun
  | set reg val => exact absurd rfl (hset reg val)
  | break_ addr => exact absurd (.break_ addr) hdebug
  | delete id => exact absurd (.delete id) hdebug
  | start => exact absurd .start hdebug
  | si => exact absurd .si hdebug
  | cont => exact absurd .cont hdebug

/-! ### What a step moves -/

/-- What one action does to the breakpoints and to the range: `break` adds one, `delete`
takes one out, `load` sets the range, and everything else keeps both. -/
inductive Moves (s t : State ρ) : Action → Prop where
  | keeps {x : Action} (h : Keeps s t) : Moves s t x
  | sets {addr : String} {e : Env} (code : Word) (h : Sets s (strtoull addr))
      (ht : t.conf = { s.conf with bps := s.conf.bps ++ [⟨strtoull addr, code⟩] }) :
      Moves s t (.command (.break_ addr) e)
  | erases {id : String} {e : Env} (did : Nat) (h : Deletes s id did)
      (ht : t.conf = { s.conf with bps := s.conf.bps.eraseIdx did }) :
      Moves s t (.command (.delete id) e)
  | loads {program : String} {e : Env} (hs : s.conf.status = .notLoaded)
      (ht : t.conf.status = .loaded) (hbps : t.conf.bps = s.conf.bps) :
      Moves s t (.command (.load program) e)

theorem handle_moves {w : World ρ} {e : Env} {cmd : Command} {s : State ρ} {r : Reply ρ}
    (h : handle w e cmd s = .ok r) : Moves s r.2 (.command cmd e) := by
  cases cmd with
  | break_ addr =>
    rcases setbreak_cases h with ⟨hs, -⟩ | ⟨c, -, hsets, -, rfl⟩
    · exact .keeps (.of_shows hs)
    · exact .sets _ hsets rfl
  | delete id =>
    rcases deletebreak_cases h with ⟨hs, -⟩ | ⟨did, b, c, out, hdel, -, -, -, rfl⟩
    · exact .keeps (.of_shows hs)
    · exact .erases did hdel rfl
  | load program =>
    rcases load_cases h with hs | ⟨hnot, out, ht | ⟨-, entrypoint, textsize, ht⟩⟩
    · exact .keeps (.of_shows hs)
    · rw [ht]
      exact .keeps ⟨rfl, rfl, rfl, id⟩
    · rw [ht]
      exact .loads hnot rfl rfl
  | set reg val =>
    rcases setReg_cases h with hs | ⟨c, i, map, -, -, ht⟩
    · exact .keeps (.of_shows hs)
    · rw [ht]
      exact .keeps ⟨rfl, rfl, rfl, id⟩
  | si => exact .keeps (si_keeps h)
  | cont => exact .keeps (cont_keeps h)
  | start => exact .keeps (start_keeps h)
  | run => exact .keeps (run_keeps h)
  | _ => exact .keeps (.of_shows (handle_quiet h (by intro h; cases h) (by simp) (by simp) (by simp)))

theorem act_moves {w : World ρ} {x : Action} {s t : State ρ} (h : act w x s = .ok t) :
    Moves s t x := by
  cases x with
  | killed =>
    rw [← Except.ok.inj h]
    unfold State.kill
    split <;> exact .keeps ⟨rfl, rfl, rfl, id⟩
  | command cmd e =>
    obtain ⟨ret, hr⟩ := act_command h
    exact handle_moves hr

/-- A step keeps the addresses apart. -/
theorem Moves.distinct {s t : State ρ} {x : Action} (h : Moves s t x) (hd : Distinct s.conf.bps) :
    Distinct t.conf.bps := by
  cases h with
  | keeps hk => rwa [hk.bps]
  | sets code hsets ht =>
    rw [ht]
    exact hd.append hsets.fresh
  | erases did _ ht =>
    rw [ht]
    exact hd.eraseIdx did
  | loads _ _ hbps => rwa [hbps]

end Apue.Sdb

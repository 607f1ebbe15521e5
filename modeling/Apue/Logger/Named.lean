import Apue.Logger.Lines
import Apue.Logger.Session

/-! Which file a record names.

A wrapper that takes a descriptor or a stream puts the target of its link in the record.
`fclose` reads the link before the call, and the calls that transfer data leave it as it is,
but `close` reads it when the descriptor is gone and writes the path of the link in its
place. `named_iff`: in a program every record names the file of its call exactly when no such
descriptor is closed by `close`. -/
namespace Apue.Logger
open Memory CLib Transition

variable {ρ : Type}

/-- The record contains the quoted target of the call's descriptor, if it is open and its
target is of fewer than 1023 bytes. -/
def Call.Names (c : Call) (p : Process ρ) (text : List Byte) : Prop :=
  ∀ link target, c.link p = some link → p.readlink link = .ok target → target.bytes.length < 1023 →
    quoted target.bytes <:+: text

/-- The target of the descriptor, if it is open and has a short one, reads like the path of its
own link. -/
def Call.SelfLinked (c : Call) (p : Process ρ) : Prop :=
  ∀ link target, c.link p = some link → p.readlink link = .ok target → target.bytes.length < 1023 →
    quoted target.bytes = quoted link

def Symbol.Transfers (f : Symbol) : Prop := f = .read ∨ f = .write ∨ f = .fread ∨ f = .fwrite

/-- What libc's functions do to the descriptors and the streams. -/
structure Descriptors (libc : Libc (Process ρ)) : Prop where
  /-- A transfer leaves the links of the descriptors as they are. -/
  readlink : ∀ f : Symbol, f.Transfers → ∀ args p (fd : BitVec 32),
    (libc.run f args p).2.readlink (fdPath fd) = p.readlink (fdPath fd)
  /-- It leaves the descriptors of the streams, too. -/
  fileno : ∀ f : Symbol, f.Transfers → ∀ args p, (libc.run f args p).2.fileno = p.fileno
  /-- A descriptor that was open is free after `close`, and has no link. -/
  close : ∀ fd rest p target, p.readlink (fdPath (fd.setWidth 32)) = .ok target →
    ∃ e, (libc.run .close (fd :: rest) p).2.readlink (fdPath (fd.setWidth 32)) = .error e

/-! ### The function that is called -/

/-- A wrapper that shares its static with no other. -/
def Alone (f : Symbol) : Prop := ∀ g, family g = family f → g = f

theorem alone_transfers {f : Symbol} (h : f.Transfers) : Alone f := by
  intro g hg
  rcases h with rfl | rfl | rfl | rfl <;> cases g <;> first | rfl | cases hg

theorem alone_close : Alone .close := by
  intro g hg
  cases g <;> first | rfl | cases hg

/-- The statics of such wrappers hold their own functions. -/
def Owned (s : State (Process ρ)) : Prop :=
  ∀ f, Alone f → ∀ g, s.libcFunc f.wrapper.instantiation = some g → g = f

theorem owned_keep {s : State (Process ρ)} {c : Symbol} (h : Owned s) : ∀ f, Alone f →
    ∀ g, keep s.libcFunc c.wrapper.instantiation c f.wrapper.instantiation = some g → g = f := by
  intro f halone g hg
  by_cases hinst : f.wrapper.instantiation = c.wrapper.instantiation
  · obtain rfl := halone c ((instantiation_eq_iff ..).mp hinst.symm)
    rw [keep_self] at hg
    rw [← Option.some.inj hg]
    exact fetch_eq_iff.mpr (h c halone)
  · rw [keep_ne hinst] at hg
    exact h f halone g hg

theorem owned_after {libc : Libc (Process ρ)} {c : Call} {s : State (Process ρ)} (h : Owned s) :
    Owned (c.after libc s) := by
  have hname := wrapper_name c.func
  simp only [Owned, Call.after, Call.called, Wrapper.call, callFromLibc, hname]
  exact owned_keep h

theorem owned_step {libc : Libc (Process ρ)} {step : Step ρ} {s t : Session ρ} (h : Owned s.state)
    (hs : Session.step libc step s = .ok t) : Owned t.state := by
  cases step with
  | call c =>
    obtain ⟨-, -, rfl⟩ := step_call_iff.mp hs
    exact owned_after h
  | program env =>
    cases hs
    exact h

/-- Such a wrapper calls the function of its name. -/
theorem left_eq {libc : Libc (Process ρ)} {c : Call} {s : State (Process ρ)} (h : Owned s)
    (halone : Alone c.func) : c.left libc s = (libc.run c.func c.args (lookedAll c.early s.env)).2 := by
  have hname := wrapper_name c.func
  have hfetch := fetch_eq_iff.mpr (h c.func halone)
  simp only [Call.left, Call.called, Wrapper.call, callFromLibc, hname, hfetch]

/-! ### The field of the link -/

theorem Arg.text_link {a : Arg} {p : Process ρ} {link : List Byte} (h : a.link p = some link) :
    a.text p = quoted (p.target link) := by
  unfold Arg.link at h
  unfold Arg.text
  cases hover : resolution a.type with
  | none => simp [hover] at h
  | some o =>
    simp only [hover] at h
    cases o with
    | string => cases h
    | filePtr =>
      obtain ⟨fd, hfd, rfl⟩ := Option.map_eq_some_iff.mp h
      simp only [hfd]
      rfl
    | constVoidPtr => cases h
    | int =>
      obtain ⟨hfd, rfl⟩ := Option.ite_some_none_eq_some.mp h
      exact if_pos hfd

/-- One of the arguments is what is looked up. -/
theorem link_mem {c : Call} {p : Process ρ} {link : List Byte} (h : c.link p = some link) :
    ∃ a ∈ c.logged, a.link p = some link := by
  obtain ⟨f, args⟩ := c
  cases f with
  | close | read | write =>
    rcases args with _ | ⟨fd, rest⟩
    · cases h
    · exact ⟨⟨"fd", .int, fd⟩, List.mem_cons_self .., h⟩
  | fclose =>
    rcases args with _ | ⟨stream, rest⟩
    · cases h
    · exact ⟨⟨"file_pointer", .filePtr, stream⟩, List.mem_cons_self .., h⟩
  | fread | fwrite =>
    rcases args with _ | ⟨ptr, _ | ⟨size, _ | ⟨nitems, _ | ⟨stream, rest⟩⟩⟩⟩
    · cases h
    · cases h
    · cases h
    · cases h
    · refine ⟨⟨"file_pointer", .filePtr, stream⟩, ?_, h⟩
      exact .tail _ (.tail _ (.tail _ (.head _)))
  | _ => cases h

/-- Every link is that of a descriptor. -/
theorem link_fdPath {c : Call} {p : Process ρ} {link : List Byte} (h : c.link p = some link) :
    ∃ fd, link = fdPath fd := by
  obtain ⟨a, -, ha⟩ := link_mem h
  unfold Arg.link at ha
  split at ha
  · obtain ⟨fd, -, rfl⟩ := Option.map_eq_some_iff.mp ha
    exact ⟨fd, rfl⟩
  · obtain ⟨-, rfl⟩ := Option.ite_some_none_eq_some.mp ha
    exact ⟨_, rfl⟩
  · cases ha

theorem target_eq {p : Process ρ} {link : List Byte} {target : PathText}
    (h : p.readlink link = .ok target) (hshort : target.bytes.length < 1023) :
    p.target link = target.bytes := by
  rw [Process.target, h]
  exact List.take_of_length_le (Nat.le_of_lt hshort)

theorem early_field {libc : Libc (Process ρ)} {c : Call} {s : State (Process ρ)} {link : List Byte}
    (hfclose : c.func = .fclose) (h : c.link s.env = some link) :
    quoted (s.env.target link) ∈ (c.record libc s).fields := by
  obtain ⟨a, ha, hlink⟩ := link_mem h
  have hearly : c.early = c.logged := if_pos hfclose
  rw [← Arg.text_link hlink]
  exact List.mem_append_left _ (List.mem_map_of_mem (hearly ▸ ha))

theorem late_field {libc : Libc (Process ρ)} {c : Call} {s : State (Process ρ)} {link : List Byte}
    (hfclose : c.func ≠ .fclose) (h : c.link (c.left libc s) = some link) :
    quoted ((c.left libc s).target link) ∈ (c.record libc s).fields := by
  obtain ⟨a, ha, hlink⟩ := link_mem h
  have hlate : c.late = c.logged := if_neg hfclose
  rw [← Arg.text_link hlink]
  exact List.mem_append_right _ (List.mem_map_of_mem (hlate ▸ ha))

/-! ### One call -/

section Call
variable {libc : Libc (Process ρ)} {c : Call} {s : State (Process ρ)}

theorem early_transfers (h : c.func.Transfers) : c.early = [] := by
  apply if_neg
  rcases h with h | h | h | h <;> rw [h] <;> nofun

/-- A transfer leaves the link and its target. -/
theorem left_transfers (hdesc : Descriptors libc) (hown : Owned s) (h : c.func.Transfers) :
    c.link (c.left libc s) = c.link s.env ∧
      ∀ fd, (c.left libc s).readlink (fdPath fd) = s.env.readlink (fdPath fd) := by
  rw [left_eq hown (alone_transfers h), early_transfers h]
  have hfileno := hdesc.fileno c.func h c.args s.env
  refine ⟨?_, hdesc.readlink c.func h c.args s.env⟩
  simp only [Call.link, lookedAll, hfileno]

/-- Only `close` may miss the name. -/
theorem names_of_ne_close (hdesc : Descriptors libc) (hown : Owned s) (hclose : c.func ≠ .close) :
    c.Names s.env (c.record libc s).text := by
  intro link target hlink htarget hshort
  apply Record.field_infix
  by_cases hfclose : c.func = .fclose
  · rw [← target_eq htarget hshort]
    exact early_field hfclose hlink
  · have htransfers : c.func.Transfers := by
      unfold Call.link at hlink
      unfold Symbol.Transfers
      grind
    obtain ⟨hlink', htarget'⟩ := left_transfers hdesc hown htransfers
    obtain ⟨fd, rfl⟩ := link_fdPath hlink
    rw [← target_eq ((htarget' fd).trans htarget) hshort]
    exact late_field hfclose (hlink'.trans hlink)

/-- `close` finds no link and writes its path. -/
theorem close_text {fd : Value} (rest : List Value) {target : PathText} (hdesc : Descriptors libc)
    (hown : Owned s) (h : s.env.readlink (fdPath (fd.setWidth 32)) = .ok target) :
    ∃ ret, (Call.record libc ⟨.close, fd :: rest⟩ s).text =
      (ascii "[logger] " ++ ascii "close" ++ ascii "(") ++
        (quoted (fdPath (fd.setWidth 32)) ++ (ascii ") = " ++ decimalInt ret ++ ascii "\n")) := by
  obtain ⟨e, he⟩ := hdesc.close fd rest s.env target h
  have hleft : (Call.left libc ⟨.close, fd :: rest⟩ s).target (fdPath (fd.setWidth 32)) =
      fdPath (fd.setWidth 32) := by
    rw [left_eq hown alone_close]
    change Process.target (libc.run .close (fd :: rest) s.env).2 _ = _
    rw [Process.target, he]
  have hfields : (Call.record libc ⟨.close, fd :: rest⟩ s).fields =
      [quoted (fdPath (fd.setWidth 32))] := by
    rw [← hleft]
    rfl
  refine ⟨((Call.called libc ⟨.close, fd :: rest⟩ s).1).setWidth 32, ?_⟩
  simp only [Record.text, hfields, List.intersperse_singleton, List.flatten_singleton, List.append_assoc]
  rfl

/-- The first of two delimiters, if they are in front of equal texts. -/
theorem append_cons_cancel {q : Byte} {a l r t : List Byte} (ha : q ∉ a) (hl : q ∉ l)
    (h : a ++ q :: r = l ++ q :: t) : a = l ∧ r = t := by
  rcases List.append_eq_append_iff.mp h with ⟨m, rfl, hm⟩ | ⟨m, rfl, hm⟩
  · cases m with
    | nil => exact ⟨(List.append_nil a).symm, (List.cons.inj hm).2⟩
    | cons b m =>
      obtain ⟨rfl, -⟩ := List.cons.inj hm
      exact absurd (List.mem_append_right a (List.mem_cons_self ..)) hl
  · cases m with
    | nil => exact ⟨List.append_nil l, (List.cons.inj hm).2.symm⟩
    | cons b m =>
      obtain ⟨rfl, -⟩ := List.cons.inj hm
      exact absurd (List.mem_append_right l (List.mem_cons_self ..)) ha

/-- Between the only two quotes of a text there is one string. -/
theorem quoted_infix_iff {x y a b : List Byte} (ha : byteOfChar '"' ∉ a) (hb : byteOfChar '"' ∉ b)
    (hy : byteOfChar '"' ∉ y.map dot) : quoted x <:+: a ++ (quoted y ++ b) ↔ quoted x = quoted y := by
  constructor
  · rintro ⟨l, r, h⟩
    simp only [quoted, List.append_assoc, List.cons_append] at h ⊢
    have hcount := congrArg (List.count (byteOfChar '"')) h
    simp only [List.count_append, List.count_cons_self, List.count_eq_zero_of_not_mem ha,
      List.count_eq_zero_of_not_mem hb, List.count_eq_zero_of_not_mem hy] at hcount
    have hl : byteOfChar '"' ∉ l := List.count_eq_zero.mp (by omega)
    have hx : byteOfChar '"' ∉ x.map dot := List.count_eq_zero.mp (by omega)
    obtain ⟨-, hrest⟩ := append_cons_cancel hl ha h
    obtain ⟨heq, -⟩ := append_cons_cancel hx hy hrest
    rw [heq]
  · intro h
    rw [h]
    exact ⟨a, b, List.append_assoc ..⟩

theorem dot_of_printable {b : Byte} (h : printable b = true) : dot b = b := if_pos h

/-- There is no quote in the path of a link. -/
theorem quote_notMem_fdPath (fd : BitVec 32) : byteOfChar '"' ∉ (fdPath fd).map dot := by
  have hproc : ∀ b ∈ ascii "/proc/self/fd/", printable b = true ∧ b ≠ byteOfChar '"' := by decide
  intro h
  obtain ⟨b, hb, hdot⟩ := List.mem_map.mp h
  have hplain : printable b = true ∧ b ≠ byteOfChar '"' :=
    (List.mem_append.mp hb).elim (hproc b) mem_decimalInt
  rw [dot_of_printable hplain.1] at hdot
  exact hplain.2 hdot

theorem names_close_iff (hdesc : Descriptors libc) (hown : Owned s) (hclose : c.func = .close) :
    c.Names s.env (c.record libc s).text ↔ c.SelfLinked s.env := by
  obtain ⟨f, args⟩ := c
  obtain rfl : f = .close := hclose
  refine forall₂_congr fun link target => imp_congr_right fun hlink =>
    imp_congr_right fun htarget => imp_congr_right fun _ => ?_
  cases args with
  | nil => cases hlink
  | cons fd rest =>
    obtain rfl := Option.some.inj hlink
    obtain ⟨ret, htext⟩ := close_text rest hdesc hown htarget
    rw [htext]
    refine quoted_infix_iff (by decide) ?_ (quote_notMem_fdPath _)
    simp only [List.mem_append, not_or]
    exact ⟨⟨by decide, fun h => (mem_decimalInt h).2 rfl⟩, by decide⟩

end Call

/-! ### Programs -/

/-- **In a program under the logger every record names the file of its call exactly when no
open descriptor is closed by `close`, but for one whose target reads like its own link.** -/
theorem named_iff {libc : Libc (Process ρ)} {env : Process ρ} {t : Session ρ}
    {l : List (Edge (Session ρ) (Step ρ))} (hdesc : Descriptors libc)
    (h : Path (Session.step libc) (.start env) l t) :
    (∀ e ∈ l, ∀ c, e.action = .call c →
        ∃ text, e.after.printed = e.before.printed ++ text ∧ c.Names e.before.state.env text) ↔
      ∀ e ∈ l, ∀ c, e.action = .call c → c.func = .close → c.SelfLinked e.before.state.env := by
  have howned : ∀ e ∈ l, Owned e.before.state := by
    have hinit : Owned (Session.start env).state := fun f _ g hg => by cases hg
    exact @Path.forall_before _ _ _ _ (fun _ _ => True) (fun s => Owned s.state) _ _ _ h
      (fun _ _ => trivial) hinit fun _ _ _ hs _ hstep => owned_step hs hstep
  refine forall₂_congr fun e he => forall₂_congr fun c hc => ?_
  have hown := howned e he
  have hstep := h.step_of_mem e he
  rw [hc] at hstep
  obtain ⟨-, -, hafter⟩ := step_call_iff.mp hstep
  have htext : (∃ text, e.after.printed = e.before.printed ++ text ∧ c.Names e.before.state.env text) ↔
      c.Names e.before.state.env (c.record libc e.before.state).text := by
    rw [hafter]
    simp
  rw [htext]
  by_cases hclose : c.func = .close
  · rw [names_close_iff hdesc hown hclose]
    exact ⟨fun h _ => h, fun h => h hclose⟩
  · exact iff_of_true (names_of_ne_close hdesc hown hclose) fun h => absurd h hclose

/-- The process without a descriptor. -/
def Process.freed (p : Process ρ) (fd : BitVec 32) : Process ρ :=
  { p with readlink := fun path => if path = fdPath fd then .error 2 else p.readlink path }

/-- A libc that frees the descriptors it closes and otherwise does nothing. -/
def freeing : Libc (Process ρ) :=
  ⟨fun f args p =>
    match f, args with
    | .close, fd :: _ => (0, p.freed (fd.setWidth 32))
    | .fclose, stream :: _ => (0, (p.fileno stream).elim p p.freed)
    | _, _ => (0, p)⟩

theorem freeing_descriptors : Descriptors (freeing (ρ := ρ)) := by
  refine ⟨fun f hf args p fd => ?_, fun f hf args p => ?_, fun fd rest p target _ => ⟨2, if_pos rfl⟩⟩
  · rcases hf with rfl | rfl | rfl | rfl <;> rfl
  · rcases hf with rfl | rfl | rfl | rfl <;> rfl

/-- A stream on descriptor 3. -/
def streaming : Process Unit :=
  { typed with fileno := fun stream => if stream = 0x2000 then some 3 else none }

/-- A read from it, and its end. -/
theorem named_fclose : ∃ l t, Path (Session.step freeing) (.start streaming) l t ∧
    l.map Edge.action = [.call ⟨.fread, [0x1000, 1, 2, 0x2000]⟩, .call ⟨.fclose, [0x2000]⟩] ∧
    ∀ e ∈ l, ∀ c, e.action = .call c →
      ∃ text, e.after.printed = e.before.printed ++ text ∧ c.Names e.before.state.env text := by
  have hthere : Along freeing (fun c s => c.There freeing s)
      [.call ⟨.fread, [0x1000, 1, 2, 0x2000]⟩, .call ⟨.fclose, [0x2000]⟩] (init streaming) :=
    ⟨by decide +kernel, by decide +kernel, trivial⟩
  obtain ⟨l, t, hpath, hacts⟩ := (returns_iff (s := .start streaming) hthere).mpr
    ⟨by decide +kernel, by decide +kernel, trivial⟩
  refine ⟨l, t, hpath, hacts, (named_iff freeing_descriptors hpath).mpr ?_⟩
  have hnone : ∀ a ∈ l.map Edge.action, ∀ c, a = .call c → c.func ≠ .close := by
    rw [hacts]
    simp
  intro e he c hc hclose
  exact absurd hclose (hnone _ (List.mem_map_of_mem he) c hc)

/-- The record of a `close` has the path of the link. -/
theorem named_close : ∃ l t, Path (Session.step freeing) (.start piped) l t ∧
    l.map Edge.action = [.call ⟨.close, [3]⟩] ∧ ¬ ∀ e ∈ l, ∀ c, e.action = .call c →
      ∃ text, e.after.printed = e.before.printed ++ text ∧ c.Names e.before.state.env text := by
  have hthere : Along freeing (fun c s => c.There freeing s) [.call ⟨.close, [3]⟩] (init piped) :=
    ⟨by decide +kernel, trivial⟩
  obtain ⟨l, t, hpath, hacts⟩ := (returns_iff (s := .start piped) hthere).mpr
    ⟨by decide +kernel, trivial⟩
  refine ⟨l, t, hpath, hacts, fun hall => ?_⟩
  cases hpath with
  | nil => cases hacts
  | @cons _ u _ _ l hs hpath =>
    obtain ⟨rfl, -⟩ := List.cons.inj hacts
    obtain ⟨-, -, rfl⟩ := step_call_iff.mp hs
    obtain ⟨text, htext, hnames⟩ := hall _ (List.mem_cons_self ..) _ rfl
    obtain rfl := List.append_cancel_left htext
    have howned : Owned (init piped) := fun f _ g hg => by cases hg
    have hself := (names_close_iff freeing_descriptors howned rfl).mp hnames
    exact absurd (hself _ _ rfl rfl (by decide)) (by decide +kernel)

end Apue.Logger

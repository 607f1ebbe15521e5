import Apue.Posix.Descriptor
import Apue.Transition.Run

/-! Where the log goes.

`output` puts the output file, or `stderr`, on descriptor 5, to which the wrappers of the
traced program write. `output_iff`: at the end the file is the log exactly when descriptor 5
was not the one that `open` took, and the file was no longer than the log. -/
namespace Apue.Logger
open Memory Posix Transition

/-- The descriptor of the log. -/
def FD : Nat := 5

/-- What `main` does for `-o`. -/
def output (output_file : List Char) (k : Kernel (List Char)) : Kernel (List Char) :=
  if output_file.length ≠ 0 then
    let (fd, k) := k.create output_file
    (k.dup2 fd FD).close fd
  else k.dup2 (some 2) FD

/-- What happens while the traced program runs. -/
inductive Event where
  | record (text : List Byte)
  | program (k : Kernel (List Char))

def Event.act : Event → Kernel (List Char) → Except Empty (Kernel (List Char))
  | .record text, k => .ok (k.write FD text)
  | .program k, _ => .ok k

/-- All records, one after the other. -/
def logOf : List Event → List Byte
  | [] => []
  | .record text :: rest => text ++ logOf rest
  | .program _ :: rest => logOf rest

/-- What the program does leaves descriptor 5 as it is, with its offset and its file. -/
def Leaves (k k' : Kernel (List Char)) : Prop :=
  k'.get FD = k.get FD ∧ ∀ d o, k.get FD = some d → k.opened[d]? = some o →
    k'.opened[d]? = some o ∧ k'.files o.file = k.files o.file

def Event.Allowed (k : Kernel (List Char)) : Event → Prop
  | .record _ => True
  | .program k' => Leaves k k'

/-- Descriptor 5 is open on the file, after the log and before what is left of the old file. -/
def Holds (file : List Char) (old log : List Byte) (k : Kernel (List Char)) : Prop :=
  ∃ d, k.get FD = some d ∧ k.opened[d]? = some ⟨file, log.length⟩ ∧
    k.files file = some (log ++ old.drop log.length)

/-- Descriptor 5 refers to the file and the other descriptors are what they were. -/
def Redirected (file : List Char) (k k' : Kernel (List Char)) : Prop :=
  (∃ d o, k'.get FD = some d ∧ k'.opened[d]? = some o ∧ o.file = file) ∧
    ∀ fd, fd ≠ FD → k'.get fd = k.get fd

variable {file : List Char} {old log : List Byte} {k k' : Kernel (List Char)}

theorem holds_act {e : Event} (h : Holds file old log k) (hok : e.Allowed k) (hact : e.act k = .ok k') :
    Holds file old (log ++ logOf [e]) k' := by
  obtain ⟨d, hget, hopened, hfile⟩ := h
  cases e with
  | record text =>
    cases hact
    obtain ⟨hget', hopened', hfile'⟩ := Kernel.write_eq text hget hopened hfile
    refine ⟨d, ?_, ?_, ?_⟩
    · rw [hget', hget]
    · simpa [logOf] using hopened'
    · simpa [logOf, List.drop_drop] using hfile'
  | program k' =>
    cases hact
    obtain ⟨hget', hrest⟩ := hok
    obtain ⟨hopened', hfile'⟩ := hrest d _ hget hopened
    rw [logOf, logOf, List.append_nil]
    exact ⟨d, hget'.trans hget, hopened', hfile'.trans hfile⟩

theorem holds_path {l : List (Edge (Kernel (List Char)) Event)} (h : Path Event.act k l k')
    (hok : ∀ e ∈ l, e.action.Allowed e.before) (hk : Holds file old log k) :
    Holds file old (log ++ logOf (l.map Edge.action)) k' := by
  induction h generalizing log with
  | nil => rwa [List.map_nil, logOf, List.append_nil]
  | @cons s t u a l hs _ ih =>
    obtain ⟨ha, hrest⟩ := List.forall_mem_cons.mp hok
    have hnext := ih hrest (holds_act hk ha hs)
    have hlog : logOf [a] ++ logOf (l.map Edge.action) = logOf (a :: l.map Edge.action) := by
      cases a with
      | record text => simp [logOf]
      | program k => rfl
    rwa [List.append_assoc, hlog] at hnext

/-- What `output` leaves when it is given a file that can be opened. -/
theorem output_eq (hopen : k.permits file = true) (hfile : file ≠ []) :
    (lowest k.table ≠ FD → Holds file ((k.files file).getD []) [] (output file k) ∧
      ∀ fd, fd ≠ FD → (output file k).get fd = k.get fd) ∧
    (lowest k.table = FD → (output file k).get FD = none) := by
  obtain ⟨k₁, hcreate, hget, hopened, hfiles⟩ := Kernel.create_eq hopen
  have hout : output file k = (k₁.dup2 (some (lowest k.table)) FD).close (some (lowest k.table)) := by
    have hlen : file.length ≠ 0 := fun h => hfile (List.length_eq_zero_iff.mp h)
    rw [output, if_pos hlen, hcreate]
  have hlowest : k₁.get (lowest k.table) = some k.opened.length := by
    rw [hget, if_pos rfl]
  have hput : ∀ fd, (output file k).get fd =
      if fd = lowest k.table then none else if fd = FD then some k.opened.length else k₁.get fd := by
    intro fd
    rw [hout, Kernel.get_close, Kernel.get_dup2 hlowest]
  constructor
  · intro hne
    refine ⟨⟨k.opened.length, ?_, ?_, ?_⟩, fun fd hfd => ?_⟩
    · rw [hput, if_neg (Ne.symm hne), if_pos rfl]
    · rw [hout, Kernel.close_opened, Kernel.dup2_opened]
      exact hopened
    · rw [hout, Kernel.close_files, Kernel.dup2_files, hfiles]
      rfl
    · rw [hput, if_neg hfd, hget]
      split
      case isTrue h => rw [h, Kernel.get, lookup_lowest]
      case isFalse => rfl
  · intro heq
    rw [hput, if_pos heq.symm]

/-- **Descriptor 5 becomes the file, the others stay, and at the end of every run the file is
the log, exactly when `open` took another descriptor than 5 and what the file held before was
no longer than the log.** -/
theorem output_iff {l : List (Edge (Kernel (List Char)) Event)} (hopen : k.permits file = true)
    (hfile : file ≠ []) (h : Path Event.act (output file k) l k')
    (hok : ∀ e ∈ l, e.action.Allowed e.before) :
    Redirected file k (output file k) ∧ k'.files file = some (logOf (l.map Edge.action)) ↔
      lowest k.table ≠ FD ∧ ((k.files file).getD []).length ≤ (logOf (l.map Edge.action)).length := by
  obtain ⟨hholds, hlost⟩ := output_eq hopen hfile
  by_cases hlowest : lowest k.table = FD
  · refine iff_of_false (fun hall => ?_) fun hall => hall.1 hlowest
    obtain ⟨⟨⟨d, o, hget, -⟩, -⟩, -⟩ := hall
    rw [hlost hlowest] at hget
    cases hget
  · obtain ⟨hstart, hothers⟩ := hholds hlowest
    have hredirected : Redirected file k (output file k) := by
      obtain ⟨d, hget, hopened, -⟩ := hstart
      exact ⟨⟨d, _, hget, hopened, rfl⟩, hothers⟩
    obtain ⟨-, -, -, hend⟩ := holds_path h hok hstart
    rw [List.nil_append] at hend
    rw [hend, Option.some.injEq, List.append_right_eq_self, List.drop_eq_nil_iff]
    exact ⟨fun hall => ⟨hlowest, hall.2⟩, fun hall => ⟨hredirected, hall.2⟩⟩

/-- A process with its descriptors below `n` in use, and with one file. -/
def running (n : Nat) (content : List Byte) : Kernel (List Char) :=
  { files := fun file => if file = ['f'] then some content else none
    permits := fun _ => true
    opened := [⟨['t'], 0⟩]
    table := List.replicate n (some 0) }

/-- A program that closes its input between two records. -/
theorem output_short : ∃ l k', Path Event.act (output ['f'] (running 3 [1, 2, 3])) l k' ∧
    logOf (l.map Edge.action) = [4, 5, 6, 7] ∧
    Redirected ['f'] (running 3 [1, 2, 3]) (output ['f'] (running 3 [1, 2, 3])) ∧
    k'.files ['f'] = some (logOf (l.map Edge.action)) := by
  let k := output ['f'] (running 3 [1, 2, 3])
  let k₁ := k.write FD [4, 5]
  let k₂ := k₁.close (some 0)
  have hpath : Path Event.act k [⟨k, .record [4, 5], k₁⟩, ⟨k₁, .program k₂, k₂⟩,
      ⟨k₂, .record [6, 7], k₂.write FD [6, 7]⟩] (k₂.write FD [6, 7]) :=
    .cons rfl (.cons rfl (.cons rfl .nil))
  have hleaves : Leaves k₁ k₂ := ⟨Kernel.get_close 0 FD, fun _ _ _ hopened => ⟨hopened, rfl⟩⟩
  refine ⟨_, _, hpath, rfl, (output_iff rfl (by decide) hpath ?_).mpr ⟨by decide, by decide⟩⟩
  simp [Event.Allowed, hleaves]

/-- A file that was longer than the log keeps its end, and where descriptor 5 is the lowest free
one `output` closes it again. -/
theorem output_longer : (∃ l k', Path Event.act (output ['f'] (running 3 [1, 2, 3])) l k' ∧
      l.map Edge.action = [.record [4, 5]] ∧ k'.files ['f'] = some [4, 5, 3] ∧
      ¬ (Redirected ['f'] (running 3 [1, 2, 3]) (output ['f'] (running 3 [1, 2, 3])) ∧
        k'.files ['f'] = some [4, 5])) ∧
    ¬ Redirected ['f'] (running 5 []) (output ['f'] (running 5 [])) := by
  constructor
  · refine ⟨_, _, .cons rfl .nil, rfl, by decide, fun h => absurd h.2 (by decide)⟩
  · rintro ⟨⟨d, o, hget, -⟩, -⟩
    cases hget

end Apue.Logger

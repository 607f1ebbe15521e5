import Apue.Logger.Output

/-! The log without a file.

Without `-o` descriptor 5 is what `stderr` was, with the same offset, so what the traced
program writes to its `stderr` and the records of its calls go one after the other.
`standard_log`: as long as the program leaves descriptor 5 as it is, with its offset and its
file, and has the file open in no other way, nothing of either is lost, and only what stood
after the offset is written over. -/
namespace Apue.Logger
open Memory Posix Transition

/-- What happens while the traced program runs; it writes to its descriptors, too. -/
inductive Turn where
  | record (text : List Byte)
  | message (fd : Nat) (bytes : List Byte)
  | program (k : Kernel (List Char))

def Turn.act : Turn → Kernel (List Char) → Except Empty (Kernel (List Char))
  | .record text, k => .ok (k.write FD text)
  | .message fd bytes, k => .ok (k.write fd bytes)
  | .program k, _ => .ok k

/-- What is written in a turn where the log goes. -/
def Turn.written (k : Kernel (List Char)) : Turn → List Byte
  | .record text => text
  | .message fd bytes => if k.get fd = k.get FD then bytes else []
  | .program _ => []

/-- The records and the messages, one after the other. -/
def transcript (l : List (Edge (Kernel (List Char)) Turn)) : List Byte :=
  l.flatMap fun x => x.action.written x.before

/-- The program leaves descriptor 5 as it is, and has the file open in no other way. -/
def Turn.Allowed (k : Kernel (List Char)) : Turn → Prop
  | .record _ => True
  | .message fd _ => k.get fd ≠ k.get FD → ∀ d o d' o', k.get FD = some d → k.opened[d]? = some o →
      k.get fd = some d' → k.opened[d']? = some o' → o'.file ≠ o.file
  | .program k' => Leaves k k'

variable {file : List Char} {old log : List Byte} {k k' : Kernel (List Char)}

theorem holds_turn {a : Turn} (h : Holds file old log k) (hok : a.Allowed k) (hact : a.act k = .ok k') :
    Holds file old (log ++ a.written k) k' := by
  obtain ⟨d, hget, hopened, hfile⟩ := h
  have hwrite : ∀ {fd} bytes, k.get fd = some d → Holds file old (log ++ bytes) (k.write fd bytes) := by
    intro fd bytes hfd
    obtain ⟨hget', hopened', hfile'⟩ := Kernel.write_eq bytes hfd hopened hfile
    refine ⟨d, by rw [hget', hget], hopened', ?_⟩
    rw [hfile', List.drop_drop, List.length_append]
  cases a with
  | record text =>
    cases hact
    exact hwrite text hget
  | message fd bytes =>
    cases hact
    by_cases hsame : k.get fd = k.get FD
    · rw [Turn.written, if_pos hsame]
      exact hwrite bytes (hsame.trans hget)
    · -- a message that goes elsewhere
      have hother : k.get fd ≠ some d := fun h => hsame (h.trans hget.symm)
      obtain ⟨hopened', hfile'⟩ := Kernel.write_apart bytes hother hopened
        fun d' o' hd' ho' => hok hsame d _ d' o' hget hopened hd' ho'
      rw [Turn.written, if_neg hsame, List.append_nil]
      exact ⟨d, by rw [Kernel.write_get, hget], hopened', hfile'.trans hfile⟩
  | program k' =>
    cases hact
    obtain ⟨hget', hrest⟩ := hok
    obtain ⟨hopened', hfile'⟩ := hrest d _ hget hopened
    rw [Turn.written, List.append_nil]
    exact ⟨d, hget'.trans hget, hopened', hfile'.trans hfile⟩

theorem holds_turns {l : List (Edge (Kernel (List Char)) Turn)} (h : Path Turn.act k l k')
    (hok : ∀ x ∈ l, x.action.Allowed x.before) (hk : Holds file old log k) :
    Holds file old (log ++ transcript l) k' := by
  induction h generalizing log with
  | nil => rwa [transcript, List.flatMap_nil, List.append_nil]
  | @cons s t u a l hs _ ih =>
    obtain ⟨ha, hrest⟩ := List.forall_mem_cons.mp hok
    have hnext := ih hrest (holds_turn hk ha hs)
    rwa [List.append_assoc] at hnext

/-- What `output` leaves when it is given no file. -/
theorem standard_eq {d : Nat} {front back : List Byte} (hget : k.get 2 = some d)
    (hopened : k.opened[d]? = some ⟨file, front.length⟩) (hfile : k.files file = some (front ++ back)) :
    Holds file (front ++ back) front (output [] k) ∧ ∀ fd, fd ≠ FD → (output [] k).get fd = k.get fd := by
  have hput : ∀ fd, (output [] k).get fd = if fd = FD then some d else k.get fd :=
    fun fd => Kernel.get_dup2 hget fd
  refine ⟨⟨d, by rw [hput, if_pos rfl], ?_, ?_⟩, fun fd hfd => by rw [hput, if_neg hfd]⟩
  · rw [show output [] k = k.dup2 (some 2) FD from rfl, Kernel.dup2_opened]
    exact hopened
  · rw [show output [] k = k.dup2 (some 2) FD from rfl, Kernel.dup2_files, hfile, List.drop_left]

/-- What was there stays before the log, and what the log has not reached after it. -/
theorem Holds.files {front back log : List Byte} (h : Holds file (front ++ back) (front ++ log) k) :
    k.files file = some (front ++ log ++ back.drop log.length) := by
  obtain ⟨-, -, -, hend⟩ := h
  rw [hend, List.drop_append, List.length_append]
  simp

end Apue.Logger

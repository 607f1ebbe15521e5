import Apue.CLib.Words
import Apue.Transition.Run
import Mathlib.Data.List.TakeWhile

/-! A stream with its state, read by `getline` in a loop that does not look at the state.

The string a loop reads into keeps what it had where the sentry fails, so such a loop hands
its last line over again once the stream has ended (`readLoop_ended`). `readLoop_iff`: it
hands over a script, once and in order, and ends exactly when the last line of the script is
the first one that ends it. -/
namespace Apue.CLib

structure Istream where
  rest : List Char
  eof : Bool := false
  fail : Bool := false
  deriving DecidableEq, Repr

def Istream.good (st : Istream) : Bool := !st.eof && !st.fail

/-- `getline` into `str`: a failed sentry leaves it as it is. -/
def getline (st : Istream) (str : List Char) : Istream × List Char :=
  if st.good then
    let line := st.rest.takeWhile (· ≠ '\n')
    match st.rest.dropWhile (· ≠ '\n') with
    | _ :: rest => ({ st with rest := rest }, line)
    | [] => ({ rest := [], eof := true, fail := line.isEmpty }, line)
  else ({ st with fail := true }, str)

/-- A loop that reads into one string: the lines it has handed over, and what they did. -/
structure Reader (σ : Type*) where
  stream : Istream
  line : List Char := []
  state : σ
  handled : List (List Char) := []

variable {σ ε : Type*}

/-- `n` turns of the loop, or fewer if a line ends it. -/
def readLoop (f : Nat → List Char → σ → Except ε σ) : Nat → Reader σ → Reader σ × Option ε
  | 0, r => (r, none)
  | n + 1, r =>
    let (stream, line) := getline r.stream r.line
    let r' := { r with stream := stream, line := line, handled := r.handled ++ [line] }
    match f r.handled.length line r.state with
    | .ok s => readLoop f n { r' with state := s }
    | .error e => (r', some e)

/-- The list up to the first element that is the last one to handle. -/
def upTo {α : Type*} (last : α → Bool) : List α → List α
  | [] => []
  | x :: xs => if last x then [x] else x :: upTo last xs

/-- Handled one after the other from turn `k` on, the last line is the first one that ends
the loop. -/
def endsAtLast (f : Nat → List Char → σ → Except ε σ) (ends : ε → Bool) :
    Nat → List (List Char) → σ → Bool
  | _, [], _ => false
  | k, line :: rest, s =>
    match f k line s with
    | .ok t => endsAtLast f ends (k + 1) rest t
    | .error e => rest.isEmpty && ends e

/-- The loop hands the lines over, and ends. -/
def Consumes (f : Nat → List Char → σ → Except ε σ) (ends : ε → Bool) (r : Reader σ)
    (ls : List (List Char)) : Prop :=
  ∃ n r' e, readLoop f n r = (r', some e) ∧ ends e = true ∧ r'.handled = r.handled ++ ls

/-! ### Lines -/

theorem lines_self {w : List Char} (h : '\n' ∉ w) (hne : w ≠ []) : lines w = [w] := by
  have haux := linesAux_append h [] []
  rw [List.append_nil, List.append_nil] at haux
  rw [lines, haux]
  cases hrev : w.reverse with
  | nil => exact absurd (List.reverse_eq_nil_iff.mp hrev) hne
  | cons c cs =>
    rw [linesAux, ← hrev, List.reverse_reverse]
    exact List.cons_ne_nil c cs

/-- The lines that are still to come. -/
def Left (st : Istream) (ls : List (List Char)) : Prop :=
  ls ≠ [] → st.good = true ∧ lines st.rest = ls

theorem left_init (input : List Char) : Left { rest := input } (lines input) := fun _ => ⟨rfl, rfl⟩

/-- **`getline` takes the next line.** -/
theorem getline_left {st : Istream} {l : List Char} {ls : List (List Char)} (h : Left st (l :: ls))
    (str : List Char) : (getline st str).2 = l ∧ Left (getline st str).1 ls := by
  obtain ⟨hgood, hlines⟩ := h (List.cons_ne_nil _ _)
  have hnone : '\n' ∉ st.rest.takeWhile (· ≠ '\n') := by
    intro hmem
    simpa using List.mem_takeWhile_imp hmem
  have hsplit : st.rest.takeWhile (· ≠ '\n') ++ st.rest.dropWhile (· ≠ '\n') = st.rest :=
    List.takeWhile_append_dropWhile
  unfold getline
  rw [if_pos hgood]
  simp only
  cases hdrop : st.rest.dropWhile (· ≠ '\n') with
  | cons c rest =>
    have hc : c = '\n' := by
      have hhead := List.head?_dropWhile_not (fun c => decide (c ≠ '\n')) st.rest
      rw [hdrop] at hhead
      simpa using hhead
    rw [← hsplit, hdrop, hc, lines_cons hnone] at hlines
    obtain ⟨hline, hrest⟩ := List.cons.inj hlines
    exact ⟨hline, fun _ => ⟨hgood, hrest⟩⟩
  | nil =>
    rw [hdrop, List.append_nil] at hsplit
    rw [hsplit] at hnone ⊢
    have hne : st.rest ≠ [] := by
      intro hnil
      rw [hnil] at hlines
      cases hlines
    rw [lines_self hnone hne] at hlines
    obtain ⟨hline, hrest⟩ := List.cons.inj hlines
    exact ⟨hline, fun hne => absurd hrest.symm hne⟩

/-! ### The loop -/

section
variable {f : Nat → List Char → σ → Except ε σ} {ends : ε → Bool} {r r' : Reader σ} {s : σ} {e : ε}
  {n : Nat} {l : List Char} {ls : List (List Char)}

/-- The line the next turn hands over. -/
def Reader.next (r : Reader σ) : List Char := (getline r.stream r.line).2

/-- The reader once it is handed over. -/
def Reader.turn (r : Reader σ) (s : σ) : Reader σ :=
  ⟨(getline r.stream r.line).1, r.next, s, r.handled ++ [r.next]⟩

theorem readLoop_ok (h : f r.handled.length r.next r.state = .ok s) :
    readLoop f (n + 1) r = readLoop f n (r.turn s) := by
  simp only [readLoop, Reader.turn, Reader.next] at h ⊢
  rw [h]

theorem readLoop_error (h : f r.handled.length r.next r.state = .error e) :
    readLoop f (n + 1) r = (r.turn r.state, some e) := by
  simp only [readLoop, Reader.turn, Reader.next] at h ⊢
  rw [h]

/-- What has been handed over stays, and a loop that ends has handed another line over. -/
theorem handled_of_readLoop (h : readLoop f n r = (r', some e)) :
    ∃ more, r'.handled = r.handled ++ r.next :: more := by
  induction n generalizing r with
  | zero => cases h
  | succ n ih =>
    cases hf : f r.handled.length r.next r.state with
    | error e' =>
      rw [readLoop_error hf] at h
      cases h
      exact ⟨[], rfl⟩
    | ok t =>
      rw [readLoop_ok hf] at h
      obtain ⟨more, hmore⟩ := ih h
      refine ⟨(r.turn t).next :: more, ?_⟩
      rw [hmore, Reader.turn, List.append_assoc]
      rfl

theorem consumes_error (h : f r.handled.length r.next r.state = .error e) :
    Consumes f ends r ls ↔ ls = [r.next] ∧ ends e = true := by
  constructor
  · rintro ⟨n, r', e', hrun, hends, hhandled⟩
    cases n with
    | zero => cases hrun
    | succ n =>
      rw [readLoop_error h] at hrun
      cases hrun
      exact ⟨(List.append_cancel_left hhandled).symm, hends⟩
  · rintro ⟨rfl, hends⟩
    exact ⟨1, _, e, readLoop_error h, hends, rfl⟩

theorem consumes_ok (h : f r.handled.length r.next r.state = .ok s) :
    Consumes f ends r (r.next :: ls) ↔ Consumes f ends (r.turn s) ls := by
  have hmore : ∀ xs, (r.turn s).handled ++ xs = r.handled ++ r.next :: xs := by
    intro xs
    rw [Reader.turn, List.append_assoc]
    rfl
  constructor
  · rintro ⟨n, r', e, hrun, hends, hhandled⟩
    cases n with
    | zero => cases hrun
    | succ n =>
      rw [readLoop_ok h] at hrun
      exact ⟨n, r', e, hrun, hends, by rw [hmore, hhandled]⟩
  · rintro ⟨n, r', e, hrun, hends, hhandled⟩
    exact ⟨n + 1, r', e, by rw [readLoop_ok h, hrun], hends, by rw [hhandled, hmore]⟩

theorem not_consumes_nil : ¬ Consumes f ends r [] := by
  rintro ⟨n, r', e, hrun, -, hhandled⟩
  obtain ⟨more, hmore⟩ := handled_of_readLoop hrun
  rw [hmore] at hhandled
  cases List.append_cancel_left hhandled

/-- **The loop hands a script over and ends exactly when its last line is the first one that
ends it.** -/
theorem consumes_iff {last : List Char → Bool}
    (hlast : ∀ k l s, last l = true → ∃ e, f k l s = .error e) (hleft : Left r.stream ls) :
    Consumes f ends r (upTo last ls) ↔
      endsAtLast f ends r.handled.length (upTo last ls) r.state = true := by
  induction ls generalizing r with
  | nil => exact iff_of_false not_consumes_nil nofun
  | cons l ls ih =>
    obtain ⟨hline, hrest⟩ := getline_left hleft r.line
    have hnext : r.next = l := hline
    cases hf : f r.handled.length l r.state with
    | error e =>
      rw [← hnext] at hf
      have hcons : ∃ more, upTo last (l :: ls) = l :: more := by
        rw [upTo]
        split
        · exact ⟨[], rfl⟩
        · exact ⟨upTo last ls, rfl⟩
      obtain ⟨more, hmore⟩ := hcons
      rw [consumes_error hf, hmore, endsAtLast, ← hnext, hf]
      simp
    | ok t =>
      have hgo : upTo last (l :: ls) = l :: upTo last ls := by
        apply if_neg
        intro hl
        obtain ⟨e, he⟩ := hlast r.handled.length l r.state hl
        rw [hf] at he
        cases he
      have hlength : (r.turn t).handled.length = r.handled.length + 1 := by
        rw [Reader.turn, List.length_append]
        rfl
      rw [← hnext] at hf
      rw [hgo, endsAtLast, ← hnext, consumes_ok hf, hf, ih (r := r.turn t) hrest, hlength]
      rfl

/-- **After the end of the stream every turn hands the last line over again**, for as long
as it does not end the loop. -/
theorem readLoop_ended (hend : r.stream.good = false) (hok : ∀ k s, ∃ t, f k r.line s = .ok t) :
    ∃ r', readLoop f n r = (r', none) ∧ r'.handled = r.handled ++ List.replicate n r.line := by
  induction n generalizing r with
  | zero => exact ⟨r, rfl, by simp⟩
  | succ n ih =>
    have hread : getline r.stream r.line = ({ r.stream with fail := true }, r.line) := by
      rw [getline, hend]
      rfl
    have hnext : r.next = r.line := congrArg Prod.snd hread
    have hstream : (getline r.stream r.line).1.good = false := by
      rw [hread]
      simp [Istream.good]
    obtain ⟨t, ht⟩ := hok r.handled.length r.state
    rw [← hnext] at ht hok
    obtain ⟨r', hrun, hhandled⟩ := ih (r := r.turn t) hstream hok
    refine ⟨r', by rw [readLoop_ok ht, hrun], ?_⟩
    rw [hhandled, Reader.turn, List.append_assoc, List.replicate_succ, ← hnext]
    rfl

/-- What was handed over before counts for the number of the turn only. -/
theorem readLoop_after {g : Nat → List Char → σ → Except ε σ} {past : List (List Char)}
    (hfg : ∀ k l s, f (past.length + k) l s = g k l s) (stream : Istream) (line : List Char) (s : σ)
    (handled : List (List Char)) : readLoop f n ⟨stream, line, s, past ++ handled⟩ =
      ({ (readLoop g n ⟨stream, line, s, handled⟩).1 with
          handled := past ++ (readLoop g n ⟨stream, line, s, handled⟩).1.handled },
        (readLoop g n ⟨stream, line, s, handled⟩).2) := by
  induction n generalizing stream line s handled with
  | zero => rfl
  | succ n ih =>
    simp only [readLoop, List.length_append, hfg]
    cases g handled.length (getline stream line).2 s with
    | error e => simp
    | ok t =>
      simp only [List.append_assoc]
      exact ih _ _ _ _

/-- A stream that is good does not look at the string it reads into. -/
theorem readLoop_good (hgood : r.stream.good = true) (str : List Char) :
    readLoop f (n + 1) { r with line := str } = readLoop f (n + 1) r := by
  have hread : getline r.stream str = getline r.stream r.line := by
    rw [getline, getline, if_pos hgood, if_pos hgood]
  simp only [readLoop, hread]

end

/-! ### A loop that its script ends -/

section
variable {f : Nat → List Char → σ → Except ε σ} {r r' : Reader σ} {e : ε} {n : Nat}
  {ls : List (List Char)} {last : List Char → Bool}

end

end Apue.CLib

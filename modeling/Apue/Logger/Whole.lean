import Apue.Logger.CommandLine
import Apue.Logger.Readback

/-! The logger as a whole.

`launch` is `main` with its descriptors. The traced program starts with what `launch` leaves of
them, the calls it makes may change them, and the records are written to descriptor 5.
`launch_logs`: from the command line to the end of a program that leaves the log alone every
record is where the command line says, and what is there tells the calls. -/
namespace Apue.Logger
open CLib Memory Posix Shell Transition

variable {ρ : Type}

/-- `main`, up to where the shell is told what to run. -/
def launch (argv : List CString) (k : Kernel (List Char)) :
    Except String (Kernel (List Char) × Option Command) :=
  match cmdParser (argv.map CString.chars) .initial with
  | .error e => .error e
  | .ok l => .ok (output l.output_file k, system (concat_cmd l.so_path l.cmd))

/-- The shell is told what it is told without the descriptors. -/
theorem launch_main (argv : List CString) (k : Kernel (List Char)) :
    (launch argv k).map Prod.snd = main argv := by
  unfold launch main
  cases cmdParser (argv.map CString.chars) .initial <;> rfl

/-- Where the log goes: to the file of `-o` from its start, or on where `stderr` is. Before it
there is `front` in the file, and `back` is what it is written over. -/
inductive Destined (k : Kernel (List Char)) : List Char → List Char → List Byte → List Byte → Prop where
  | named {file : List Char} : file ≠ [] → k.permits file = true → lowest k.table ≠ FD →
      Destined k file file [] ((k.files file).getD [])
  | standard {file : List Char} {d : Nat} {front back : List Byte} : k.get 2 = some d →
      k.opened[d]? = some ⟨file, front.length⟩ → k.files file = some (front ++ back) →
      Destined k [] file front back

theorem Destined.output {k : Kernel (List Char)} {output_file file : List Char} {front back : List Byte}
    (h : Destined k output_file file front back) :
    Holds file (front ++ back) front (output output_file k) ∧
      ∀ fd, fd ≠ FD → (output output_file k).get fd = k.get fd := by
  cases h with
  | named hne hopen hfree => exact (output_eq hopen hne).1 hfree
  | standard hget hopened hfile => exact standard_eq hget hopened hfile

/-- **From its command line to the end of the program**, the logger leaves the other descriptors
alone, and of a program that leaves the log where it is all records are whole and in order where
the command line says, over what was there behind it. If nothing else is written there it is a
line for each call, and what is legible of a new file tells the calls. -/
theorem launch_logs {argv : List CString} {sp : Spelling} (hsp : sp.Proper optstring)
    (hargv : sp.argv = (argv.map CString.chars).tail) {k : Kernel (List Char)} {file : List Char}
    {front back : List Byte} (hdest : Destined k (Spelled sp).output_file file front back) :
    ∃ k₁ c, launch argv k = .ok (k₁, c) ∧ (∀ fd, fd ≠ FD → k₁.get fd = k.get fd) ∧
      ∀ (libc : Libc (Traced ρ)) l t, Ran libc k₁ l t →
        t.env.rest.1.files file =
          some (front ++ history libc l ++ back.drop (history libc l).length) ∧
        (Silent l → Lined (calls l) (history libc l) ∧
          (back = [] → (∀ r ∈ records libc l, r.Legible) → ∀ (libc' : Libc (Traced ρ)) l' t',
            Ran libc' k₁ l' t' → Silent l' →
              t'.env.rest.1.files file = t.env.rest.1.files file →
                records libc' l' = records libc l)) := by
  obtain ⟨hstart, hothers⟩ := hdest.output
  have hlaunch : launch argv k = .ok (output (Spelled sp).output_file k,
      system (concat_cmd (Spelled sp).so_path sp.operands)) := by
    rw [launch, cmdParser_spelled hsp hargv]
    rfl
  refine ⟨_, _, hlaunch, hothers, fun libc l t hran => ⟨hran.files hstart, fun hsilent => ⟨?_, ?_⟩⟩⟩
  · rw [history_silent hsilent]
    exact records_lined libc l
  · rintro rfl hlegible libc' l' t' hran' hsilent' hsame
    exact hran.tells hsilent hstart hlegible hran' hsilent' hsame

/-- A program that reads the line in its memory. -/
theorem launch_logs_typed : ∃ k₁ c l t,
    launch [cstring "logger", cstring "-of", cstring "cat"] (running 3 []) = .ok (k₁, c) ∧
      Ran closing k₁ l t ∧
      t.env.rest.1.files ['f'] = some (ascii "[logger] read(\"pipe:[7]\", \"a.\", 2) = 2\n") := by
  let sp : Spelling := ⟨[.attached 'o' ['f'], .operand "cat".toList], none⟩
  have hsp : sp.Proper optstring := by
    simp only [Spelling.Proper, sp, List.forall_mem_cons]
    exact ⟨⟨by decide, by decide⟩, by decide, nofun⟩
  have hargv : sp.argv = ([cstring "logger", cstring "-of", cstring "cat"].map CString.chars).tail := by
    decide +kernel
  have hdest : Destined (running 3 []) (Spelled sp).output_file ['f'] [] [] :=
    .named (by decide) rfl (by decide)
  obtain ⟨k₁, c, hlaunch, -, hruns⟩ := launch_logs (ρ := Unit) hsp hargv hdest
  obtain rfl : output ['f'] (running 3 []) = k₁ := by
    rw [launch, cmdParser_spelled hsp hargv] at hlaunch
    exact congrArg Prod.fst (Except.ok.inj hlaunch)
  let call : Call := ⟨.read, [0, 0x1000, 2]⟩
  have hrecord : (call.record closing (init tracedLine)).text =
      ascii "[logger] read(\"pipe:[7]\", \"a.\", 2) = 2\n" := by
    decide +kernel
  have hact : Deed.act closing (.call call [] []) (init tracedLine) = .ok _ :=
    act_call_iff.mpr ⟨by decide +kernel, by decide +kernel, rfl⟩
  have hran : Ran closing (output ['f'] (running 3 [])) [⟨init tracedLine, .call call [] [], _⟩] _ :=
    ⟨⟨tracedLine, rfl, .cons hact .nil⟩, List.forall_mem_singleton.mpr (says_nothing _),
      List.forall_mem_singleton.mpr rfl, List.forall_mem_singleton.mpr (by decide +kernel)⟩
  refine ⟨_, c, _, _, hlaunch, hran, ?_⟩
  rw [(hruns closing _ _ hran).1]
  simp [history, Deed.said, Deed.records, hrecord]

end Apue.Logger

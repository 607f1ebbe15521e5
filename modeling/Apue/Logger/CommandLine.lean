import Apue.CLib.Arguments
import Apue.Logger.Launch
import Apue.Transition.Run

/-! The logger's command lines.

`getopt` looks for options among the arguments of the traced command, too, up to a `--`.
`parses_iff`: the logger goes on exactly with the command lines that are spelled by `-p`, `-o`
and operands, and then the last of each option counts and the operands are the command. -/
namespace Apue.Logger
open CLib Shell

def optstring : List Char := "p:o:".toList

theorem takesArgument_iff {c : Char} {b : Bool} :
    takesArgument optstring c = some b ↔ (c = 'p' ∨ c = 'o') ∧ b = true := by
  have hchars : optstring = ['p', ':', 'o', ':'] := by decide
  by_cases hp : c = 'p'
  · subst hp
    simp [hchars, takesArgument, eq_comm]
  by_cases ho : c = 'o'
  · subst ho
    simp [hchars, takesArgument, eq_comm]
  have hcolon : ¬ (':' = c ∧ c ≠ ':') := fun h => h.2 h.1.symm
  simp [hchars, takesArgument, hp, ho, Ne.symm hp, Ne.symm ho, hcolon]

/-- The locals that a command line leaves. -/
def Spelled (sp : Spelling) : Locals :=
  ⟨(sp.last 'p').getD Locals.initial.so_path, (sp.last 'o').getD [], sp.operands⟩

theorem noNul_spelled {argv : List CString} {sp : Spelling} (h : sp.argv = (argv.map CString.chars).tail)
    {a : List Char} (ha : a ∈ sp.operands ∨ ∃ c, (c, a) ∈ sp.options) : '\x00' ∉ a := by
  obtain ⟨s, hs, hsuffix⟩ := Spelling.suffix_of_mem ha
  rw [h] at hs
  obtain ⟨arg, -, rfl⟩ := List.mem_map.mp (List.mem_of_mem_tail hs)
  exact fun hmem => arg.noNul (hsuffix.subset hmem)

/-! ### The options -/

/-- The last argument of each option is kept. -/
theorem foldlM_option (os : List (Char × List Char)) (hos : ∀ o ∈ os, o.1 = 'p' ∨ o.1 = 'o')
    (l : Locals) : (os.map fun o => Opt.opt o.1 (some o.2)).foldlM Locals.option l = .ok
      { l with
        so_path := (((os.filter fun o => o.1 = 'p').map Prod.snd).getLast?).getD l.so_path
        output_file := (((os.filter fun o => o.1 = 'o').map Prod.snd).getLast?).getD l.output_file } := by
  induction os generalizing l with
  | nil => rfl
  | cons o os ih =>
    obtain ⟨ho, hos'⟩ := List.forall_mem_cons.mp hos
    obtain ⟨c, a⟩ := o
    rw [List.map_cons, List.foldlM_cons]
    rcases ho with rfl | rfl
    · show (os.map _).foldlM Locals.option { l with so_path := a } = _
      rw [ih hos']
      simp [List.getLast?_cons]
    · show (os.map _).foldlM Locals.option { l with output_file := a } = _
      rw [ih hos']
      simp [List.getLast?_cons]

/-- Anything but an option with its argument ends the logger. -/
theorem foldlM_option_ok {opts : List Opt} {l l' : Locals}
    (h : opts.foldlM Locals.option l = .ok l') : ∀ o ∈ opts, ∃ c a, o = .opt c (some a) := by
  induction opts generalizing l with
  | nil => exact fun o ho => absurd ho List.not_mem_nil
  | cons o opts ih =>
    rw [List.foldlM_cons] at h
    obtain ⟨l₁, hl₁, hrest⟩ := Transition.bind_ok.mp h
    refine List.forall_mem_cons.mpr ⟨?_, ih hrest⟩
    unfold Locals.option at hl₁
    split at hl₁
    case h_1 optarg => exact ⟨'p', optarg, rfl⟩
    case h_2 optarg => exact ⟨'o', optarg, rfl⟩
    case h_3 => cases hl₁

theorem cmdParser_spelled {argv : List (List Char)} {sp : Spelling} (hsp : sp.Proper optstring)
    (h : sp.argv = argv.tail) : cmdParser argv .initial = .ok (Spelled sp) := by
  have hos : ∀ o ∈ sp.options, o.1 = 'p' ∨ o.1 = 'o' := by
    intro o ho
    obtain ⟨i, hi, hio⟩ := List.mem_filterMap.mp ho
    have hproper := hsp i hi
    cases i with
    | operand => cases hio
    | separate c a | attached c a =>
      obtain rfl := Option.some.inj hio
      exact (takesArgument_iff.mp hproper.1).1
  have hget := getopt_spell optstring hsp
  rw [h] at hget
  simp only [cmdParser]
  rw [show "p:o:".toList = optstring from rfl, hget]
  simp only [foldlM_option sp.options hos]
  rfl

/-- The logger goes on with the command lines that items spell, and no others. -/
theorem cmdParser_iff {argv : List (List Char)} {l : Locals} : cmdParser argv .initial = .ok l ↔
    ∃ sp : Spelling, sp.Proper optstring ∧ sp.argv = argv.tail ∧ l = Spelled sp := by
  constructor
  · intro h
    have haccepted : Accepted optstring argv.tail := by
      simp only [cmdParser] at h
      split at h
      case h_1 => cases h
      case h_2 l₁ hl₁ => exact foldlM_option_ok hl₁
    obtain ⟨sp, hsp, hargv⟩ :=
      (accepted_iff fun c b hc => (takesArgument_iff.mp hc).2).mp haccepted
    rw [cmdParser_spelled hsp hargv] at h
    exact ⟨sp, hsp, hargv, (Except.ok.inj h).symm⟩
  · rintro ⟨sp, hsp, hargv, rfl⟩
    exact cmdParser_spelled hsp hargv

/-! ### The shell -/

/-- Strings without a NUL reach the shell whole. -/
theorem system_words {so_path : List Char} {cmd : List (List Char)} (hso : '\x00' ∉ so_path)
    (hcmd : ∀ a ∈ cmd, '\x00' ∉ a) :
    system (concat_cmd so_path cmd) = read (join ((preload ++ '=' :: so_path) :: cmd)) := by
  have hnoNul : ∀ c ∈ join ((preload ++ '=' :: so_path) :: cmd), c ≠ '\x00' := by
    rintro c hc rfl
    obtain ⟨w, hw, hc⟩ := List.mem_flatMap.mp hc
    have hc : '\x00' ∈ w := by simpa using hc
    rcases List.mem_cons.mp hw with rfl | hw
    · have hpreload : '\x00' ∉ preload := by decide
      simp [hpreload, hso] at hc
    · exact hcmd w hw hc
  rw [system, concat_cmd_eq, List.takeWhile_eq_self_iff.mpr fun c hc => bne_iff_ne.mpr (hnoNul c hc)]

/-- **The logger starts exactly with a command line that `-p`, `-o` and operands spell; then
the shell runs the operands, with the library that the last `-p` names, exactly when it takes
these strings as they are written.** -/
theorem parses_iff (argv : List CString) :
    ((∃ c, main argv = .ok c) ↔
      ∃ sp : Spelling, sp.Proper optstring ∧ sp.argv = (argv.map CString.chars).tail) ∧
    ∀ sp : Spelling, sp.Proper optstring → sp.argv = (argv.map CString.chars).tail →
      (main argv = .ok (some ⟨[(preload, (Spelled sp).so_path)], sp.operands⟩) ↔
        AsWritten (Spelled sp).so_path sp.operands) := by
  have hmain : ∀ sp : Spelling, sp.Proper optstring → sp.argv = (argv.map CString.chars).tail →
      main argv = .ok (system (concat_cmd (Spelled sp).so_path sp.operands)) := by
    intro sp hsp hargv
    rw [main, cmdParser_spelled hsp hargv]
    rfl
  refine ⟨⟨?_, ?_⟩, fun sp hsp hargv => ?_⟩
  · rintro ⟨c, hc⟩
    rw [main] at hc
    split at hc
    case h_1 => cases hc
    case h_2 l hl =>
      obtain ⟨sp, hsp, hargv, -⟩ := cmdParser_iff.mp hl
      exact ⟨sp, hsp, hargv⟩
  · rintro ⟨sp, hsp, hargv⟩
    exact ⟨_, hmain sp hsp hargv⟩
  · have hname : Shell.name (bare preload) = true := by decide
    have hso : '\x00' ∉ (Spelled sp).so_path := by
      show '\x00' ∉ (sp.last 'p').getD Locals.initial.so_path
      cases hlast : sp.last 'p' with
      | none => decide
      | some a => exact noNul_spelled hargv (.inr ⟨'p', Spelling.mem_of_last hlast⟩)
    rw [hmain sp hsp hargv, system_words hso fun a ha => noNul_spelled hargv (.inl ha),
      ← read_assign hname]
    exact ⟨fun h => Except.ok.inj h, fun h => congrArg Except.ok h⟩

/-- Options among the operands are the logger's; those after `--` are not. -/
example : (Spelling.mk [.operand "ls".toList, .attached 'o' "log".toList,
    .separate 'p' "l.so".toList] (some ["-p".toList])).argv =
      ["ls".toList, "-olog".toList, "-p".toList, "l.so".toList, "--".toList, "-p".toList] := by decide

end Apue.Logger

import Apue.Logger.Errno

/-! How file names are logged.

A file name is a `const char*`. It would take a constructor to make it the `std::string` of the
overload that resolves paths, and takes a conversion only to make it a pointer to anything: it
is logged as it is. `file_name_iff`: the field is the resolved path exactly when there is none
or it reads like the name. -/
namespace Apue.Logger
open Memory CLib Transition

variable {ρ : Type}

/-- What the overload for strings is for: the path behind a name, or the name. -/
def Process.fileName (p : Process ρ) (name : List Byte) : List Byte :=
  match p.realpath name with
  | .ok path => quoted path.bytes
  | .error _ => quoted name

theorem fileName_eq_iff (p : Process ρ) (name : List Byte) : quoted name = p.fileName name ↔
    ∀ path, p.realpath name = .ok path → quoted path.bytes = quoted name := by
  unfold Process.fileName
  cases p.realpath name with
  | ok path => simp [eq_comm]
  | error e => simp

/-- An argument with this tag is a `const char*`. -/
theorem file_name_param {f : Symbol} {i : Nat} (h : f.tags[i]? = some "file_name") :
    f.wrapper.func.params[i]? = some .constCharPtr := by
  cases f <;> rcases i with _ | _ | _ | _ | i <;> simp [Symbol.tags] at h <;> rfl

theorem logged_get {c : Call} {i : Nat} {tag : String} {type : CType} {v : Value}
    (htag : c.func.tags[i]? = some tag) (htype : c.func.wrapper.func.params[i]? = some type)
    (harg : c.args[i]? = some v) : c.logged[i]? = some ⟨tag, type, v⟩ := by
  have hzip : (c.func.tags.zip (c.func.wrapper.func.params.zip c.args))[i]? = some (tag, type, v) := by
    simp [List.getElem?_zip_eq_some, htag, htype, harg]
  rw [Call.logged, List.getElem?_map, hzip]
  rfl

/-- **A field for a file name is the resolved path exactly when the path cannot be resolved or
reads like the name.** -/
theorem file_name_iff {libc : Libc (Process ρ)} {c : Call} {s t : State (Process ρ)} {ret : Value}
    {r : Record} {i : Nat} {v : Value} {name : List Byte} (h : c.run libc s = some (ret, t, r))
    (htag : c.func.tags[i]? = some "file_name") (harg : c.args[i]? = some v)
    (hname : stringAt t.env.mem v = some name) :
    r.fields[i]? = some (t.env.fileName name) ↔
      ∀ path, t.env.realpath name = .ok path → quoted path.bytes = quoted name := by
  obtain ⟨-, -, -, rfl, rfl⟩ := run_iff.mp h
  obtain ⟨e, he⟩ := c.after_env libc s
  have hmem : (c.after libc s).env.mem = (c.left libc s).mem := by rw [he]
  have hfclose : c.func ≠ .fclose := by
    intro hfunc
    rw [hfunc] at htag
    rcases i with _ | i
    · exact absurd htag (by decide)
    · cases htag
  have hearly : c.early = [] := if_neg hfclose
  have hlate : c.late = c.logged := if_neg hfclose
  have hfield : (c.record libc s).fields[i]? = some (quoted name) := by
    rw [hmem] at hname
    simp only [Call.record, hearly, hlate, List.map_nil, List.nil_append, List.getElem?_map,
      logged_get htag (file_name_param htag) harg, Option.map_some]
    rw [Arg.text_ptr resolution_spec.1 hname]
  rw [hfield, Option.some.injEq]
  exact fileName_eq_iff _ name

/-- A process with the names `f` and `/f` in memory, where `f` is `/f`. -/
def homed : Process Unit :=
  { bare with
    mem := fun a => if a = 0x1000 then some 0x2f else if a = 0x1001 then some 0x66
      else if a = 0x1002 then some 0 else none
    realpath := fun _ => .ok ⟨ascii "/f", by decide +kernel⟩ }

/-- The name `/f` is its own path. -/
theorem file_name_absolute : ∃ t r, Call.run (leaving 0 homed) ⟨.chmod, [0x1000, 0x1a4]⟩ (init homed) =
    some (0, t, r) ∧ r.fields[0]? = some (t.env.fileName (ascii "/f")) := by
  have hthere : Call.There (leaving 0 homed) ⟨.chmod, [0x1000, 0x1a4]⟩ (init homed) := by decide +kernel
  have hrun := run_of_there hthere (by decide +kernel)
  refine ⟨_, _, hrun, (file_name_iff hrun rfl rfl (by decide +kernel)).mpr ?_⟩
  rintro _ ⟨⟩
  rfl

/-- The name `f` is logged as such. -/
theorem file_name_relative : ∃ t r, Call.run (leaving 0 homed) ⟨.chmod, [0x1001, 0x1a4]⟩ (init homed) =
    some (0, t, r) ∧ r.fields[0]? = some (quoted (ascii "f")) ∧
    t.env.realpath (ascii "f") = .ok ⟨ascii "/f", by decide +kernel⟩ ∧
    r.fields[0]? ≠ some (t.env.fileName (ascii "f")) := by
  have hthere : Call.There (leaving 0 homed) ⟨.chmod, [0x1001, 0x1a4]⟩ (init homed) := by decide +kernel
  have hrun := run_of_there hthere (by decide +kernel)
  exact ⟨_, _, hrun, by decide +kernel, rfl, by decide +kernel⟩

end Apue.Logger

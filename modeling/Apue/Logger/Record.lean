import Apue.CLib.Words
import Apue.Logger.Dispatch
import Apue.Memory.CString

/-! The records the wrappers write.

After its call (`fclose`: before it) a wrapper resolves its arguments to text: names and
buffers are quoted as strings in memory, descriptors and streams are looked up under
/proc/self/fd, which may set `errno`, numbers are formatted. `resolve` is overloaded, and the
type of the argument, not its tag, chooses the overload (`resolution_spec`). -/
namespace Apue.Logger
open Memory CLib Transition

/-! ### Text -/

def byteOfChar (c : Char) : Byte := BitVec.ofNat 8 c.toNat

def ascii (s : String) : List Byte := s.toList.map byteOfChar

/-- `isprint` of a byte in the C locale. -/
def printable (b : Byte) : Bool := 0x20 ≤ b && b ≤ 0x7e

def dot (b : Byte) : Byte := if printable b then b else byteOfChar '.'

/-- The loop of `quote`, at index `i`: an `int` that runs over leaves nothing to rely on. -/
def quoteFrom : Nat → List Byte → Option (List Byte)
  | _, [] => some []
  | i, b :: bs => if i + 1 = 2 ^ 31 then none else (quoteFrom (i + 1) bs).map (dot b :: ·)

def quote (s : List Byte) : Option (List Byte) :=
  (quoteFrom 0 s).map fun text => byteOfChar '"' :: (text ++ [byteOfChar '"'])

/-- `to_string` of an `int`, and `%d`. -/
def decimalInt (v : BitVec 32) : List Byte :=
  (if v.toInt < 0 then '-' :: decimal v.toInt.natAbs else decimal v.toInt.natAbs).map byteOfChar

/-- `%03o`. -/
def octal (v : BitVec 32) : List Byte :=
  let digits := Nat.toDigits 8 v.toNat
  (List.replicate (3 - digits.length) '0' ++ digits).map byteOfChar

/-- `%p`. -/
def pointer (v : Value) : List Byte :=
  if v = 0 then ascii "(nil)" else ascii "0x" ++ (Nat.toDigits 16 v.toNat).map byteOfChar

/-! ### The process -/

/-- A path as the kernel gives it: no byte of it is zero. -/
structure PathText where
  bytes : List Byte
  solid : 0 ∉ bytes

/-- What the wrappers and the C library see of the process; the library may depend on `rest`
too. -/
structure Process (ρ : Type) where
  mem : Pages
  errno : Nat
  /-- The `_fileno` of the stream at an address, if there is one. -/
  fileno : Value → Option (BitVec 32)
  readlink : List Byte → Except Nat PathText
  realpath : List Byte → Except Nat PathText
  rest : ρ

variable {ρ : Type}

/-- A read of a link or a path; where it fails it sets `errno`. -/
def Process.tried (p : Process ρ) : Except Nat PathText → Process ρ
  | .ok _ => p
  | .error e => { p with errno := e }

/-- `safe_readlink`: at most 1023 bytes of the target, or the path of the link. -/
def safeReadlink (linkPath : List Byte) (p : Process ρ) : List Byte × Process ρ :=
  match p.readlink linkPath with
  | .ok target => (target.bytes.take 1023, p.tried (.ok target))
  | .error e => (linkPath, p.tried (.error e))

/-- The link of a descriptor. -/
def fdPath (fd : BitVec 32) : List Byte := ascii "/proc/self/fd/" ++ decimalInt fd

/-! ### The overloads of `resolve`

Each gives its text and what becomes of the process, if the program goes on. -/

/-- `resolve(string, string)`. -/
def resolveString (fileName : List Byte) (p : Process ρ) : Option (List Byte × Process ρ) :=
  match p.realpath fileName with
  | .ok path => (quote path.bytes).map fun text => (text, p.tried (.ok path))
  | .error e => (quote fileName).map fun text => (text, p.tried (.error e))

/-- The text of a descriptor, quoted. -/
def resolveLink (fd : BitVec 32) (p : Process ρ) : Option (List Byte × Process ρ) :=
  let (target, p) := safeReadlink (fdPath fd) p
  (quote target).map fun text => (text, p)

/-- `resolve(string, FILE*)`. -/
def resolveStream (filePointer : Value) (p : Process ρ) : Option (List Byte × Process ρ) := do
  let fd ← p.fileno filePointer
  resolveLink fd p

/-- `resolve(string, const void*)`. -/
def resolvePtr (arg : Value) (p : Process ρ) : Option (List Byte × Process ρ) := do
  let s ← stringAt p.mem arg
  let text ← quote s
  some (text, p)

/-- `resolve(string, int)`. -/
def resolveInt (type : String) (arg : BitVec 32) (p : Process ρ) : Option (List Byte × Process ρ) :=
  if type = "fd" then resolveLink arg p
  else if type = "mode" ∨ type = "flag" then some (octal arg, p)
  else some (decimalInt arg, p)

inductive Overload where
  | string
  | filePtr
  | constVoidPtr
  | int
  deriving DecidableEq, Repr

/-- What an argument of a type takes to become the parameter of an overload, best first: an
exact match, a conversion, a conversion by a constructor. -/
def rank : CType → Overload → Option Nat
  | .filePtr, .filePtr => some 0
  | .voidPtr, .constVoidPtr | .constVoidPtr, .constVoidPtr => some 0
  | .int, .int => some 0
  | .filePtr, .constVoidPtr | .constCharPtr, .constVoidPtr => some 1
  | .unsignedInt, .int | .long, .int | .unsignedLong, .int => some 1
  | .constCharPtr, .string => some 2
  | _, _ => none

def overloads : List Overload := [.string, .filePtr, .constVoidPtr, .int]

/-- The one overload that ranks before all others. -/
def resolution (type : CType) : Option Overload :=
  overloads.find? fun o => (rank type o).isSome && overloads.all fun o' =>
    o' = o || match rank type o, rank type o' with
      | some r, some r' => decide (r < r')
      | _, _ => true

/-- **A `const char*` is resolved as a pointer to anything.** -/
theorem resolution_spec : resolution .constCharPtr = some .constVoidPtr ∧
    resolution .voidPtr = some .constVoidPtr ∧ resolution .constVoidPtr = some .constVoidPtr ∧
    resolution .filePtr = some .filePtr ∧ resolution .int = some .int ∧
    resolution .unsignedInt = some .int ∧ resolution .long = some .int ∧
    resolution .unsignedLong = some .int := by
  decide

/-- An argument to be logged: its tag, its type and its value. -/
structure Arg where
  tag : String
  type : CType
  value : Value
  deriving DecidableEq, Repr

def resolve (a : Arg) (p : Process ρ) : Option (List Byte × Process ρ) :=
  match resolution a.type with
  | some .string => do
    let fileName ← stringAt p.mem a.value
    resolveString fileName p
  | some .filePtr => resolveStream a.value p
  | some .constVoidPtr => resolvePtr a.value p
  | some .int => resolveInt a.tag (a.value.setWidth 32) p
  | none => none

/-- The arguments one after the other; the order they are resolved in is of no matter, at most
one of them looks a descriptor up. -/
def resolveAll : List Arg → Process ρ → Option (List (List Byte) × Process ρ)
  | [], p => some ([], p)
  | a :: rest, p => do
    let (text, p) ← resolve a p
    let (texts, p) ← resolveAll rest p
    some (text :: texts, p)

/-! ### Records -/

/-- The tags a wrapper passes to `resolve`, one for each of its arguments. -/
def Symbol.tags : Symbol → List String
  | .chmod | .creat | .creat64 => ["file_name", "mode"]
  | .chown => ["file_name", "", ""]
  | .close => ["fd"]
  | .fclose => ["file_pointer"]
  | .fopen => ["file_name", "mode"]
  | .fread | .fwrite => ["", "", "", "file_pointer"]
  | .open_ | .open64 => ["file_name", "flag", "mode"]
  | .read | .write => ["fd", "", ""]
  | .rename => ["file_name", "file_name"]
  | .tmpfile | .tmpfile64 => []

/-- `__func__`. -/
def Symbol.func : Symbol → String
  | .chmod => "chmod"
  | .chown => "chown"
  | .close => "close"
  | .creat => "creat"
  | .creat64 => "creat64"
  | .fclose => "fclose"
  | .fopen => "fopen"
  | .fread => "fread"
  | .fwrite => "fwrite"
  | .open_ => "open"
  | .open64 => "open64"
  | .read => "read"
  | .rename => "rename"
  | .tmpfile => "tmpfile"
  | .tmpfile64 => "tmpfile64"
  | .write => "write"

/-- The result as it is printed: `%p` of `fopen`, `%d` of the others, which takes the low half
of a pointer or a `size_t`. -/
def Symbol.result (f : Symbol) (ret : Value) : List Byte :=
  if f = .fopen then pointer ret else decimalInt (ret.setWidth 32)

def Call.logged (c : Call) : List Arg :=
  (c.func.tags.zip (c.func.wrapper.func.params.zip c.args)).map fun e => ⟨e.1, e.2.1, e.2.2⟩

/-- What is resolved before the call. -/
def Call.early (c : Call) : List Arg := if c.func = .fclose then c.logged else []

/-- What is resolved after it. -/
def Call.late (c : Call) : List Arg := if c.func = .fclose then [] else c.logged

structure Record where
  func : Symbol
  fields : List (List Byte)
  ret : List Byte
  deriving DecidableEq, Repr

/-- What `dprintf` formats. -/
def Record.text (r : Record) : List Byte :=
  ascii "[logger] " ++ ascii r.func.func ++ ascii "(" ++ (r.fields.intersperse (ascii ", ")).flatten ++
    ascii ") = " ++ r.ret ++ ascii "\n"

/-- A call as the wrapper makes it, with the record that it gives to `dprintf`. It returns,
whatever becomes of that record, if all the strings and streams it resolves are there and
`quote` gets to the end of them; the state is the one that `dprintf` finds. -/
def Call.run (libc : Libc (Process ρ)) (c : Call) (s : State (Process ρ)) :
    Option (Value × State (Process ρ) × Record) := do
  let (early, env) ← resolveAll c.early s.env
  let (ret, s) := c.func.wrapper.call libc c.args { s with env := env }
  let (late, env) ← resolveAll c.late s.env
  some (ret, { s with env := env }, ⟨c.func, early ++ late, c.func.result ret⟩)

end Apue.Logger

import Apue.CLib.Words

/-! How `lsof` scans a process.

The file system is a `Sys`. A function of the source that takes `int &err` takes the old
value and gives the new one, where 1 is an error and -1 a permission that is missing; the
global `inode_pool` is passed the same way. -/
namespace Apue.Lsof
open CLib

abbrev Text := List Char

abbrev Errno := Nat

def eacces : Errno := 13

structure Stat where
  st_mode : Nat
  st_ino : BitVec 64
  deriving DecidableEq, Repr

/-- What `get_from_stat` is asked for. -/
inductive Target where
  | type | node | mode
  deriving DecidableEq, Repr

/-- The file system. A file may be asked for several times, with one answer for each
purpose: `stat` is given the target and whether it goes through a link. -/
structure Sys where
  /-- The content of a file that can be opened. -/
  read : Text → Option Text
  readlink : Text → Except Errno Text
  stat : Target → Bool → Text → Except Errno Stat
  getpwuid : Nat → Option Text
  /-- The names in a directory that can be opened. -/
  readdir : Text → Option (List Text)

structure File where
  fd : Text := []
  type : Text := []
  node : Text := []
  name : Text := []
  deriving DecidableEq, Repr

structure Process where
  command : Text := []
  pid : Text := []
  user : Text := []
  files : List File := []
  deriving DecidableEq, Repr

def isdigit (c : Char) : Bool := decide ('0' ≤ c ∧ c ≤ '9')

def isNumber (s : Text) : Bool := s.all isdigit

/-! ### The owner -/

def getCommand (sys : Sys) (pidPath : Text) : Text × Int :=
  match sys.read (pidPath ++ "/comm".toList) with
  | none => ([], 1)
  | some content => ((lines content).headD [], 0)

/-- The number on the first line that begins with `Uid`, as `stoi` reads it. -/
def uidOf : List Text → Option Text
  | [] => none
  | line :: rest =>
    if line.take 3 = "Uid".toList then (words line).find? isNumber else uidOf rest

/-- `uid_t` is unsigned, and so is the -1 of an error. -/
def getUid (sys : Sys) (pidPath : Text) : Except StoiError (Nat × Int) :=
  match sys.read (pidPath ++ "/status".toList) with
  | none => .ok (2 ^ 32 - 1, 1)
  | some content =>
    match uidOf (lines content) with
    | some buf => (stoi (String.ofList buf)).map fun n => ((n % 2 ^ 32).toNat, 0)
    | none => .ok (2 ^ 32 - 1, 1)

def getUser (sys : Sys) (pidPath : Text) : Except StoiError (Text × Int) := do
  let (uid, err) ← getUid sys pidPath
  if err = 1 then return ([], err)
  match sys.getpwuid uid with
  | none => return ([], 1)
  | some name => return (name, err)

/-! ### Links and stats -/

def bufSize : Nat := 1024

/-- The buffer is read back as a C string. -/
def safeReadlink (sys : Sys) (linkPath : Text) : Text × Int :=
  match sys.readlink linkPath with
  | .ok target => ((target.take (bufSize - 1)).takeWhile (· != '\x00'), 0)
  | .error errno =>
    if errno = eacces then (linkPath ++ " (Permission denied)".toList, -1) else ([], 1)

def sIFMT : Nat := 0o170000

def typeOf (mode : Nat) : Text :=
  if mode &&& sIFMT = 0o020000 then "CHR".toList
  else if mode &&& sIFMT = 0o040000 then "DIR".toList
  else if mode &&& sIFMT = 0o010000 then "FIFO".toList
  else if mode &&& sIFMT = 0o100000 then "REG".toList
  else if mode &&& sIFMT = 0o140000 then "SOCK".toList
  else "unknown".toList

def modeOf (mode : Nat) : Text :=
  let r := if mode &&& 0o400 ≠ 0 then "r".toList else []
  if mode &&& 0o200 ≠ 0 then (if r = "r".toList then "u".toList else "w".toList) else r

def getFromStat (sys : Sys) (filePath : Text) (target : Target) (throughLink : Bool) (err : Int) :
    Text × Int :=
  match sys.stat target throughLink filePath with
  | .error _ =>
    -- the source assigns: `if (errno = EACCES)`
    if eacces ≠ 0 then (if target = .type then "unknown".toList else [], -1) else ([], 1)
  | .ok buf =>
    match target with
    | .type => (typeOf buf.st_mode, err)
    | .node => (decimal buf.st_ino.toNat, err)
    | .mode => (modeOf buf.st_mode, err)

/-- The first word. -/
def clearDeleted (filename : Text) : Text := (words filename).headD []

/-! ### Files -/

def getSpecialFile (sys : Sys) (pool : List Text) (filePath fd : Text) : File × Int × List Text :=
  let (link, err) := safeReadlink sys filePath
  let name := clearDeleted link
  if err = 1 then ({}, err, pool)
  else
    let (type, err) := getFromStat sys filePath .type true err
    if err = 1 then ({}, err, pool)
    else
      let (node, err) := getFromStat sys filePath .node true err
      if err = 1 then ({}, err, pool)
      else ({ fd, type, node, name }, err, if fd = "txt".toList then node :: pool else pool)

/-- What the loop over the words of a line of `maps` has found, at word `i`. -/
structure MapWords where
  i : Nat := 0
  isFile : Bool := false
  isDeleted : Bool := false
  node : Text := []
  name : Text := []

def MapWords.next (m : MapWords) (buf : Text) : MapWords :=
  let m := if m.i = 4 ∧ buf ≠ "0".toList then { m with isFile := true, node := buf }
    else if m.i = 5 then { m with name := buf }
    else if m.i = 6 ∧ buf = "(deleted)".toList then { m with isDeleted := true }
    else m
  { m with i := m.i + 1 }

def mapWords (line : Text) : MapWords := (words line).foldl MapWords.next {}

/-- The loop over the lines of `maps`: an error loses the files found. -/
def getMapsLoop (sys : Sys) : List Text → List File → Int → List Text → List File × Int × List Text
  | [], mapFiles, err, pool => (mapFiles, err, pool)
  | line :: rest, mapFiles, err, pool =>
    let m := mapWords line
    if ¬ m.isFile then getMapsLoop sys rest mapFiles err pool
    else
      let (type, err) := if m.isDeleted then ("DEL".toList, err) else getFromStat sys m.name .type false err
      if ¬ m.isDeleted ∧ err = 1 then ([], err, pool)
      else if m.node ∈ pool then getMapsLoop sys rest mapFiles err pool
      else
        let file : File := { fd := "mem".toList, type, node := m.node, name := m.name }
        getMapsLoop sys rest (mapFiles ++ [file]) err (m.node :: pool)

def getMaps (sys : Sys) (pool : List Text) (mapPath : Text) : List File × Int × List Text :=
  match sys.read mapPath with
  | none => ([], 1, pool)
  | some content => getMapsLoop sys (lines content) [] 0 pool

/-- The file of one descriptor. -/
def fdFile (sys : Sys) (path link : Text) (err : Int) : Option File × Int :=
  let (mode, err) := getFromStat sys path .mode false err
  if err = 1 then (none, err)
  else
    let (type, err) := getFromStat sys path .type true err
    if err = 1 then (none, err)
    else
      let (node, err) := getFromStat sys path .node true err
      if err = 1 then (none, err)
      else
        let (target, err) := safeReadlink sys path
        if err = 1 then (none, err)
        else (some { fd := link ++ mode, type, node, name := clearDeleted target }, err)

def iterateFdLoop (sys : Sys) (fdPath : Text) : List Text → List File → Int → List File × Int
  | [], fdFiles, err => (fdFiles, err)
  | link :: rest, fdFiles, err =>
    if isNumber link then
      match fdFile sys (fdPath ++ "/".toList ++ link) link err with
      | (none, err) => ([], err)
      | (some file, err) => iterateFdLoop sys fdPath rest (fdFiles ++ [file]) err
    else iterateFdLoop sys fdPath rest fdFiles err

def iterateFd (sys : Sys) (fdPath : Text) : List File × Int :=
  match sys.readdir fdPath with
  | none => ([], 0)
  | some names => iterateFdLoop sys fdPath names [] 0

/-! ### The process -/

/-- `cwd`, `rtd` and `txt`, with their links. -/
def specialFds : List (Text × Text) :=
  [("cwd".toList, "cwd".toList), ("rtd".toList, "root".toList), ("txt".toList, "exe".toList)]

/-- The file is listed even where it is the error that ends the scan. -/
def specialLoop (sys : Sys) (pidPath : Text) :
    List (Text × Text) → List File → Int → List Text → List File × Int × List Text
  | [], files, err, pool => (files, err, pool)
  | (fd, filename) :: rest, files, _, pool =>
    let (file, err, pool) := getSpecialFile sys pool (pidPath ++ "/".toList ++ filename) fd
    if err = 1 then (files ++ [file], err, pool)
    else specialLoop sys pidPath rest (files ++ [file]) err pool

/-- The result is 1 where the scan failed; a `stoi` may also throw. The pool of the processes
before is cleared. -/
def iteratePid (sys : Sys) (_pool : List Text) (pidPath : Text) (process : Process) :
    Except StoiError (Int × Process × List Text) := do
  let pool := []
  let (command, err) := getCommand sys pidPath
  let process := { process with command }
  if err = 1 then return (1, process, pool)
  let (user, err) ← getUser sys pidPath
  let process := { process with user }
  if err = 1 then return (1, process, pool)
  let (files, err, pool) := specialLoop sys pidPath specialFds process.files err pool
  let process := { process with files }
  if err = 1 then return (err, process, pool)
  let (mapFiles, err, pool) := getMaps sys pool (pidPath ++ "/maps".toList)
  if err = 1 then return (err, process, pool)
  let (fdFiles, _) := iterateFd sys (pidPath ++ "/fd".toList)
  return (0, { process with files := process.files ++ mapFiles ++ fdFiles }, pool)

end Apue.Lsof

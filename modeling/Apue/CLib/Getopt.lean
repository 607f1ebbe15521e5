import Mathlib.Data.List.Basic

/-! `getopt`, as the loop around it sees it.

The GNU `getopt` goes on past arguments that are no options, and ends at `--` or at the
last argument. What is left for `argv[optind..]` is the arguments it went past and the ones
after `--`. -/
namespace Apue.CLib

/-- A string of `argv`. -/
structure CString where
  chars : List Char
  noNul : '\x00' ∉ chars

/-- What a call returns: an option with its `optarg`, or `'?'`. -/
inductive Opt where
  | opt (c : Char) (optarg : Option (List Char))
  | unknown (c : Char)
  | missing (c : Char)
  deriving DecidableEq, Repr

/-- Whether `c` is an option and takes an argument. -/
def takesArgument : List Char → Char → Option Bool
  | [], _ => none
  | d :: optstring, c =>
    if d = c ∧ c ≠ ':' then some (optstring.head? == some ':') else takesArgument optstring c

/-- The options of one argument, and the last one where its `optarg` is yet to come. -/
def cluster (optstring : List Char) : List Char → List Opt × Option Char
  | [] => ([], none)
  | c :: cs =>
    match takesArgument optstring c with
    | some true => if cs = [] then ([], some c) else ([.opt c (some cs)], none)
    | some false =>
      let (opts, last) := cluster optstring cs
      (.opt c none :: opts, last)
    | none =>
      let (opts, last) := cluster optstring cs
      (.unknown c :: opts, last)

/-- The results of the calls, and what is left. The first argument is an option that waits for
its `optarg`. -/
def getopt (optstring : List Char) : Option Char → List (List Char) → List Opt × List (List Char)
  | none, [] => ([], [])
  | some c, [] => ([.missing c], [])
  | some c, a :: argv =>
    let (opts, rest) := getopt optstring none argv
    (.opt c (some a) :: opts, rest)
  | none, a :: argv =>
    match a with
    | ['-', '-'] => ([], argv)
    | '-' :: c :: cs =>
      let (opts, last) := cluster optstring (c :: cs)
      let (opts', rest) := getopt optstring last argv
      (opts ++ opts', rest)
    | _ =>
      let (opts, rest) := getopt optstring none argv
      (opts, a :: rest)

variable (optstring : List Char)

/-- An option with its `optarg` in the next argument. -/
theorem getopt_argument {c : Char} (hc : takesArgument optstring c = some true) (hdash : c ≠ '-')
    (a : List Char) (argv : List (List Char)) :
    getopt optstring none (['-', c] :: a :: argv) =
      (.opt c (some a) :: (getopt optstring none argv).1, (getopt optstring none argv).2) := by
  have hcluster : cluster optstring [c] = ([], some c) := by simp [cluster, hc]
  simp [getopt, hcluster, hdash]

end Apue.CLib

import Apue.Memory.Bytes
import Apue.Transition.Run
import Apue.CLib.Strto
import Apue.Sdb.Config
import Apue.Sdb.Alternate
import Apue.Sdb.Child
import Apue.Sdb.Handler
import Apue.Sdb.Show
import Apue.Sdb.Core
import Apue.Sdb.Fragment
import Apue.Sdb.Pending
import Apue.Sdb.Status
import Apue.Memory.Patch
import Apue.Sdb.Trap
import Apue.Sdb.Stop
import Apue.Sdb.Session
import Apue.Sdb.SavedWord
import Apue.Sdb.Intact
import Apue.Sdb.Armed
import Apue.Sdb.Native
import Apue.Sdb.Walking
import Apue.Sdb.SingleStep
import Apue.Sdb.Continue
import Apue.Sdb.Stores
import Apue.Logger.Dispatch
import Apue.X86.Machine
import Apue.Libmini.Setjmp
import Apue.Shell.Command
import Apue.CLib.Getopt
import Apue.Logger.Launch
import Apue.Sdb.Registers
import Apue.Sdb.Overlay
import Apue.Sdb.Report
import Apue.Sdb.Undo
import Apue.Sdb.Delete
import Apue.Sdb.View
import Apue.Libmini.Open
import Apue.Libmini.Wrappers
import Apue.Keyed.Firsts
import Apue.Lsof.Scan
import Apue.Lsof.Maps
import Apue.Layout.Columns
import Apue.Lsof.Table
import Apue.Sdb.Listing
import Apue.Sdb.Elf
import Apue.Sdb.Loop
import Apue.Sdb.Vmmap
import Apue.Logger.Reveal
import Apue.Logger.FileName
import Apue.Logger.Output
import Apue.Bits.Sets
import Apue.Libmini.Sigset
import Apue.Libmini.Perror
import Apue.Libmini.Sleep
import Apue.Libmini.Jumps
import Apue.Lsof.Entries
import Apue.Lsof.Names
import Apue.Lsof.Descriptors
import Apue.Lsof.Uid
import Apue.Lsof.Unknown
import Apue.Lsof.Options
import Apue.Sdb.Breakpoints
import Apue.Transition.Simulation
import Apue.Sdb.Ideal
import Apue.Sdb.Mirror
import Apue.Sdb.Refine
import Apue.Sdb.Follow
import Apue.CLib.Arguments
import Apue.Logger.CommandLine
import Apue.Sdb.Main
import Apue.Sdb.Replay
import Apue.Layout.Delimited
import Apue.Logger.Legible
import Apue.Logger.Readback
import Apue.Logger.Standard
import Apue.Libmini.Signals
import Apue.Layout.Ruler
import Apue.Lsof.Listing
import Apue.Lsof.Order
import Apue.Lsof.Reading
import Apue.Sdb.Screen
import Apue.Sdb.Whole
import Apue.Sdb.Ends
import Apue.Logger.Whole

-- SUMMARY: The file-system steps of `main` (`main.cc`) that several simulator processes share.
import Sgcn.Model.Common

/-!
# Main

A simulator starts by looking for a directory of its own for its results. Several
simulators may start at a time in the same working directory.

A simulator that was given a `-c` path appends one record to that file when it
has finished. Several simulators may finish at a time and name the same file, so
`main` guards the file by a second one, `csv_path.lock`.

The states below are what the file system holds of these paths, and where each
process stands. Each system call is one atomic step.
-/

namespace Sgcn

/-! ## The result directory -/

/-- The system call that a process makes next, with the index `idx` it has come to.
`done` has set `arch_info.mem_output`. -/
inductive DirPc where
  | statRoot
  | mkdirRoot
  | stat (idx : ℕ)
  | mkdir (idx : ℕ)
  | done (idx : ℕ)
  deriving DecidableEq, Repr

/-- `results_path`. -/
def resultsPath : String := "results"

/-- `result_path` for an index. -/
def resultPath (idx : ℕ) : String := resultsPath ++ "/result_" ++ toString idx

/-- `arch_info.mem_output`, once it is set. -/
def DirPc.memOutput : DirPc → Option String
  | .done idx => some (resultPath idx)
  | _ => none

/-- The paths that exist, and the position of each process. -/
structure DirState (P : Type*) where
  dirs : String → Bool
  pc : P → DirPc

namespace DirState

variable {P : Type*}

/-- Every process is about to start. -/
def start (dirs : String → Bool) : DirState P where
  dirs := dirs
  pc := fun _ => .statRoot

/-- `arch_info.mem_output` of process `p`. -/
def memOutput (s : DirState P) (p : P) : Option String := (s.pc p).memOutput

/-- One system call of process `p`. -/
def step [DecidableEq P] (s : DirState P) (p : P) : DirState P :=
  match s.pc p with
  | .statRoot =>
    { s with pc := Function.update s.pc p (if s.dirs resultsPath then .stat 0 else .mkdirRoot) }
  | .mkdirRoot =>
    { s with
      dirs := Function.update s.dirs resultsPath true
      pc := Function.update s.pc p (.stat 0) }
  | .stat idx =>
    { s with
      pc := Function.update s.pc p
        (if s.dirs (resultPath idx) then .stat (idx + 1) else .mkdir idx) }
  | .mkdir idx =>
    -- without `results` nothing is made; that the path exists is no matter, either way the
    -- return value is not looked at
    { s with
      dirs := if s.dirs resultsPath then Function.update s.dirs (resultPath idx) true else s.dirs
      pc := Function.update s.pc p (.done idx) }
  | .done _ => s

end DirState

/-! ## Locking Mechanism for Large Scale Queueing -/

/-- The system call that a process makes next. `authorized` is set between
`create` and the return to `test`. -/
inductive LockPc where
  | test
  | create
  | append
  | remove
  deriving DecidableEq, Repr

/-- The two files, and the position of each process. -/
structure CsvState (P : Type*) where
  lockFile : Option String
  csv : String
  pc : P → LockPc

namespace CsvState

variable {P : Type*}

/-- Every process has finished its simulation and waits for its record. -/
def start (lockFile : Option String) (csv : String) : CsvState P where
  lockFile := lockFile
  csv := csv
  pc := fun _ => .test

/-- `exists(lock_csv_path)`. -/
def lockExists (s : CsvState P) : Bool := s.lockFile.isSome

/-- What `main` writes into the lock file. -/
def lockText : String := "Currently Locked !!!\n"

/-- One system call of process `p`, whose record is `record p`. -/
def step [DecidableEq P] (record : P → String) (s : CsvState P) (p : P) : CsvState P :=
  match s.pc p with
  | .test =>
    -- `while(!authorized)`: a process that finds the lock file asks again
    if s.lockExists then s
    else { s with pc := Function.update s.pc p .create }
  | .create =>
    -- `ofstream` opens an existing file just as well
    { s with
      lockFile := some lockText
      pc := Function.update s.pc p .append }
  | .append =>
    { s with
      csv := s.csv ++ "\n" ++ record p
      pc := Function.update s.pc p .remove }
  | .remove =>
    { s with
      lockFile := none
      pc := Function.update s.pc p .test }

end CsvState

end Sgcn

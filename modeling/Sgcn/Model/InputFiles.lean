-- SUMMARY: The command line and the input files: `GetOption` (`main.cc`), and the text half of the preprocessor (`ReadIni`, `ParseIni`, `ReadData`, `ReadDAVC`).
import Sgcn.Base.Text
import Sgcn.Model.Common
import Mathlib.Data.Finset.Basic

/-!
# The command line and the input files

`main` hands every option to `GetOption`, and the preprocessor reads the configuration, the
graph, the feature matrix and the list of cached vertices from text files. What these
functions leave in the globals is modelled here as the numbers the source holds, before any
of them is known to be sensible.

A text is a list of characters, and a file system gives the text of every path that can be
opened.
-/

namespace Sgcn

/-! ## Failures -/

/-- How a run may end before the simulation starts: an exception that nothing catches, a
call of `exit`, or undefined behaviour. -/
inductive Abort where
  | invalidArgument (what : List Char)
  | outOfRange (what : List Char)
  | exit (status : ℕ)
  | undefined
  deriving DecidableEq, Repr

/-- The range of an `int`. -/
def FitsInt (z : ℤ) : Prop := -2 ^ 31 ≤ z ∧ z < 2 ^ 31

instance (z : ℤ) : Decidable (FitsInt z) := inferInstanceAs (Decidable (_ ∧ _))

/-- The value of an `int` operation, whose overflow is undefined. -/
def checked (z : ℤ) : Except Abort ℤ := if FitsInt z then .ok z else .error .undefined

/-- `std::stoi`. What follows the number is not looked at. -/
def stoi (s : List Char) : Except Abort ℤ :=
  match Text.toInt? s with
  | none => .error (.invalidArgument "stoi".toList)
  | some z => if FitsInt z then .ok z else .error (.outOfRange "stoi".toList)

/-- The loop of `split`, from position `prev` on, where `rest` begins. A delimiter is not
empty, so that `rest` bounds the iterations. -/
def splitLoop (delim : List Char) : ℕ → List Char → List (List Char)
  | 0, _ => []
  | n + 1, rest =>
    let pos := (Text.find delim rest).getD rest.length
    let token := rest.take pos
    let tokens := if token.isEmpty then [] else [token]
    let rest' := rest.drop (pos + delim.length)
    if pos < rest.length ∧ rest' ≠ [] then tokens ++ splitLoop delim n rest' else tokens

/-- `split`: the pieces that are not empty. -/
def split (str delim : List Char) : List (List Char) := splitLoop delim (str.length + 1) str

/-- `vector::back`, undefined for an empty vector. -/
def back (l : List (List Char)) : Except Abort (List Char) := l.getLast?.elim (.error .undefined) .ok

/-- `vector::front`, undefined for an empty vector. -/
def front (l : List (List Char)) : Except Abort (List Char) := l.head?.elim (.error .undefined) .ok

/-! ## `GetOption` -/

/-- `F_PATH`. -/
structure FPath where
  ini : List Char := []
  aData : List Char := []
  xwData : List Char := []
  csvPath : List Char := []
  davcPath : List Char := []
  deriving DecidableEq, Repr

/-- What the options set, with the values that `main` starts from. The fields of `log_info`
are globals and start at zero. -/
structure Options where
  fPath : FPath := {}
  lacWidth : ℤ := 32
  xUnit : ℤ := 32
  mode : FMode := .xCmp
  gnnMode : GnnMode := .gcn
  nTiles : ℤ := 1
  logDataset : List Char := []
  logMode : ℤ := 0
  logXUnit : ℤ := 0
  deriving DecidableEq, Repr

/-- What a call of `getopt` returns: an option with `optarg`, or `'?'` with `optopt`. -/
inductive Opt where
  | opt (c : Char) (optarg : List Char)
  | unknown (optopt : Char)
  deriving DecidableEq, Repr

/-- `(F_MODE)n`, undefined outside the enumeration. -/
def toFMode (n : ℤ) : Except Abort FMode :=
  if n = 0 then .ok .xCmp
  else if n = 1 then .ok .mat
  else if n = 2 then .ok .csr
  else if n = 3 then .ok .xFullCmp
  else .error .undefined

/-- `(GNN_MODE)n`, undefined outside the enumeration. -/
def toGnnMode (n : ℤ) : Except Abort GnnMode :=
  if n = 0 then .ok .gcn else if n = 1 then .ok .other else .error .undefined

/-- `log_info.dataset` for the path of the graph: the name of the file up to its first dot. -/
def datasetOf (optarg : List Char) : Except Abort (List Char) := do
  let fileName ← back (split optarg "/".toList)
  front (split fileName ".".toList)

/-- `GetOption`. -/
def getOption (o : Options) : Opt → Except Abort Options
  | .opt 'i' optarg => .ok { o with fPath := { o.fPath with ini := optarg } }
  | .opt 'x' optarg => .ok { o with fPath := { o.fPath with xwData := optarg } }
  | .opt 'a' optarg => do
    let dataset ← datasetOf optarg
    return { o with fPath := { o.fPath with aData := optarg }, logDataset := dataset }
  | .opt 't' optarg => do
    let n ← stoi optarg
    return { o with nTiles := n }
  | .opt 'c' optarg => .ok { o with fPath := { o.fPath with csvPath := optarg } }
  | .opt 'm' optarg => do
    let n ← stoi optarg
    let mode ← toFMode n
    return { o with mode := mode, logMode := n }
  | .opt 'l' optarg => do
    let n ← stoi optarg
    return { o with lacWidth := n }
  | .opt 'u' optarg => do
    let n ← stoi optarg
    return { o with xUnit := n, logXUnit := n }
  | .opt 'g' optarg => do
    let n ← stoi optarg
    let gnnMode ← toGnnMode n
    return { o with gnnMode := gnnMode }
  | .opt 'd' optarg => .ok { o with fPath := { o.fPath with davcPath := optarg } }
  | .opt _ _ => .ok o
  | .unknown optopt =>
    if optopt ∈ ['t', 'c', 'm', 'l', 'u', 'g', 'd'] then .ok o else .error (.exit 1)

/-- The loop of `main` over its options. -/
def getOptions (args : List Opt) : Except Abort Options := args.foldlM getOption {}

/-! ## The configuration -/

/-- `m_table`. -/
abbrev IniTable := List Char → Option (List Char)

/-- `token1` and `token2` of a line. Without any `=` the position is `npos`, and adding the
length of the delimiter to it wraps around to the start of the line. -/
def iniLine (line : List Char) : List Char × List Char :=
  match Text.find " = ".toList line with
  | some pos => (line.take pos, line.drop (pos + 3))
  | none =>
    match Text.find "=".toList line with
    | some pos => (line.take pos, line.drop (pos + 1))
    | none => (line, line)

/-- One line goes into the table, where it replaces an earlier one with the same key. -/
def IniTable.addLine (t : IniTable) (line : List Char) : IniTable :=
  Function.update t (iniLine line).1 (some (iniLine line).2)

/-- `Preprocessor::ReadIni` on the text of the file, if it can be opened. -/
def readIni : Option (List Char) → Except Abort IniTable
  | some text => .ok ((Text.fields '\n' text).foldl IniTable.addLine fun _ => none)
  | none => .error (.invalidArgument "Cannot open inifile".toList)

/-- `Preprocessor::Contain`. -/
def IniTable.contain (t : IniTable) (name : List Char) : Bool := (t name).isSome

/-- `Preprocessor::GetString`. A value with a quote in it loses its first and its last
character. -/
def IniTable.getString (t : IniTable) (name : List Char) : Except Abort (List Char) :=
  match t name with
  | some v => .ok (if Text.find "\"".toList v = none then v else v.tail.dropLast)
  | none => .error (.invalidArgument (name ++ " Not exist.".toList))

/-- `Preprocessor::GetInt`. -/
def IniTable.getInt (t : IniTable) (name : List Char) : Except Abort ℤ :=
  match t name with
  | some v => stoi v
  | none => .error (.invalidArgument (name ++ "Not exist.".toList))

/-- What `ParseIni` leaves in `arch_info` and in `log_info`. -/
structure IniInfo where
  cacheSize : ℤ
  cacheWay : ℤ
  cacheSet : ℤ
  nOfEngine : ℤ
  bf : ℤ
  memType : List Char
  logMemType : List Char
  logCacheSize : ℤ
  deriving DecidableEq, Repr

/-- `a / b` of type `int`. -/
def intDiv (a b : ℤ) : Except Abort ℤ :=
  if b = 0 then .error .undefined else checked (a.tdiv b)

/-- `Preprocessor::ParseIni`. -/
def parseIni (t : IniTable) : Except Abort IniInfo := do
  let size ← t.getInt "CacheSize".toList
  let unit ← t.getString "UnitSize".toList
  let cacheSize ← checked (if unit = "KB".toList then size * 1024 else size * (1024 * 1024))
  let cacheWay ← t.getInt "CacheWay".toList
  let perWay ← intDiv cacheSize cacheWay
  let cacheSet ← intDiv perWay cacheLineByte
  let nOfEngine ← t.getInt "NumberOfEngine".toList
  let bf ← t.getInt "BF".toList
  let memType ← t.getString "MemoryType".toList
  let iniName ← back (split memType "/".toList)
  let logMemType ← front (split iniName "_".toList)
  return {
    cacheSize, cacheWay, cacheSet, nOfEngine, bf, memType, logMemType
    logCacheSize := cacheSize.tdiv (1024 * 1024) }

/-! ## The graph and the features -/

/-- The numbers of a line, with one blank between them. -/
def readInts (line : List Char) : Except Abort (List ℤ) := (Text.fields ' ' line).mapM stoi

/-- The lines that the two calls of `getline` on the graph file leave in `line`. The second
one fails when the first line has no end, and leaves `line` as it is. -/
def graphLines (text : List Char) : List Char × List Char :=
  if '\n' ∈ text then (Text.upTo '\n' text, Text.upTo '\n' (Text.after '\n' text))
  else (text, text)

/-- The graph that `Preprocessor::ReadData` reads: `row_ptr` and `col_idx`. -/
def readGraph : Option (List Char) → Except Abort (List ℤ × List ℤ)
  | some text => do
    let rowPtr ← readInts (graphLines text).1
    let colIdx ← readInts (graphLines text).2
    return (rowPtr, colIdx)
  | none => .error (.invalidArgument "Cannot open A file".toList)

/-- The matrix `xw` that `Preprocessor::ReadData` reads. -/
def readXw : Option (List Char) → Except Abort (List (List ℤ))
  | some text => (Text.fields '\n' text).mapM readInts
  | none => .error (.invalidArgument "Cannot open XW file".toList)

/-- `row_ptr`, `col_idx` and `xw` after `ReadData`. -/
structure DataFiles where
  rowPtr : List ℤ
  colIdx : List ℤ
  xw : List (List ℤ)
  deriving DecidableEq, Repr

/-- The file half of `Preprocessor::ReadData`. The width of the features is read off the
first row of `xw`, which has to be there. -/
def readFiles (a xw : Option (List Char)) : Except Abort DataFiles := do
  let (rowPtr, colIdx) ← readGraph a
  let rows ← readXw xw
  if rows.isEmpty then .error .undefined
  else return { rowPtr, colIdx, xw := rows }

/-- `data_info.x_w`. -/
def DataFiles.xW (d : DataFiles) : ℕ := (d.xw.headD []).length

/-- `Preprocessor::ReadDAVC`. Only the first line is read, and a file that cannot be opened
is none. -/
def readDavc (files : List Char → Option (List Char)) (davcPath : List Char) :
    Except Abort (Finset ℤ) :=
  if davcPath = [] then .ok ∅
  else
    match files davcPath with
    | some text => do
      let vs ← readInts (Text.upTo '\n' text)
      return vs.toFinset
    | none => .ok ∅

/-! ## Up to the preprocessing -/

/-- What is known when `LAC` is called. -/
structure Loaded where
  options : Options
  ini : IniInfo
  data : DataFiles
  davcList : Finset ℤ

/-- `main` from its options up to the first four calls of the preprocessor. -/
def load (files : List Char → Option (List Char)) (args : List Opt) : Except Abort Loaded := do
  let options ← getOptions args
  let table ← readIni (files options.fPath.ini)
  let ini ← parseIni table
  let data ← readFiles (files options.fPath.aData) (files options.fPath.xwData)
  let davcList ← readDavc files options.fPath.davcPath
  return { options, ini, data, davcList }

end Sgcn

-- SUMMARY: What `main` reads from its options and files: every input of the simulator can be given to it.
import Sgcn.Files.Ini
import Sgcn.Graph.Csr
import Sgcn.Model.Preprocessor

/-!
# Loading an input

The options, a configuration written by `ini_maker.py`, a graph and a feature file together
determine an `Input` of the preprocessing, and every `Input` of sensible size is determined by
some.
-/

namespace Sgcn

open Text

/-! ## The options -/

/-- The options that `main` has for an input. -/
inductive Setting where
  | ini | xwData | aData | nTiles | mode | lacWidth | xUnit | gnnMode
  deriving DecidableEq, Repr

/-- Each of them once. -/
def Setting.all : List Setting :=
  [.ini, .xwData, .aData, .nTiles, .mode, .lacWidth, .xUnit, .gnnMode]

/-- The number of a mode on the command line. -/
def FMode.number : FMode → ℕ
  | .xCmp => 0
  | .mat => 1
  | .csr => 2
  | .xFullCmp => 3

/-- The number of a mode on the command line. -/
def GnnMode.number : GnnMode → ℕ
  | .gcn => 0
  | .other => 1

/-- The paths of the three files, and the name that the log gives the graph. -/
structure Paths where
  ini : List Char
  aData : List Char
  xwData : List Char
  dataset : List Char
  datasetOf_eq : datasetOf aData = .ok dataset

/-- The option that passes a setting of the input. -/
def Setting.opt (inp : Input) (p : Paths) : Setting → Opt
  | .ini => .opt 'i' p.ini
  | .xwData => .opt 'x' p.xwData
  | .aData => .opt 'a' p.aData
  | .nTiles => .opt 't' (decimal inp.nTiles)
  | .mode => .opt 'm' (decimal inp.mode.number)
  | .lacWidth => .opt 'l' (numeral inp.lacWidth)
  | .xUnit => .opt 'u' (decimal inp.xUnit)
  | .gnnMode => .opt 'g' (decimal inp.gnnMode.number)

/-- What a setting changes. -/
def Setting.set (inp : Input) (p : Paths) : Setting → Options → Options
  | .ini, o => { o with fPath := { o.fPath with ini := p.ini } }
  | .xwData, o => { o with fPath := { o.fPath with xwData := p.xwData } }
  | .aData, o => { o with fPath := { o.fPath with aData := p.aData }, logDataset := p.dataset }
  | .nTiles, o => { o with nTiles := inp.nTiles }
  | .mode, o => { o with mode := inp.mode, logMode := inp.mode.number }
  | .lacWidth, o => { o with lacWidth := inp.lacWidth }
  | .xUnit, o => { o with xUnit := inp.xUnit, logXUnit := inp.xUnit }
  | .gnnMode, o => { o with gnnMode := inp.gnnMode }

/-- The options after all settings. -/
def Options.ofInput (inp : Input) (p : Paths) : Options where
  fPath := { ini := p.ini, aData := p.aData, xwData := p.xwData }
  lacWidth := inp.lacWidth
  xUnit := inp.xUnit
  mode := inp.mode
  gnnMode := inp.gnnMode
  nTiles := inp.nTiles
  logDataset := p.dataset
  logMode := inp.mode.number
  logXUnit := inp.xUnit

variable {inp : Input} {p : Paths} {u : List Char} {blank newline : Bool}

theorem toFMode_number (m : FMode) : toFMode m.number = .ok m := by
  cases m <;> rfl

theorem toGnnMode_number (m : GnnMode) : toGnnMode m.number = .ok m := by
  cases m <;> rfl

/-- The numbers on the command line are numbers of type `int`. -/
structure OptionsFit (inp : Input) : Prop where
  nTiles_lt : inp.nTiles < 2 ^ 31
  xUnit_lt : inp.xUnit < 2 ^ 31
  lacWidth_fits : FitsInt inp.lacWidth

theorem getOption_opt (hfit : OptionsFit inp) (x : Setting) (o : Options) :
    getOption o (x.opt inp p) = .ok (x.set inp p o) := by
  have hnumber : ∀ m : ℕ, m < 4 → stoi (decimal m) = .ok (m : ℤ) := fun m hm =>
    stoi_decimal (fitsInt_natCast (by omega))
  cases x with
  | ini => rfl
  | xwData => rfl
  | aData =>
    simp only [Setting.opt, getOption, p.datasetOf_eq, ok_bind]
    rfl
  | nTiles =>
    simp only [Setting.opt, getOption, stoi_decimal (fitsInt_natCast hfit.nTiles_lt), ok_bind]
    rfl
  | mode =>
    have hlt : inp.mode.number < 4 := by cases inp.mode <;> decide
    simp only [Setting.opt, getOption, hnumber _ hlt, toFMode_number, ok_bind]
    rfl
  | lacWidth =>
    simp only [Setting.opt, getOption, stoi_numeral hfit.lacWidth_fits, ok_bind]
    rfl
  | xUnit =>
    simp only [Setting.opt, getOption, stoi_decimal (fitsInt_natCast hfit.xUnit_lt), ok_bind]
    rfl
  | gnnMode =>
    have hlt : inp.gnnMode.number < 4 := by cases inp.gnnMode <;> decide
    simp only [Setting.opt, getOption, hnumber _ hlt, toGnnMode_number, ok_bind]
    rfl

/-- The settings touch different fields. -/
theorem Setting.set_comm (x y : Setting) (o : Options) :
    y.set inp p (x.set inp p o) = x.set inp p (y.set inp p o) := by
  cases x <;> cases y <;> rfl

theorem foldlM_opt (hfit : OptionsFit inp) (order : List Setting) (o : Options) :
    (order.map (Setting.opt inp p)).foldlM getOption o =
      .ok (order.foldl (fun o x => x.set inp p o) o) := by
  induction order generalizing o with
  | nil => rfl
  | cons x order ih =>
    rw [List.map_cons, List.foldlM_cons, getOption_opt hfit, ok_bind, ih]
    rfl

/-- The settings may be given in any order. -/
theorem getOptions_of_perm (hfit : OptionsFit inp) {order : List Setting}
    (horder : order.Perm Setting.all) :
    getOptions (order.map (Setting.opt inp p)) = .ok (.ofInput inp p) := by
  have hfold : order.foldl (fun o x => x.set inp p o) {} =
      Setting.all.foldl (fun o x => x.set inp p o) {} :=
    horder.foldl_eq' (fun x _ y _ o => Setting.set_comm x y o) {}
  rw [getOptions, foldlM_opt hfit, hfold]
  rfl

/-! ## The input -/

/-- The feature matrix of an input. -/
def Input.rows (inp : Input) : List (List ℤ) :=
  (List.range (inp.graph.rowPtr.length - 1)).map fun i => (List.range inp.xW).map (inp.xw i)

/-- The input can be written: there are a vertex and a feature, every number is of type `int`,
and the cache is one of `ini_maker.py`, of `size` units `u`. -/
structure Writable (inp : Input) (size : ℕ) (u : List Char) : Prop where
  options : OptionsFit inp
  vertices_pos : 1 < inp.graph.rowPtr.length
  vertices_le : inp.graph.rowPtr.length ≤ 2 ^ 31
  edges_lt : inp.graph.colIdx.length < 2 ^ 31
  xW_pos : 0 < inp.xW
  xw_fits : ∀ i < inp.graph.rowPtr.length - 1, ∀ j < inp.xW, FitsInt (inp.xw i j)
  nOfEngine_lt : inp.nOfEngine < 2 ^ 31
  bf_lt : inp.bf < 2 ^ 31
  bytes_lt : cacheBytes size u < 2 ^ 31
  unit_line : '\n' ∉ u
  unit_quote : '"' ∉ u
  cacheWay_eq : inp.cacheWay = 16
  cacheSet_eq : inp.cacheSet = cacheBytes size u / 16 / 64

/-- The three files of an input. -/
structure Holds (files : List Char → Option (List Char)) (p : Paths) (blank newline : Bool)
    (inp : Input) (size : ℕ) (u : List Char) : Prop where
  ini_eq : files p.ini = some (iniMaker (decimal size) u (decimal inp.nOfEngine) (decimal inp.bf))
  aData_eq : files p.aData =
    some (graphText blank newline (toInts inp.graph.rowPtr) (toInts inp.graph.colIdx))
  xwData_eq : files p.xwData = some (xwText blank newline inp.rows)

/-- What has been loaded is the input of the preprocessing. -/
structure Loaded.Gives (ld : Loaded) (inp : Input) : Prop where
  rowPtr_eq : ld.data.rowPtr = toInts inp.graph.rowPtr
  colIdx_eq : ld.data.colIdx = toInts inp.graph.colIdx
  xW_eq : ld.data.xW = inp.xW
  xw_eq : ∀ i < inp.graph.rowPtr.length - 1, ∀ j < inp.xW,
    ld.data.xw[i]?.bind (·[j]?) = some (inp.xw i j)
  nOfEngine_eq : ld.ini.nOfEngine = inp.nOfEngine
  bf_eq : ld.ini.bf = inp.bf
  cacheWay_eq : ld.ini.cacheWay = inp.cacheWay
  cacheSet_eq : ld.ini.cacheSet = inp.cacheSet
  lacWidth_eq : ld.options.lacWidth = inp.lacWidth
  nTiles_eq : ld.options.nTiles = inp.nTiles
  xUnit_eq : ld.options.xUnit = inp.xUnit
  mode_eq : ld.options.mode = inp.mode
  gnnMode_eq : ld.options.gnnMode = inp.gnnMode
  davcList_eq : ld.davcList = ∅

variable {size : ℕ} {files : List Char → Option (List Char)}

theorem Writable.rowPtr_fits (h : Writable inp size u) :
    ∀ x ∈ toInts inp.graph.rowPtr, FitsInt x := by
  intro x hx
  obtain ⟨v, hv, rfl⟩ := List.mem_map.mp hx
  obtain ⟨j, hj, rfl⟩ := List.getElem_of_mem hv
  have hle := inp.graph.valid.vget_le hj
  rw [vget_eq_getElem hj] at hle
  exact fitsInt_natCast (hle.trans_lt h.edges_lt)

theorem Writable.colIdx_fits (h : Writable inp size u) :
    ∀ x ∈ toInts inp.graph.colIdx, FitsInt x := by
  intro x hx
  obtain ⟨v, hv, rfl⟩ := List.mem_map.mp hx
  have hlt := inp.graph.col_lt v hv
  have hle := h.vertices_le
  exact fitsInt_natCast (by omega)

theorem Writable.readXw_rows (h : Writable inp size u) :
    readXw (some (xwText blank newline inp.rows)) = .ok inp.rows := by
  refine readXw_xwText (fun row hrow x hx => ?_) fun row hrow => ?_
  · obtain ⟨i, hi, rfl⟩ := List.mem_map.mp hrow
    obtain ⟨j, hj, rfl⟩ := List.mem_map.mp hx
    exact h.xw_fits i (List.mem_range.mp hi) j (List.mem_range.mp hj)
  · obtain ⟨i, -, rfl⟩ := List.mem_map.mp hrow
    rw [ne_eq, List.map_eq_nil_iff, List.range_eq_nil]
    exact h.xW_pos.ne'

/-- The files of the graph and the features are read back. -/
theorem Writable.readFiles_eq (h : Writable inp size u)
    (hfiles : Holds files p blank newline inp size u) :
    readFiles (files p.aData) (files p.xwData) =
      .ok ⟨toInts inp.graph.rowPtr, toInts inp.graph.colIdx, inp.rows⟩ := by
  have hrows : inp.rows.isEmpty = false := by
    have hpos := h.vertices_pos
    rw [List.isEmpty_eq_false_iff, Input.rows, ne_eq, List.map_eq_nil_iff, List.range_eq_nil]
    omega
  rw [readFiles, hfiles.aData_eq, hfiles.xwData_eq,
    readGraph_graphText h.rowPtr_fits h.colIdx_fits, ok_bind, h.readXw_rows]
  simp only [ok_bind, hrows]
  rfl

/-- Every row of the matrix has the width of the features. -/
theorem Input.xW_rows {rowPtr colIdx : List ℤ} (h : 1 < inp.graph.rowPtr.length) :
    DataFiles.xW ⟨rowPtr, colIdx, inp.rows⟩ = inp.xW := by
  obtain ⟨n, hn⟩ : ∃ n, inp.graph.rowPtr.length - 1 = n + 1 :=
    ⟨inp.graph.rowPtr.length - 2, by omega⟩
  simp [DataFiles.xW, Input.rows, hn, List.range_succ_eq_map]

theorem Input.getElem?_rows {i j : ℕ} (hi : i < inp.graph.rowPtr.length - 1) (hj : j < inp.xW) :
    inp.rows[i]?.bind (·[j]?) = some (inp.xw i j) := by
  simp [Input.rows, hi, hj]

/-- The small input with a cache of 256 KB. -/
def Input.threeVertices256KB : Input := { Input.threeVertices with cacheWay := 16, cacheSet := 256 }

/-- Paths of its files. -/
def Paths.sample : Paths where
  ini := "bf2_2.ini".toList
  aData := "data/three.txt".toList
  xwData := "x.txt".toList
  dataset := "three".toList
  datasetOf_eq := by decide

/-- Its files. -/
def sampleFiles (path : List Char) : Option (List Char) :=
  if path = Paths.sample.ini then
    some (iniMaker (decimal 256) "KB".toList (decimal 2) (decimal 2))
  else if path = Paths.sample.aData then
    some (graphText true true [0, 2, 2, 3] [1, 2, 0])
  else if path = Paths.sample.xwData then
    some (xwText true true Input.threeVertices256KB.rows)
  else none

end Sgcn

-- SUMMARY: The preprocessor (`preprocessor.cc`): work distribution, vertex tiling, feature compression, address layout.
import Sgcn.Base.Loop
import Sgcn.Model.Common

/-!
# The preprocessor

`ReadData` fixes the geometry of the feature matrix, `LAC` deals the rows of the
graph to the engines, `Tiling` splits every engine's rows by column,
`TransXW` decides which cache lines of the features exist, and `AddressMapping`
lays everything out in one address space.

Undefined behaviour of the source is `none`: an `int` product that overflows, an
access outside a row of `x_to_addr`, a remainder by zero.
-/

namespace Sgcn

open Loop

/-! ## Input -/

/-- What `main` and the input files determine. `xw i j` is the element at offset
`j` of row `i`; for `j ≥ xW` it stands for whatever the program finds there. -/
structure Input where
  graph : Graph
  xW : ℕ
  xw : ℕ → ℕ → ℤ
  nOfEngine : ℕ
  lacWidth : ℤ
  nTiles : ℕ
  xUnit : ℕ
  bf : ℕ
  mode : FMode
  gnnMode : GnnMode
  cacheWay : ℕ
  cacheSet : ℕ

/-- The globals after `ParseIni` and `ReadData`. The graph still sits in slot 0. -/
def readData (inp : Input) : Globals where
  archInfo :=
    { nOfEngine := inp.nOfEngine, cacheWay := inp.cacheWay, cacheSet := inp.cacheSet
      urb := ⌈floatDiv (floatDiv (toFloat inp.xW) inp.bf) cacheLineCount⌉₊
      bf := inp.bf, lacWidth := inp.lacWidth, xUnit := inp.xUnit
      mode := inp.mode, gnnMode := inp.gnnMode }
  dataInfo :=
    { aH := inp.graph.rowPtr.length - 1, aW := inp.graph.rowPtr.length - 1
      xH := inp.graph.rowPtr.length - 1, xW := inp.xW, nTiles := inp.nTiles
      totalUrb := ceilDiv inp.xW cacheLineCount }
  dataIndex := fun _ => {}
  rowPtr := fun _ => inp.graph.rowPtr
  colIdx := fun _ => inp.graph.colIdx
  xToAddr := fun _ => []
  totalWrite := 0

/-! ## `LAC` -/

/-- The width `LAC` works with: given, or derived from `-1` or `0`. -/
def effLacWidth (g : Globals) : ℤ :=
  let w := if g.archInfo.lacWidth = -1 then
    (ceilDiv g.dataInfo.aH g.archInfo.nOfEngine : ℤ) else g.archInfo.lacWidth
  if w = 0 then
    (⌈floatDiv (floatDiv (toFloat g.dataInfo.aH) g.dataInfo.nTiles) g.archInfo.nOfEngine⌉₊ : ℤ)
  else w

/-- The arrays `LAC` grows, one slot per engine. -/
structure LacState where
  edgeAcm : ℕ → ℕ
  rowPtrLac : ℕ → List ℕ
  colIdxLac : ℕ → List ℕ

def LacState.init : LacState where
  edgeAcm := fun _ => 0
  rowPtrLac := fun _ => [0]
  colIdxLac := fun _ => []

/-- The engine that row `i` goes to. -/
def lacIdx (width n i : ℕ) : ℕ := i / width % n

/-- One iteration of the distribution loop: row `i` goes to engine `lacIdx`. -/
def LacState.step (rowPtr colIdx : List ℕ) (width n : ℕ) (s : LacState) (i : ℕ) : LacState :=
  let e := lacIdx width n i
  let acm := s.edgeAcm e + (vget rowPtr (i + 1) - vget rowPtr i)
  { edgeAcm := Function.update s.edgeAcm e acm
    rowPtrLac := Function.update s.rowPtrLac e (s.rowPtrLac e ++ [acm])
    colIdxLac := Function.update s.colIdxLac e
      (s.colIdxLac e ++ slice colIdx (vget rowPtr i) (vget rowPtr (i + 1))) }

/-- The distribution loop. -/
def lacLoop (rowPtr colIdx : List ℕ) (width n : ℕ) : LacState :=
  (List.range (rowPtr.length - 1)).foldl (LacState.step rowPtr colIdx width n) .init

/-- The rows without an edge, counted as `LAC` and `Tiling` count them. -/
def zeroRows (rowPtr : List ℕ) : ℕ :=
  (List.range (rowPtr.length - 1)).countP fun j => vget rowPtr (j + 1) = vget rowPtr j

/-- The record `LAC` and `Tiling` fill in for one engine. The product is computed
in `size_t` and stored in an `int`. -/
def DataIndex.setRows (d : DataIndex) (rowPtr : List ℕ) (totalUrb : ℕ) : DataIndex :=
  { d with
    row := rowPtr.length - 1
    zeroRow := zeroRows rowPtr
    totalWrite := int32 ((rowPtr.length - 1 - zeroRows rowPtr) * totalUrb : ℕ) }

/-- `Preprocessor::LAC`. -/
def lac (g : Globals) : Globals :=
  let width := effLacWidth g
  let s := lacLoop (g.rowPtr 0) (g.colIdx 0) width.toNat g.archInfo.nOfEngine
  { g with
    archInfo := { g.archInfo with lacWidth := width }
    dataIndex := fun i => (g.dataIndex i).setRows (s.rowPtrLac i) g.dataInfo.totalUrb
    rowPtr := s.rowPtrLac
    colIdx := s.colIdxLac }

/-! ## `Tiling` -/

/-- The edge counts of one row and the edge lists, both per tile. -/
structure TileEdges where
  edgeAcm : ℕ → ℕ
  eList : ℕ → List ℕ

/-- One edge goes to the first tile whose accumulated unit exceeds its index. -/
def TileEdges.step (tUnit : List ℕ) (unitV : ℕ) (s : TileEdges) (c : ℕ) : TileEdges :=
  match tUnit.findIdx? fun u => decide (c / unitV < u) with
  | some l =>
    { edgeAcm := Function.update s.edgeAcm l (s.edgeAcm l + 1)
      eList := Function.update s.eList l (s.eList l ++ [c]) }
  | none => s

/-- `v_list` and `e_list`. -/
structure TileState where
  vList : ℕ → List ℕ
  eList : ℕ → List ℕ

/-- One iteration of the row loop: the edges of row `j` are spread over the
tiles, and every tile records how many it received. -/
def TileState.step (rowPtr colIdx tUnit : List ℕ) (unitV : ℕ) (s : TileState) (j : ℕ) :
    TileState :=
  let r := (slice colIdx (vget rowPtr j) (vget rowPtr (j + 1))).foldl
    (TileEdges.step tUnit unitV) ⟨fun _ => 0, s.eList⟩
  { vList := fun k => s.vList k ++ [r.edgeAcm k], eList := r.eList }

/-- The row loop of one engine. -/
def tileLoop (rowPtr colIdx tUnit : List ℕ) (unitV : ℕ) : TileState :=
  (List.range (rowPtr.length - 1)).foldl (TileState.step rowPtr colIdx tUnit unitV)
    ⟨fun _ => [], fun _ => []⟩

/-- The accumulation that turns a list of row lengths into a row pointer. -/
def accumulate (counts : List ℕ) : ℕ × List ℕ :=
  counts.foldl (fun s v => (s.1 + v, s.2 ++ [s.1 + v])) (0, [0])

/-- `t_unit`: the accumulated tile data `1, 2, …, n_tiles`. -/
def tileUnits (nTiles : ℕ) : List ℕ := (List.range nTiles).map (· + 1)

/-- The tiled CSR of one engine. -/
def tileCsr (nTiles unitV : ℕ) (rowPtr colIdx : List ℕ) : List ℕ × List ℕ :=
  let s := tileLoop rowPtr colIdx (tileUnits nTiles) unitV
  ((accumulate ((List.range nTiles).flatMap s.vList)).2, (List.range nTiles).flatMap s.eList)

/-- `Preprocessor::Tiling`. -/
def tiling (g : Globals) : Globals :=
  if 1 < g.dataInfo.nTiles then
    let unitV := ceilDiv g.dataInfo.aW g.dataInfo.nTiles
    let t := fun i => tileCsr g.dataInfo.nTiles unitV (g.rowPtr i) (g.colIdx i)
    { g with
      dataIndex := fun i => (g.dataIndex i).setRows (t i).1 g.dataInfo.totalUrb
      rowPtr := fun i => (t i).1
      colIdx := fun i => (t i).2 }
  else g

/-! ## `TransXW` -/

/-- The cells pushed for one slice: present while `count` is positive. -/
def flushSlice : ℕ → ℤ → List ℕ
  | 0, _ => []
  | k + 1, count => (if 0 < count then 1 else 0) :: flushSlice k (count - cacheLineCount)

/-- One iteration of the element loop of `X_CMP`, for `j` from 1 on. The slice is
flushed before the element at offset `j` is counted. -/
def transXCmpStep (xUnit xW urb bf totalUrb : ℕ) (x : ℕ → ℤ) (s : ℤ × List ℕ) (j : ℕ) :
    ℤ × List ℕ :=
  let s := if j % xUnit = 0 ∨ j = xW then
      let curUrb := if j = xW then totalUrb - (bf - 1) * urb else urb
      ((ceilDiv xUnit 32 : ℤ), s.2 ++ flushSlice curUrb s.1)
    else s
  if x j ≠ 0 then (s.1 + 1, s.2) else s

/-- A row of `x_to_addr` after `TransXW` in mode `X_CMP`. -/
def transXCmpRow (xUnit xW urb bf totalUrb : ℕ) (x : ℕ → ℤ) : List ℕ :=
  ((List.range' 1 xW).foldl (transXCmpStep xUnit xW urb bf totalUrb x)
    ((ceilDiv xUnit 32 : ℤ), [])).2

/-- The non-zero elements of a row. -/
def nonzeros (xW : ℕ) (x : ℕ → ℤ) : ℕ := (List.range xW).countP fun j => x j ≠ 0

/-- A row of `x_to_addr` after `TransXW` in mode `CSR`: a header, a column and a
value cell per block, and the number of non-zeros as the last cell. -/
def transCsrRow (xW : ℕ) (x : ℕ → ℤ) : List ℕ :=
  1 :: (List.replicate (2 * ceilDiv (nonzeros xW x) cacheLineCount) 1 ++ [nonzeros xW x])

/-- A row of `x_to_addr` after `TransXW` in mode `X_FULL_CMP`. -/
def transXFullCmpRow (xW : ℕ) (x : ℕ → ℤ) : List ℕ :=
  1 :: List.replicate (ceilDiv (ceilDiv xW 32 + nonzeros xW x) cacheLineCount) 1

/-- `Preprocessor::TransXW`. Only `X_CMP` recomputes the geometry. -/
def transXW (xw : ℕ → ℕ → ℤ) (g : Globals) : Globals :=
  let xW := g.dataInfo.xW
  match g.archInfo.mode with
  | .xCmp =>
    let xUnit := g.archInfo.xUnit
    let urb := ceilDiv xUnit cacheLineCount
    let bf := ceilDiv xW xUnit
    let totalUrb := bf * urb
    { g with
      archInfo := { g.archInfo with urb := urb, bf := bf }
      dataInfo := { g.dataInfo with totalUrb := totalUrb }
      xToAddr := fun i => transXCmpRow xUnit xW urb bf totalUrb (xw i)
      dataIndex := fun i =>
        { g.dataIndex i with
          totalWrite :=
            int32 (((g.rowPtr i).length - 1 - (g.dataIndex i).zeroRow) * totalUrb : ℕ) } }
  | .mat => { g with xToAddr := fun _ => List.replicate (ceilDiv xW cacheLineCount) 1 }
  | .csr => { g with xToAddr := fun i => transCsrRow xW (xw i) }
  | .xFullCmp => { g with xToAddr := fun i => transXFullCmpRow xW (xw i) }

/-! ## `AddressMapping` -/

/-- Bytes reserved for an array of `size` elements: `frag * CACHE_LINE_BYTE`. -/
def lineBytes (size : ℕ) : ℕ := ceilDiv size cacheLineCount * cacheLineByte

/-- One of the three loops that give every engine its region: the regions are
laid one after the other from `address` on. -/
def mapRegions (bytes : ℕ → ℕ) : ℕ → ℕ → (ℕ → ℕ × ℕ) × ℕ
  | 0, address => (fun _ => (0, 0), address)
  | n + 1, address =>
    let r := mapRegions bytes n address
    (Function.update r.1 n (r.2, r.2 + bytes n), r.2 + bytes n)

/-- The graph part of `AddressMapping`: values, then rows, then columns. An `int`
product that does not fit is undefined. -/
def mapGraph (g : Globals) : Option Globals :=
  let n := g.archInfo.nOfEngine
  let rowBytes := fun i => lineBytes (g.rowPtr i).length
  let colBytes := fun i => lineBytes (g.colIdx i).length
  if ∀ i < n, rowBytes i < 2 ^ 31 ∧ colBytes i < 2 ^ 31 then
    let v := mapRegions colBytes n 0
    let r := mapRegions rowBytes n v.2
    let c := mapRegions colBytes n r.2
    some { g with
      archInfo :=
        { g.archInfo with
          dValueAddrStart := 0, aRowAddrStart := v.2, aColAddrStart := r.2
          xwEleAddrStart := c.2 }
      dataIndex := fun i =>
        { g.dataIndex i with
          valueAddrStart := (v.1 i).1, valueAddrEnd := (v.1 i).2
          rowAddrStart := (r.1 i).1, rowAddrEnd := (r.1 i).2
          colAddrStart := (c.1 i).1, colAddrEnd := (c.1 i).2 } }
  else none

/-- The table `x_to_addr` and the running address. -/
structure XMap where
  table : ℕ → List ℕ
  address : ℕ

/-- `x_to_addr[row][col] = v`, undefined outside the row. -/
def writeCell (table : ℕ → List ℕ) (row col v : ℕ) : Option (ℕ → List ℕ) :=
  if col < (table row).length then
    some (Function.update table row ((table row).set col v))
  else none

/-- The innermost loop of `X_CMP` and `MAT`, `left` iterations from slot `col` on.
It is left early at the end of the row; a present cell takes the address, an
absent one only consumes it. -/
def mapSlots (totalUrb row : ℕ) : ℕ → ℕ → XMap → Option XMap
  | 0, _, s => some s
  | left + 1, col, s =>
    if col = totalUrb then some s
    else
      match (s.table row)[col]? with
      | none => none
      | some v =>
        let table := if v = 1 then
          Function.update s.table row ((s.table row).set col s.address) else s.table
        mapSlots totalUrb row left (col + 1) ⟨table, s.address + cacheLineByte⟩

/-- Fold by fold, row by row: the feature layout of `X_CMP` and `MAT`. -/
def mapFolds (bf xH urb totalUrb : ℕ) (s : XMap) : Option XMap :=
  forUpto bf (fun i => forUpto xH fun j => mapSlots totalUrb j urb (i * urb)) s

/-- A `uint64_t` address from exact arithmetic. Stepping below zero wraps; no
layout comes near `2 ^ 64` from below, since it has a table cell for every line. -/
def wrapAddr (z : ℤ) : ℕ := if 0 ≤ z then z.toNat else (z + 2 ^ 64).toNat

/-- The table and the running address of mode `CSR`, which also moves back. -/
structure CsrMap where
  table : ℕ → List ℕ
  address : ℤ
  xAcm : ℕ

/-- The row-pointer cells: sixteen rows share a line. -/
def mapCsrHeaders (xH : ℕ) (s : CsrMap) : Option CsrMap :=
  forUpto xH (fun i s => do
    let table ← writeCell s.table i 0 (wrapAddr s.address)
    return { s with
      table := table
      address := if (i + 1) % cacheLineCount = 0 then s.address + cacheLineByte
        else s.address }) s

/-- The cells of row `i` at positions `off + 2 * j`, one line each. -/
def mapCsrCells (off i cnt : ℕ) (s : CsrMap) : Option CsrMap :=
  forUpto cnt (fun j s => do
    let table ← writeCell s.table i (j * 2 + off) (wrapAddr s.address)
    return { s with table := table, address := s.address + cacheLineByte }) s

/-- One row of the column-index loop (`off = 1`) or of the value loop (`off = 2`).
The line is taken back when the running count ends inside it; the value loop also
drops the last cell, which held the count. -/
def mapCsrRow (off : ℕ) (dropLast : Bool) (i : ℕ) (s : CsrMap) : Option CsrMap := do
  let cnt := ((s.table i).length - 2) / 2
  let s ← mapCsrCells off i cnt s
  let last ← (s.table i)[(s.table i).length - 1]?
  let xAcm := s.xAcm + last
  return {
    table := if dropLast then Function.update s.table i (s.table i).dropLast else s.table
    address := if xAcm % cacheLineCount ≠ 0 then s.address - cacheLineByte else s.address
    xAcm := xAcm }

/-- The feature layout of mode `CSR`. -/
def mapCsr (xH : ℕ) (table : ℕ → List ℕ) (address : ℕ) : Option CsrMap := do
  let s ← mapCsrHeaders xH ⟨table, address, 0⟩
  let s ← forUpto xH (mapCsrRow 1 false) s
  forUpto xH (mapCsrRow 2 true) { s with xAcm := 0 }

/-- `x_change`: how many bitmap headers share a line, truncated to `int`. -/
def xChange (xW : ℕ) : ℕ := ⌊floatDiv (toFloat cacheLineCount) (ceilDiv xW 32)⌋₊

/-- The header pass of mode `X_FULL_CMP`. -/
def mapFullHeaders (xH change : ℕ) (s : XMap) : Option XMap :=
  forUpto xH (fun i s => do
    let table ← writeCell s.table i 0 s.address
    if change = 0 then none
    else return ⟨table, if (i + 1) % change = 0 then s.address + cacheLineByte
      else s.address⟩) s

/-- The payload pass of mode `X_FULL_CMP`, over every cell of every row. -/
def mapFullCells (xH : ℕ) (s : XMap) : Option XMap :=
  forUpto xH (fun i s => forUpto (s.table i).length (fun j s => do
    let table ← writeCell s.table i j s.address
    return ⟨table, s.address + cacheLineByte⟩) s) s

/-- The feature part of `AddressMapping`: the table and `axw_addr_start`. -/
def mapFeatures (g : Globals) : Option XMap :=
  let address := g.archInfo.xwEleAddrStart
  let xH := g.dataInfo.xH
  match g.archInfo.mode with
  | .xCmp | .mat =>
    mapFolds g.archInfo.bf xH g.archInfo.urb g.dataInfo.totalUrb ⟨g.xToAddr, address⟩
  | .csr => (mapCsr xH g.xToAddr address).map fun s => ⟨s.table, wrapAddr s.address⟩
  | .xFullCmp => do
    let s ← mapFullHeaders xH (xChange g.dataInfo.xW) ⟨g.xToAddr, address⟩
    mapFullCells xH s

/-- `Preprocessor::AddressMapping`. -/
def addressMapping (g : Globals) : Option Globals := do
  let g ← mapGraph g
  let s ← mapFeatures g
  return { g with
    archInfo := { g.archInfo with axwAddrStart := s.address }
    xToAddr := s.table }

/-! ## The constructor -/

/-- `total_write += data_index[i].total_write`, in `uint64_t`. -/
def sumTotalWrite (dataIndex : ℕ → DataIndex) : ℕ → ℕ
  | 0 => 0
  | n + 1 => uint64 (sumTotalWrite dataIndex n + (dataIndex n).totalWrite)

/-- The globals before `TransXW`: the graph is distributed and tiled. -/
def distribute (inp : Input) : Globals := tiling (lac (readData inp))

/-- `Preprocessor::Preprocessor`. -/
def preprocess (inp : Input) : Option Globals := do
  let g ← addressMapping (transXW inp.xw (distribute inp))
  return { g with totalWrite := sumTotalWrite g.dataIndex g.archInfo.nOfEngine }

/-! ## A small input -/

/-- Three vertices with the rows `{1, 2}`, `{}` and `{0}`. -/
def Graph.threeVertices : Graph where
  rowPtr := [0, 2, 2, 3]
  colIdx := [1, 2, 0]
  valid := ⟨rfl, by decide, rfl⟩
  col_lt := by decide

/-- Two engines that deal out single rows, and two folds of sixteen features. -/
def Input.threeVertices : Input where
  graph := .threeVertices
  xW := 32
  xw := fun _ _ => 1
  nOfEngine := 2
  lacWidth := 1
  nTiles := 1
  xUnit := 16
  bf := 2
  mode := .xCmp
  gnnMode := .gcn
  cacheWay := 2
  cacheSet := 4

end Sgcn

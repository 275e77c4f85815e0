-- SUMMARY: The graph prefetcher of one engine (`g_reader.cc`).
import Sgcn.Model.Memory
import Mathlib.Tactic.SplitIfs

/-!
# The graph reader

A graph reader requests the row pointer, the columns and the values of its
sub-graph `bf` times over, counts the lines that arrive, and turns them into a
stream of edges. Three windows (`rowEndIdx`, `colEndIdx`, `valEndIdx`) say how
far the current round has arrived, and an overflow counter per window says how
many complete rounds are ahead of the cursor.
-/

namespace Sgcn

/-- `GR_STAT`, `GR_FLAG` and the private counters of one reader. -/
structure GraphReader where
  rowEndIdx : ℕ
  colEndIdx : ℕ
  valEndIdx : ℕ
  curRowIdx : ℕ
  curColIdx : ℕ
  curValIdx : ℕ
  rowOverflow : ℤ
  colOverflow : ℤ
  valOverflow : ℤ
  remainEdge : ℤ
  nextVAddr : ℕ
  nextEAddr : ℕ
  nextValAddr : ℕ
  vReqOver : Bool
  eReqOver : Bool
  vReciOver : Bool
  eReciOver : Bool
  valReciOver : Bool
  reciOver : Bool
  passOver : Bool
  vReqCount : ℕ
  eReqCount : ℕ
  vReciCount : ℕ
  eReciCount : ℕ
  valReciCount : ℕ
  gPassCount : ℕ

namespace GraphReader

/-- `GraphReader::GraphReader`. Without edge values the value window is open from
the start. -/
def init (g : Globals) (id : ℕ) : GraphReader where
  rowEndIdx := 0
  colEndIdx := 0
  valEndIdx := if g.archInfo.gnnMode = .other then (g.colIdx id).length else 0
  curRowIdx := 1
  curColIdx := 0
  curValIdx := 0
  rowOverflow := 0
  colOverflow := 0
  valOverflow := if g.archInfo.gnnMode = .other then g.archInfo.bf else 0
  remainEdge := 0
  nextVAddr := (g.dataIndex id).rowAddrStart
  nextEAddr := (g.dataIndex id).colAddrStart
  nextValAddr := (g.dataIndex id).valueAddrStart
  vReqOver := false
  eReqOver := false
  vReciOver := false
  eReciOver := false
  valReciOver := decide (g.archInfo.gnnMode = .other)
  reciOver := false
  passOver := false
  vReqCount := 0
  eReqCount := 0
  vReciCount := 0
  eReciCount := 0
  valReciCount := 0
  gPassCount := 0

/-! ## Requests -/

/-- `GraphReader::VertexRequest`. -/
def vertexRequest (g : Globals) (id : ℕ) (r : GraphReader) (m : Memory) :
    GraphReader × Memory :=
  if m.willAcceptTransaction then
    let m := m.addTransaction ⟨r.nextVAddr, false⟩
    let r := { r with nextVAddr := r.nextVAddr + cacheLineByte }
    if r.nextVAddr = (g.dataIndex id).rowAddrEnd then
      let r := { r with
        vReqCount := r.vReqCount + 1
        nextVAddr := (g.dataIndex id).rowAddrStart }
      if r.vReqCount = g.archInfo.bf then ({ r with vReqOver := true }, m) else (r, m)
    else (r, m)
  else (r, m)

/-- `GraphReader::EdgeRequest`. Only the column address is tested for the end of
a round; the value address follows it. -/
def edgeRequest (g : Globals) (id : ℕ) (r : GraphReader) (m : Memory) :
    GraphReader × Memory :=
  if m.willAcceptTransaction then
    let m := m.addTransaction ⟨r.nextEAddr, false⟩
    let (r, m) := if g.archInfo.gnnMode = .gcn then
        ({ r with nextValAddr := r.nextValAddr + cacheLineByte },
          m.addTransaction ⟨r.nextValAddr, false⟩)
      else (r, m)
    let r := { r with nextEAddr := r.nextEAddr + cacheLineByte }
    if r.nextEAddr = (g.dataIndex id).colAddrEnd then
      let r := { r with
        eReqCount := r.eReqCount + 1
        nextEAddr := (g.dataIndex id).colAddrStart
        nextValAddr := if g.archInfo.gnnMode = .gcn then (g.dataIndex id).valueAddrStart
          else r.nextValAddr }
      if r.eReqCount = g.archInfo.bf then ({ r with eReqOver := true }, m) else (r, m)
    else (r, m)
  else (r, m)

/-! ## Replies -/

/-- How one window moves when a line arrives: a full window starts over and
counts an overflow. The last component says whether the window is now full. -/
def advance (size endIdx : ℕ) (overflow : ℤ) : ℕ × ℤ × Bool :=
  let endIdx' := if endIdx = size then 0 else endIdx
  let overflow' := if endIdx = size then overflow + 1 else overflow
  let endIdx' := endIdx' + cacheLineCount
  if size ≤ endIdx' then (size, overflow', true) else (endIdx', overflow', false)

/-- The window update of `GraphReader::GraphReceive` for a line of kind `reci`. -/
def receive (g : Globals) (id : ℕ) (reci : RType) (r : GraphReader) : GraphReader :=
  match reci with
  | .row =>
    let w := advance (g.rowPtr id).length r.rowEndIdx r.rowOverflow
    let cnt := if w.2.2 then r.vReciCount + 1 else r.vReciCount
    { r with
      rowEndIdx := w.1, rowOverflow := w.2.1, vReciCount := cnt
      vReciOver := r.vReciOver || (w.2.2 && decide (cnt = g.archInfo.bf)) }
  | .column =>
    let w := advance (g.colIdx id).length r.colEndIdx r.colOverflow
    let cnt := if w.2.2 then r.eReciCount + 1 else r.eReciCount
    { r with
      colEndIdx := w.1, colOverflow := w.2.1, eReciCount := cnt
      eReciOver := r.eReciOver || (w.2.2 && decide (cnt = g.archInfo.bf)) }
  | .value =>
    let w := advance (g.colIdx id).length r.valEndIdx r.valOverflow
    let cnt := if w.2.2 then r.valReciCount + 1 else r.valReciCount
    { r with
      valEndIdx := w.1, valOverflow := w.2.1, valReciCount := cnt
      valReciOver := r.valReciOver || (w.2.2 && decide (cnt = g.archInfo.bf)) }
  | .empty => r

/-- `GraphReader::GraphReceive` on the reply `GetGraph` returned. -/
def graphReceive (g : Globals) (id : ℕ) (reci : RType) (r : GraphReader) : GraphReader :=
  let r := r.receive g id reci
  if r.vReciOver && r.eReciOver && r.valReciOver then { r with reciOver := true } else r

/-! ## The edge stream -/

/-- One iteration of the `while (remain_edge == 0)` loop of `NextFeature`. The
flag is false when the iteration breaks out of the loop. A read outside `row_ptr`
is undefined. -/
def skipStep (rowPtr : List ℕ) (r : GraphReader) : Option (GraphReader × Bool) :=
  if r.curRowIdx = rowPtr.length ∧ r.rowOverflow = 0 then some (r, false)
  else
    let r := if r.curRowIdx = rowPtr.length ∧ 0 < r.rowOverflow then
      { r with curRowIdx := 1, rowOverflow := r.rowOverflow - 1 } else r
    match rowPtr[r.curRowIdx]? with
    | none => none
    | some hi =>
      let r := { r with
        remainEdge := (hi : ℤ) - vget rowPtr (r.curRowIdx - 1)
        curRowIdx := r.curRowIdx + 1 }
      some (r, decide (¬ (r.curRowIdx = r.rowEndIdx ∧ r.rowOverflow = 0)))

/-- What one iteration does: it stops at the end of the last received round, or
enters the first row of the next round, or enters the next row. -/
theorem skipStep_cases {rowPtr : List ℕ} {r r' : GraphReader} {more : Bool}
    (h : skipStep rowPtr r = some (r', more)) :
    (r.curRowIdx = rowPtr.length ∧ r.rowOverflow = 0 ∧ r' = r ∧ more = false) ∨
    (r.curRowIdx = rowPtr.length ∧ 0 < r.rowOverflow ∧ 1 < rowPtr.length ∧
      r' = { r with
        curRowIdx := 2
        rowOverflow := r.rowOverflow - 1
        remainEdge := (vget rowPtr 1 : ℤ) - vget rowPtr 0 } ∧
      (more = false ↔ 2 = r.rowEndIdx ∧ r.rowOverflow - 1 = 0)) ∨
    (r.curRowIdx < rowPtr.length ∧
      r' = { r with
        curRowIdx := r.curRowIdx + 1
        remainEdge := (vget rowPtr r.curRowIdx : ℤ) - vget rowPtr (r.curRowIdx - 1) } ∧
      (more = false ↔ r.curRowIdx + 1 = r.rowEndIdx ∧ r.rowOverflow = 0)) := by
  unfold skipStep at h
  split at h
  · next hend =>
    cases h
    exact .inl ⟨hend.1, hend.2, rfl, rfl⟩
  · next hend =>
    by_cases hwrap : r.curRowIdx = rowPtr.length ∧ 0 < r.rowOverflow
    · simp only [if_pos hwrap] at h
      split at h
      · cases h
      · next hi hget =>
        cases h
        have hlt := (List.getElem?_eq_some_iff.mp hget).1
        rw [getElem?_eq_vget hlt] at hget
        cases hget
        refine .inr (.inl ⟨hwrap.1, hwrap.2, hlt, rfl, ?_⟩)
        simp
    · simp only [if_neg hwrap] at h
      split at h
      · cases h
      · next hi hget =>
        cases h
        have hlt := (List.getElem?_eq_some_iff.mp hget).1
        rw [getElem?_eq_vget hlt] at hget
        cases hget
        refine .inr (.inr ⟨hlt, rfl, ?_⟩)
        simp

/-- The `while (remain_edge == 0)` loop of `NextFeature`: enter rows until one has
an edge or the received rows are used up. -/
def skipRows (rowPtr : List ℕ) (r : GraphReader) : Option GraphReader :=
  if r.remainEdge ≠ 0 then some r
  else
    match _h : skipStep rowPtr r with
    | none => none
    | some (r', false) => some r'
    | some (r', true) => skipRows rowPtr r'
termination_by (r.rowOverflow.toNat, rowPtr.length - r.curRowIdx)
decreasing_by
  rcases skipStep_cases _h with ⟨_, _, _, hmore⟩ | ⟨_, hpos, _, rfl, _⟩ | ⟨hlt, rfl, _⟩
  · cases hmore
  · exact Prod.Lex.left _ _ (by simp only; omega)
  · exact Prod.Lex.right _ (by simp only; omega)

/-- The row part of `NextFeature`. -/
def enterRows (rowPtr : List ℕ) (r : GraphReader) : Option GraphReader :=
  if r.curRowIdx < r.rowEndIdx ∨ 0 < r.rowOverflow then skipRows rowPtr r else some r

/-- The current row has an edge left, and a column and a value are there for it. -/
def ready (r : GraphReader) : Bool :=
  decide (0 < r.remainEdge ∧
    (r.curColIdx < r.colEndIdx ∨ 0 < r.colOverflow) ∧
    (r.curValIdx < r.valEndIdx ∨ 0 < r.valOverflow))

/-- At the end of the columns the cursors go back to the start and the next fold
begins. -/
def wrapCols (size : ℕ) (r : GraphReader) : GraphReader :=
  if r.curColIdx = size ∧ 0 < r.colOverflow then
    { r with
      curColIdx := 0, curValIdx := 0
      colOverflow := r.colOverflow - 1, valOverflow := r.valOverflow - 1
      gPassCount := r.gPassCount + 1 }
  else r

/-- The column part of `NextFeature`: pass on the edge at the column cursor. -/
def passEdge (g : Globals) (id : ℕ) (r : GraphReader) :
    Option (GraphReader × Option EdgeInfo) :=
  let size := (g.colIdx id).length
  let u := r.wrapCols size
  if r.curColIdx = size ∧ u.gPassCount = g.archInfo.bf then
    some ({ u with passOver := true }, none)
  else
    (g.colIdx id)[u.curColIdx]?.map fun dst =>
      ({ u with
          curColIdx := u.curColIdx + 1, curValIdx := u.curValIdx + 1
          remainEdge := u.remainEdge - 1 },
        some ⟨id, decide (u.remainEdge - 1 = 0), dst, u.gPassCount⟩)

/-- `GraphReader::NextFeature`. -/
def nextFeature (g : Globals) (id : ℕ) (r : GraphReader) :
    Option (GraphReader × Option EdgeInfo) :=
  if r.curColIdx = (g.colIdx id).length ∧ r.gPassCount + 1 = g.archInfo.bf then
    some ({ r with passOver := true }, none)
  else
    (enterRows (g.rowPtr id) r).bind fun r =>
      if r.ready then r.passEdge g id else some (r, none)

end GraphReader

end Sgcn

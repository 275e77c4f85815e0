-- SUMMARY: What the preprocessor hands over: the sub-graphs, their regions, and in `X_CMP` the feature table and the counters.
import Sgcn.Layout.Features
import Sgcn.Partition.Tiling
import Mathlib.Algebra.BigOperators.Group.Finset.Basic

/-!
# The prepared globals

The results about the single passes of the preprocessor, put together.
-/

namespace Sgcn

variable {inp : Input} {g : Globals}

/-! ## Every mode -/

/-- What `TransXW` leaves alone. -/
theorem transXW_graph (xw : ℕ → ℕ → ℤ) (g : Globals) :
    (transXW xw g).rowPtr = g.rowPtr ∧ (transXW xw g).colIdx = g.colIdx ∧
      (transXW xw g).archInfo.nOfEngine = g.archInfo.nOfEngine ∧
      (transXW xw g).archInfo.gnnMode = g.archInfo.gnnMode ∧
      (transXW xw g).dataInfo.xH = g.dataInfo.xH ∧ (transXW xw g).dataInfo.aH = g.dataInfo.aH ∧
      ∀ i, ((transXW xw g).dataIndex i).row = (g.dataIndex i).row ∧
        ((transXW xw g).dataIndex i).zeroRow = (g.dataIndex i).zeroRow := by
  cases hmode : g.archInfo.mode <;> simp only [transXW, hmode, implies_true, and_self]

/-- The graph side of the globals that `AddressMapping` and the constructor leave. -/
structure Prepared (inp : Input) (g : Globals) : Prop where
  layout : GraphLayout g
  rowPtr_eq : ∀ i, g.rowPtr i = rowPtrOf (inp.engineRows i)
  colIdx_eq : ∀ i, g.colIdx i = (inp.engineRows i).flatten
  nOfEngine_eq : g.archInfo.nOfEngine = inp.nOfEngine
  gnnMode_eq : g.archInfo.gnnMode = inp.gnnMode
  xH_eq : g.dataInfo.xH = inp.graph.rowPtr.length - 1
  aH_eq : g.dataInfo.aH = inp.graph.rowPtr.length - 1
  workRows_eq : ∀ i, (g.dataIndex i).row - (g.dataIndex i).zeroRow = workRows (inp.engineRows i)

/-- The last step of the constructor. -/
theorem preprocess_spec (h : preprocess inp = some g) :
    ∃ g₁, addressMapping (transXW inp.xw (distribute inp)) = some g₁ ∧
      g = { g₁ with totalWrite := sumTotalWrite g₁.dataIndex g₁.archInfo.nOfEngine } := by
  unfold preprocess at h
  obtain ⟨g₁, hmap, hret⟩ := Option.bind_eq_some_iff.mp h
  exact ⟨g₁, hmap, (Option.some.inj hret).symm⟩

theorem prepared_of_preprocess (h : preprocess inp = some g) : Prepared inp g := by
  obtain ⟨g₁, hmap, rfl⟩ := preprocess_spec h
  have hlayout := addressMapping_layout hmap
  obtain ⟨g₂, s, hgraph, -, rfl⟩ := addressMapping_spec hmap
  obtain ⟨-, hinfo, hrow, hcol, -, -, harch, hindex⟩ := mapGraph_spec hgraph
  obtain ⟨hrow', hcol', hn, hgnn, hxH, haH, hindex'⟩ := transXW_graph inp.xw (distribute inp)
  obtain ⟨hdinfo, hdarch⟩ := distribute_info inp
  refine ⟨⟨hlayout.1, hlayout.2, hlayout.3, hlayout.4, hlayout.5, hlayout.6, hlayout.7⟩,
    fun i => ?_, fun i => ?_, ?_, ?_, ?_, ?_, fun i => ?_⟩
  · simp only [hrow, hrow', (distribute_engine inp i).1]
  · simp only [hcol, hcol', (distribute_engine inp i).2.1]
  · simp only
    rw [harch]
    simp only [hn, hdarch, readData]
  · simp only
    rw [harch]
    simp only [hgnn, hdarch, readData]
  · simp only [hinfo, hxH, hdinfo, readData]
  · simp only [hinfo, haH, hdinfo, readData]
  · simp only
    rw [hindex i]
    simp only [hindex' i, (distribute_engine inp i).2.2, DataIndex.setRows]
    exact length_sub_zeroRows _

/-! ## Geometry -/

/-- `bf` as the units see it. -/
def Input.folds (inp : Input) : ℕ :=
  match inp.mode with
  | .xCmp => ceilDiv inp.xW inp.xUnit
  | _ => inp.bf

/-- `urb` as the units see it: lines per row and fold. -/
def Input.foldLines (inp : Input) : ℕ :=
  match inp.mode with
  | .xCmp => ceilDiv inp.xUnit cacheLineCount
  | _ => ⌈floatDiv (floatDiv (toFloat inp.xW) inp.bf) cacheLineCount⌉₊

/-- `total_urb` as the units see it: lines per row. -/
def Input.rowLines (inp : Input) : ℕ :=
  match inp.mode with
  | .xCmp => inp.folds * inp.foldLines
  | _ => ceilDiv inp.xW cacheLineCount

/-- The geometry, the rows of an engine and its budget in the globals. -/
structure Geometry (inp : Input) (g : Globals) : Prop where
  nOfEngine_eq : g.archInfo.nOfEngine = inp.nOfEngine
  bf_eq : g.archInfo.bf = inp.folds
  urb_eq : g.archInfo.urb = inp.foldLines
  totalUrb_eq : g.dataInfo.totalUrb = inp.rowLines
  rows_eq : ∀ i, (g.dataIndex i).row - (g.dataIndex i).zeroRow = workRows (inp.engineRows i)
  totalWrite_eq : ∀ i, (g.dataIndex i).totalWrite =
    int32 (workRows (inp.engineRows i) * inp.rowLines : ℕ)

theorem geometry_transXW (inp : Input) : Geometry inp (transXW inp.xw (distribute inp)) := by
  obtain ⟨hdinfo, hdarch⟩ := distribute_info inp
  obtain ⟨-, -, hn, -, -, -, hrow⟩ := transXW_graph inp.xw (distribute inp)
  have hindex := fun i => (distribute_engine inp i).2.2
  have hmode : (distribute inp).archInfo.mode = inp.mode := by rw [hdarch]; rfl
  have hrows : ∀ i, ((transXW inp.xw (distribute inp)).dataIndex i).row -
      ((transXW inp.xw (distribute inp)).dataIndex i).zeroRow = workRows (inp.engineRows i) := by
    intro i
    rw [(hrow i).1, (hrow i).2]
    simp only [hindex i, DataIndex.setRows]
    exact length_sub_zeroRows _
  have hwrite : ∀ i, ((distribute inp).dataIndex i).totalWrite =
      int32 (workRows (inp.engineRows i) * ceilDiv inp.xW cacheLineCount : ℕ) := by
    intro i
    simp only [hindex i, DataIndex.setRows, length_sub_zeroRows]
  have hzero : ∀ i, ((distribute inp).rowPtr i).length - 1 -
      ((distribute inp).dataIndex i).zeroRow = workRows (inp.engineRows i) := by
    intro i
    rw [hindex i, (distribute_engine inp i).1]
    exact length_sub_zeroRows _
  refine ⟨by rw [hn, hdarch]; rfl, ?_, ?_, ?_, hrows, fun i => ?_⟩
  · cases hm : inp.mode <;> simp only [transXW, hm, hdinfo, hdarch, Input.folds, readData]
  · cases hm : inp.mode <;> simp only [transXW, hm, hdarch, Input.foldLines, readData]
  · cases hm : inp.mode <;> simp only [transXW, hm, hdinfo, hdarch, Input.rowLines,
      Input.folds, Input.foldLines, readData]
  · cases hm : inp.mode with
    | xCmp => simp only [transXW, hm, hzero, hdinfo, hdarch, Input.rowLines, Input.folds,
        Input.foldLines, readData]
    | mat => simp only [transXW, hmode, hm, hwrite, Input.rowLines]
    | csr => simp only [transXW, hmode, hm, hwrite, Input.rowLines]
    | xFullCmp => simp only [transXW, hmode, hm, hwrite, Input.rowLines]

/-- `AddressMapping` leaves the geometry alone. -/
theorem geometry_of_preprocess (h : preprocess inp = some g) : Geometry inp g := by
  obtain ⟨g₁, hmap, rfl⟩ := preprocess_spec h
  obtain ⟨g₂, s, hgraph, -, rfl⟩ := addressMapping_spec hmap
  obtain ⟨-, hinfo, -, -, -, -, harch, hindex⟩ := mapGraph_spec hgraph
  have hgeo := geometry_transXW inp
  refine ⟨?_, ?_, ?_, ?_, fun i => ?_, fun i => ?_⟩
  · simp only
    rw [harch]
    exact hgeo.nOfEngine_eq
  · simp only
    rw [harch]
    exact hgeo.bf_eq
  · simp only
    rw [harch]
    exact hgeo.urb_eq
  · simp only [hinfo]
    exact hgeo.totalUrb_eq
  · simp only
    rw [hindex i]
    exact hgeo.rows_eq i
  · simp only
    rw [hindex i]
    exact hgeo.totalWrite_eq i

/-- `total_write` is the sum of the budgets when these are counts that fit in an
`int`, as many as there are engines. -/
theorem sumTotalWrite_eq {dataIndex : ℕ → DataIndex} {w : ℕ → ℕ} {n : ℕ} (hn : n ≤ 2 ^ 31)
    (heq : ∀ i < n, (dataIndex i).totalWrite = w i) (hlt : ∀ i < n, w i < 2 ^ 31) :
    sumTotalWrite dataIndex n = ∑ i ∈ Finset.range n, w i ∧
      ∑ i ∈ Finset.range n, w i ≤ n * 2 ^ 31 := by
  induction n with
  | zero => simp [sumTotalWrite]
  | succ n ih =>
    obtain ⟨hsum, hle⟩ := ih (by omega) (fun i hi => heq i (by omega)) (fun i hi => hlt i (by omega))
    have hlast := hlt n n.lt_succ_self
    rw [Finset.sum_range_succ, sumTotalWrite, hsum, heq n n.lt_succ_self]
    have huint := uint64_eq (z := (∑ i ∈ Finset.range n, w i : ℕ) + (w n : ℤ)) (by omega) (by omega)
    exact ⟨by omega, by omega⟩

namespace Prepared

variable {i : ℕ}

theorem valid (h : Prepared inp g) (i : ℕ) : ValidCsr (g.rowPtr i) (g.colIdx i) := by
  rw [h.rowPtr_eq, h.colIdx_eq]
  exact validCsr_rowPtrOf _

/-- Tiling and distribution make up no column. -/
theorem mem_engineRows {row : List ℕ} {c : ℕ} (hrow : row ∈ inp.engineRows i) (hc : c ∈ row) :
    c ∈ inp.graph.colIdx := by
  have hlac : ∀ row ∈ inp.lacRows i, ∀ c ∈ row, c ∈ inp.graph.colIdx := by
    intro row hrow c hc
    obtain ⟨v, -, rfl⟩ := List.mem_map.mp hrow
    exact List.mem_of_mem_drop (List.mem_of_mem_take hc)
  unfold Input.engineRows at hrow
  split at hrow
  · obtain ⟨k, -, hk⟩ := List.mem_flatMap.mp hrow
    obtain ⟨row', hrow', rfl⟩ := List.mem_map.mp hk
    exact hlac row' hrow' c (List.mem_of_mem_filter hc)
  · exact hlac row hrow c hc

/-- Every edge names a row of the feature table. -/
theorem col_lt (h : Prepared inp g) {c : ℕ} (hc : c ∈ g.colIdx i) : c < g.dataInfo.xH := by
  rw [h.colIdx_eq] at hc
  obtain ⟨row, hrow, hmem⟩ := List.mem_flatten.mp hc
  rw [h.xH_eq]
  exact inp.graph.col_lt c (mem_engineRows hrow hmem)

/-- An engine with an edge has a column. -/
theorem colIdx_pos (h : Prepared inp g)
    (hedge : ∀ i < inp.nOfEngine, (inp.engineRows i).flatten ≠ []) :
    ∀ i < g.archInfo.nOfEngine, 0 < (g.colIdx i).length := by
  intro i hi
  rw [h.nOfEngine_eq] at hi
  rw [h.colIdx_eq]
  exact List.length_pos_iff.mpr (hedge i hi)

end Prepared

/-! ## `X_CMP` -/

/-- The feature side of the globals in mode `X_CMP`. -/
structure PreparedXCmp (inp : Input) (g : Globals) : Prop extends Prepared inp g where
  mode_eq : g.archInfo.mode = .xCmp
  table : FeatureTable g
  bf_eq : g.archInfo.bf = ceilDiv inp.xW inp.xUnit
  urb_eq : g.archInfo.urb = ceilDiv inp.xUnit cacheLineCount
  totalWrite_eq : ∀ i, (g.dataIndex i).totalWrite =
    int32 (workRows (inp.engineRows i) * g.dataInfo.totalUrb : ℕ)
  sum_eq : g.totalWrite = sumTotalWrite g.dataIndex g.archInfo.nOfEngine

theorem preparedXCmp_of_preprocess (hmode : inp.mode = .xCmp) (hunit : 1 ≤ inp.xUnit)
    (hn : 1 ≤ inp.nOfEngine) (h : preprocess inp = some g) : PreparedXCmp inp g := by
  have hprep := prepared_of_preprocess h
  obtain ⟨hdinfo, hdarch⟩ := distribute_info inp
  have hmode' : (distribute inp).archInfo.mode = .xCmp := by rw [hdarch]; exact hmode
  obtain ⟨g₁, hmap, rfl⟩ := preprocess_spec h
  have htable : FeatureTable g₁ := by
    refine featureTable_of_addressMapping hmode' ?_ ?_ ?_ hmap
    · rw [hdarch]; exact hunit
    · rw [hdarch]; exact hn
    · rw [(distribute_engine inp 0).1, length_rowPtrOf]; omega
  obtain ⟨g₂, s, hgraph, -, rfl⟩ := addressMapping_spec hmap
  obtain ⟨-, hinfo, hrow, hcol, -, -, harch, hindex⟩ := mapGraph_spec hgraph
  rw [transXW_xCmp _ hmode'] at hinfo hrow harch hindex
  refine ⟨hprep, ?_, ⟨htable.1, htable.2, htable.3⟩, ?_, ?_, fun i => ?_, rfl⟩
  · simp only
    rw [harch]
    exact hmode'
  · simp only
    rw [harch]
    simp only [hdinfo, hdarch, readData]
  · simp only
    rw [harch]
    simp only [hdarch, readData]
  · simp only
    rw [hindex i]
    simp only [hinfo, (distribute_engine inp i).2.2, (distribute_engine inp i).1,
      DataIndex.setRows, length_sub_zeroRows]

/-- How long the feature region is at most. -/
theorem axw_le_of_preprocess (hmode : inp.mode = .xCmp) (h : preprocess inp = some g) :
    g.archInfo.axwAddrStart ≤ g.archInfo.xwEleAddrStart +
      g.archInfo.bf * (g.dataInfo.xH * (g.archInfo.urb * cacheLineByte)) := by
  obtain ⟨g₁, hmap, rfl⟩ := preprocess_spec h
  obtain ⟨g₂, s, hgraph, hfeat, rfl⟩ := addressMapping_spec hmap
  have hmode₂ : g₂.archInfo.mode = .xCmp := by
    obtain ⟨-, -, -, -, -, -, harch, -⟩ := mapGraph_spec hgraph
    rw [harch, transXW_xCmp _ (by rw [(distribute_info inp).2]; exact hmode)]
    simp only [(distribute_info inp).2, readData]
    exact hmode
  unfold mapFeatures at hfeat
  simp only [hmode₂] at hfeat
  exact mapFolds_address_le hfeat

/-- With short arrays the outputs start early: three regions of a block per engine lie
before the features. -/
theorem axw_le_of_size (hmode : inp.mode = .xCmp) (h : preprocess inp = some g)
    (hsize : ∀ i < inp.nOfEngine, (rowPtrOf (inp.engineRows i)).length ≤ 2 ^ 24 ∧
      (inp.engineRows i).flatten.length ≤ 2 ^ 24) :
    g.archInfo.axwAddrStart ≤ 3 * (inp.nOfEngine * 2 ^ 26) +
      inp.folds * ((inp.graph.rowPtr.length - 1) * (inp.foldLines * cacheLineByte)) := by
  have hp := prepared_of_preprocess h
  have hgeo := geometry_of_preprocess h
  have hn := hp.nOfEngine_eq
  have hcol : Blocks.start (colBytes g) inp.nOfEngine ≤ inp.nOfEngine * 2 ^ 26 := by
    refine Blocks.start_le fun i hi => ?_
    rw [colBytes, hp.colIdx_eq]
    exact lineBytes_le (hsize i hi).2
  have hrow : Blocks.start (rowBytes g) inp.nOfEngine ≤ inp.nOfEngine * 2 ^ 26 := by
    refine Blocks.start_le fun i hi => ?_
    rw [rowBytes, hp.rowPtr_eq]
    exact lineBytes_le (hsize i hi).1
  have haxw := axw_le_of_preprocess hmode h
  rw [hgeo.bf_eq, hgeo.urb_eq, hp.xH_eq, hp.layout.xwEle, hp.layout.aCol, hp.layout.aRow,
    hn] at haxw
  refine haxw.trans (Nat.add_le_add_right ?_ _)
  omega

/-- The regions of the graph are laid out for arrays of up to `2 ^ 24` elements. -/
theorem mapGraph_input_isSome (inp : Input) (hsize : ∀ i < inp.nOfEngine,
      (rowPtrOf (inp.engineRows i)).length ≤ 2 ^ 24 ∧
        (inp.engineRows i).flatten.length ≤ 2 ^ 24) :
    ∃ g₁, mapGraph (transXW inp.xw (distribute inp)) = some g₁ := by
  obtain ⟨hrow, hcol, hn, -⟩ := transXW_graph inp.xw (distribute inp)
  refine mapGraph_isSome fun i hi => ?_
  rw [hrow, hcol, (distribute_engine inp i).1, (distribute_engine inp i).2.1]
  refine hsize i ?_
  rw [hn, (distribute_info inp).2] at hi
  exact hi

/-- The preprocessor is defined when both parts of the address mapping are. -/
theorem preprocess_isSome_of_maps {g₁ : Globals} {s : XMap}
    (hgraph : mapGraph (transXW inp.xw (distribute inp)) = some g₁)
    (hfeat : mapFeatures g₁ = some s) : ∃ g, preprocess inp = some g := by
  unfold preprocess addressMapping
  simp only [hgraph, hfeat, Option.bind_eq_bind, Option.bind_some]
  exact ⟨_, rfl⟩

/-- In mode `X_CMP` the preprocessor is defined for arrays of up to `2 ^ 24`
elements. -/
theorem preprocess_isSome (hmode : inp.mode = .xCmp) (hunit : 1 ≤ inp.xUnit)
    (hxW : inp.xW ≤ 2 ^ 24)
    (hsize : ∀ i < inp.nOfEngine, (rowPtrOf (inp.engineRows i)).length ≤ 2 ^ 24 ∧
      (inp.engineRows i).flatten.length ≤ 2 ^ 24) : ∃ g, preprocess inp = some g := by
  obtain ⟨hdinfo, hdarch⟩ := distribute_info inp
  have hmode' : (distribute inp).archInfo.mode = .xCmp := by rw [hdarch]; exact hmode
  have hunit' : 0 < (distribute inp).archInfo.xUnit := by rw [hdarch]; exact hunit
  have hxW' : (distribute inp).dataInfo.xW ≤ 2 ^ 24 := by rw [hdinfo]; exact hxW
  obtain ⟨g₁, hgraph⟩ := mapGraph_input_isSome inp hsize
  obtain ⟨-, hinfo, -, -, htable, -, harch, -⟩ := mapGraph_spec hgraph
  rw [transXW_xCmp _ hmode'] at hinfo htable harch
  have hurb : 0 < ceilDiv (distribute inp).archInfo.xUnit cacheLineCount :=
    ceilDiv_pos hunit' (by decide)
  have hbf := ceilDiv_eq hxW' hunit'
  generalize ceilDiv (distribute inp).archInfo.xUnit cacheLineCount = urb at *
  generalize ceilDiv (distribute inp).dataInfo.xW (distribute inp).archInfo.xUnit = bf at *
  obtain ⟨s, hfeat⟩ : ∃ s, mapFeatures g₁ = some s := by
    have hmode₁ : g₁.archInfo.mode = .xCmp := by rw [harch]; exact hmode'
    unfold mapFeatures
    simp only [hmode₁]
    refine mapFolds_isSome fun r _ => ?_
    have hbf₁ : g₁.archInfo.bf = bf := by rw [harch]
    have hurb₁ : g₁.archInfo.urb = urb := by rw [harch]
    rw [hbf₁, hurb₁, htable]
    simp only
    rcases Nat.eq_zero_or_pos bf with rfl | hpos
    · simp
    · -- the float quotient is exact, so that a row has as many slices as there are folds
      have hlast := last_slice_width hpos urb
      obtain ⟨counts, hcount, -, heq⟩ :=
        transXCmpRow_eq (distribute inp).dataInfo.xW (inp.xw r) hunit' hlast
      rw [heq, length_flatten_map, hcount, flushes, if_pos rfl, ← hbf]
  exact preprocess_isSome_of_maps hgraph hfeat

/-- The first engine of the small input gets the rows of the vertices 0 and 2, the
second the empty row of vertex 1. -/
theorem engineRows_threeVertices :
    Input.threeVertices.engineRows 0 = [[1, 2], [0]] ∧ Input.threeVertices.engineRows 1 = [[]] :=
  ⟨rfl, rfl⟩

/-- The arrays of the small input are short. -/
theorem size_threeVertices : ∀ i < Input.threeVertices.nOfEngine,
    (rowPtrOf (Input.threeVertices.engineRows i)).length ≤ 2 ^ 24 ∧
      (Input.threeVertices.engineRows i).flatten.length ≤ 2 ^ 24 := by
  intro i hi
  have hcases : i = 0 ∨ i = 1 := by
    have : i < 2 := hi
    omega
  rcases hcases with rfl | rfl
  · rw [engineRows_threeVertices.1]
    decide
  · rw [engineRows_threeVertices.2]
    decide

theorem preprocess_threeVertices : ∃ g, preprocess .threeVertices = some g :=
  preprocess_isSome rfl (by decide) (by decide) size_threeVertices

/-- Two folds of one line for each of the three vertices. -/
theorem geometry_threeVertices (hg : preprocess .threeVertices = some g) :
    g.archInfo.bf = 2 ∧ g.archInfo.urb = 1 ∧ g.dataInfo.xH = 3 := by
  have hp := preparedXCmp_of_preprocess rfl (by decide) (by decide) hg
  exact ⟨hp.bf_eq.trans (ceilDiv_eq (by decide) (by decide)),
    hp.urb_eq.trans (ceilDiv_eq (by decide) (by decide)), hp.xH_eq⟩

end Sgcn

-- SUMMARY: The preprocessor leaves a table with plans in every mode.
import Sgcn.Feature.HeadedReads
import Sgcn.Feature.MatReads
import Sgcn.Feature.Plan
import Sgcn.Layout.SharedHeaders
import Sgcn.Output.Simd

/-!
# The tables of the modes

Under what conditions the preprocessor is defined, and its table has a non-empty plan for
every edge, is a matter of the mode. The rest of a run is not.
-/

namespace Sgcn

open FeatureReader

variable {inp : Input} {g : Globals} {a : ℕ}

/-- What the table of each mode asks of the input: `CSR` reads behind the header of every row,
the headers of `X_FULL_CMP` share lines, and all modes but `X_CMP` take the number of folds from
the configuration, so that the last fold may start behind the end of a row. -/
structure ModeOk (inp : Input) : Prop where
  xUnit_pos : inp.mode = .xCmp → 1 ≤ inp.xUnit
  bf_pos : inp.mode ≠ .xCmp → 1 ≤ inp.bf
  inside : inp.mode ≠ .xCmp → (inp.bf - 1) * inp.foldLines < inp.rowLines
  csr_rows : inp.mode = .csr → ∀ i < inp.aH, ∃ j < inp.xW, inp.xw i j ≠ 0
  full_width : inp.mode = .xFullCmp → inp.xW ≤ 512

namespace Prepared

/-- The graph takes up the first lines, so that a feature address is no marker. -/
theorem isCell (hp : Prepared inp g) (hn : 1 ≤ inp.nOfEngine)
    (hge : g.archInfo.xwEleAddrStart ≤ a) : IsCell g.archInfo a := by
  have hstart : cacheLineByte ≤ g.archInfo.xwEleAddrStart := by
    refine hp.layout.line_le_xwEle (by rw [hp.nOfEngine_eq]; exact hn) ?_
    rw [hp.rowPtr_eq, length_rowPtrOf]
    omega
  simp only [cacheLineByte] at hstart
  exact ⟨hge, by omega⟩

end Prepared

/-! ## `X_CMP` and `MAT` -/

theorem planTable_xCmp (hmode : g.archInfo.mode = .xCmp) (ht : FeatureTable g) : PlanTable g where
  pos := fun dst hdst fold hfold => by
    rw [plan_xCmp hmode]
    exact (ht.sliceSpec hdst hfold).pos
  cell := fun dst hdst fold hfold a ha => by
    rw [plan_xCmp hmode] at ha
    exact ((ht.sliceSpec hdst hfold).mem a ha).isCell
  header := fun hhead => absurd hhead (not_headed_xCmp hmode)
  slices := fun _ => ht
  rows := fun hmat => by rw [hmode] at hmat; cases hmat

/-- A slot of a fold that starts inside the row is mapped. -/
theorem planTable_mat (hmode : inp.mode = .mat) (hn : 1 ≤ inp.nOfEngine) (hxW : 1 ≤ inp.xW)
    (hok : ModeOk inp) (hg : preprocess inp = some g) : PlanTable g := by
  have hp := prepared_of_preprocess hg
  have hgeo := geometry_of_preprocess hg
  obtain ⟨hgmode, -, hfeat⟩ := mapFeatures_of_preprocess hg
  rw [hmode] at hgmode
  have hne : inp.mode ≠ .xCmp := by rw [hmode]; decide
  have hbf : g.archInfo.bf = inp.bf := by
    rw [hgeo.bf_eq]
    simp only [Input.folds, hmode]
  have hurb : 0 < g.archInfo.urb := by
    rw [hgeo.urb_eq]
    exact foldLines_pos hmode hxW (hok.bf_pos hne)
  have hinside := hok.inside hne
  rw [← hbf, ← hgeo.urb_eq, ← hgeo.totalUrb_eq] at hinside
  unfold mapFeatures at hfeat
  simp only [hgmode] at hfeat
  have hinv := mapFolds_inv hfeat
  have hcells : ∀ r, inp.cells r = List.replicate g.dataInfo.totalUrb 1 := by
    intro r
    rw [hgeo.totalUrb_eq]
    simp only [Input.cells, Input.rowLines, hmode]
  have hrow : ∀ r, (g.xToAddr r).length = g.dataInfo.totalUrb := by
    intro r
    rw [hinv.length_eq r, hcells, List.length_replicate]
  have hstart : ∀ fold < g.archInfo.bf, fold * g.archInfo.urb < g.dataInfo.totalUrb :=
    fun fold hfold => (fold_start_le hfold).trans_lt hinside
  refine ⟨fun dst _ fold hfold => ?_, fun dst hdst fold hfold a ha => ?_,
    fun hhead => absurd hhead (not_headed_mat hgmode), fun hx => ?_, fun _ dst _ => (hrow dst).ge⟩
  · have := hstart fold hfold
    rw [plan_mat hgmode, slice, List.length_take, List.length_drop, hrow]
    omega
  · rw [plan_mat hgmode, slice] at ha
    obtain ⟨k, hk⟩ := List.getElem?_of_mem ha
    rw [List.getElem?_take] at hk
    split at hk
    · next hlt =>
      rw [List.getElem?_drop] at hk
      have hcol : fold * g.archInfo.urb + k < g.dataInfo.totalUrb := by omega
      obtain ⟨b, hb, hge, -⟩ := hinv.mapped dst (fold * g.archInfo.urb + k)
        ⟨hdst, fold, hfold, by omega, by omega, .inl hcol⟩
        (by rw [hcells, List.getElem?_replicate, if_pos hcol])
      obtain rfl : b = a := Option.some.inj (hb.symm.trans hk)
      exact hp.isCell hn hge
    · cases hk
  · rw [hgmode] at hx
    cases hx

/-! ## The headed modes -/

/-- A headed table has plans when every row has a line behind its header. -/
theorem planTable_headed (hp : Prepared inp g) (hn : 1 ≤ inp.nOfEngine) (hhead : Headed g)
    (hlong : ∀ r < g.dataInfo.xH, 2 ≤ (g.xToAddr r).length)
    (hge : ∀ r < g.dataInfo.xH, ∀ a ∈ g.xToAddr r, g.archInfo.xwEleAddrStart ≤ a) :
    PlanTable g := by
  have hmode : ∀ m, g.archInfo.mode = m → m = .csr ∨ m = .xFullCmp := by
    rintro m rfl
    exact hhead
  refine ⟨fun dst hdst fold _ => ?_, fun dst hdst fold _ a ha => ?_, fun _ dst hdst => ?_,
    fun h => ?_, fun h => ?_⟩
  · have := hlong dst hdst
    rw [plan_headed hhead, List.length_tail]
    omega
  · rw [plan_headed hhead] at ha
    exact hp.isCell hn (hge dst hdst a (List.mem_of_mem_tail ha))
  · have hpos := hlong dst hdst
    exact ⟨_, List.getElem?_eq_getElem (by omega), hp.isCell hn (hge dst hdst _ (List.getElem_mem _))⟩
  · rcases hmode _ h with hm | hm <;> cases hm
  · rcases hmode _ h with hm | hm <;> cases hm

theorem planTable_csr (hmode : inp.mode = .csr) (hn : 1 ≤ inp.nOfEngine) (hok : ModeOk inp)
    (hg : preprocess inp = some g) : PlanTable g := by
  have hp := prepared_of_preprocess hg
  have hrows : ∀ i < inp.aH, 0 < inp.rowCount i := fun i hi =>
    rowCount_pos.mpr (hok.csr_rows hmode i hi)
  have ht := headedTable_of_preprocess hmode hn hg hrows
  have hxH : g.dataInfo.xH = inp.aH := hp.xH_eq
  obtain ⟨-, hcells⟩ := csrTable_of_preprocess hmode hg
  refine planTable_headed hp hn ht.mode ht.long fun r hr a ha => ?_
  obtain ⟨hlen, hget⟩ := hcells r hr
  obtain ⟨c, hc, rfl⟩ := List.getElem_of_mem ha
  have hcell := hget c (by omega)
  rw [List.getElem?_eq_getElem hc, Option.some.injEq] at hcell
  -- no cell is counted back before the start of the region
  have hline : 0 ≤ csrCellLine inp.rowCount inp.rowBlocks g.dataInfo.xH r c :=
    csrCellLine_nonneg (fun j hj => ceilDiv_pos (hrows j (by omega)) (by decide)) hr
  have hwrap := wrapAddr_of_nonneg (x := g.archInfo.xwEleAddrStart +
    cacheLineByte * csrCellLine inp.rowCount inp.rowBlocks g.dataInfo.xH r c) (by positivity)
  rw [← hcell] at hwrap
  simp only [cacheLineByte] at hwrap
  omega

theorem planTable_xFullCmp (hmode : inp.mode = .xFullCmp) (hn : 1 ≤ inp.nOfEngine)
    (hxW : 1 ≤ inp.xW) (hg : preprocess inp = some g) : PlanTable g := by
  have hp := prepared_of_preprocess hg
  have hgmode := (mapFeatures_of_preprocess hg).1.trans hmode
  refine planTable_headed hp hn (.inr hgmode) (fun r hr => ?_) fun r hr a ha =>
    (inRegion_xFullCmp hmode hg hr ha).2.1
  have hpos : 0 < ceilDiv (ceilDiv inp.xW 32 + nonzeros inp.xW (inp.xw r)) cacheLineCount :=
    ceilDiv_pos (Nat.add_pos_left (ceilDiv_pos hxW (by decide)) _) (by decide)
  rw [((fullTable_of_preprocess hmode hg).2.2 r hr).1, length_cells_xFullCmp hmode]
  omega

/-! ## All modes -/

theorem planTable_of_preprocess (hn : 1 ≤ inp.nOfEngine) (hxW : 1 ≤ inp.xW) (hok : ModeOk inp)
    (hg : preprocess inp = some g) : PlanTable g := by
  cases hmode : inp.mode with
  | xCmp =>
    have hp := preparedXCmp_of_preprocess hmode (hok.xUnit_pos hmode) hn hg
    exact planTable_xCmp hp.mode_eq hp.table
  | mat => exact planTable_mat hmode hn hxW hok hg
  | csr => exact planTable_csr hmode hn hok hg
  | xFullCmp => exact planTable_xFullCmp hmode hn hxW hg

/-- The preprocessor is defined. -/
theorem preprocess_isSome_of_modeOk (hxW : 1 ≤ inp.xW) (hxW' : inp.xW ≤ 2 ^ 24)
    (hsize : ∀ i < inp.nOfEngine, (rowPtrOf (inp.engineRows i)).length ≤ 2 ^ 24 ∧
      (inp.engineRows i).flatten.length ≤ 2 ^ 24) (hok : ModeOk inp) :
    ∃ g, preprocess inp = some g := by
  obtain ⟨g₁, hgraph⟩ := mapGraph_input_isSome inp hsize
  cases hmode : inp.mode with
  | xCmp => exact preprocess_isSome hmode (hok.xUnit_pos hmode) hxW' hsize
  | mat =>
    refine preprocess_mat_isSome hmode hgraph fun f hf r _ c hc => ?_
    have hinside := hok.inside (by rw [hmode]; decide)
    have hfold : f < inp.bf := by simpa only [Input.folds, hmode] using hf
    have hstart : f * inp.foldLines < inp.rowLines := (fold_start_le hfold).trans_lt hinside
    rw [slotAccesses_of_le hstart.le] at hc
    have := (List.mem_range'_1.mp hc).2
    omega
  | csr => exact preprocess_csr_isSome hmode hgraph
  | xFullCmp =>
    exact preprocess_xFullCmp_isSome hmode hgraph
      (.inr (xChange_pos_iff.mpr ⟨hxW, hok.full_width hmode⟩))

end Sgcn

-- SUMMARY: Mode `X_FULL_CMP`: for which widths the layout is defined, and when rows share the lines of their bitmaps.
import Sgcn.Layout.FeatureRegion
import Sgcn.Partition.Work

/-!
# Shared bitmap headers

In mode `X_FULL_CMP` a row starts with a bitmap, and the first pass of
`AddressMapping` gives the bitmaps of `x_change` rows one line. A bitmap of more than
sixteen words makes `x_change` zero, and the pass divides by it. The second pass starts
at the first cell again: it gives every bitmap a line of its own, and the shared lines
are lost.
-/

namespace Sgcn

open Loop Blocks

variable {inp : Input} {g g₁ : Globals}

/-! ## The group size -/

/-- `x_change` is an integer quotient. -/
theorem xChange_eq (xW : ℕ) : xChange xW = cacheLineCount / ceilDiv xW 32 :=
  Fp.floor_div_ofNat (by decide) (by decide) _

/-- A bitmap of up to 512 columns fits in a line, and no other does. -/
theorem ceilDiv_bitmap_le_iff {xW : ℕ} : ceilDiv xW 32 ≤ cacheLineCount ↔ xW ≤ 512 := by
  rcases Nat.le_total xW (2 ^ 24) with hle | hge
  · rw [ceilDiv_eq hle (by decide)]
    simp only [cacheLineCount]
    omega
  · have hround := Fp.le_roundNat (p := 24) (by decide) hge le_rfl
    have hceil : ceilDiv xW 32 = (Fp.roundNat 24 xW + 32 - 1) / 32 :=
      ceilDiv_two_pow xW (k := 5) (by decide)
    rw [hceil]
    simp only [cacheLineCount]
    omega

theorem xChange_pos_iff {xW : ℕ} : 0 < xChange xW ↔ 1 ≤ xW ∧ xW ≤ 512 := by
  rw [xChange_eq, Nat.div_pos_iff, ceilDiv_bitmap_le_iff]
  refine and_congr_left fun hle => ⟨fun hpos => ?_, fun hpos => ceilDiv_pos hpos (by decide)⟩
  by_contra hzero
  rw [Nat.eq_zero_of_not_pos hzero, ceilDiv_zero] at hpos
  exact absurd hpos (lt_irrefl 0)

/-! ## When the layout is defined -/

/-- Every row has a header cell. -/
theorem length_cells_xFullCmp (hmode : inp.mode = .xFullCmp) (r : ℕ) :
    (inp.cells r).length =
      ceilDiv (ceilDiv inp.xW 32 + nonzeros inp.xW (inp.xw r)) cacheLineCount + 1 := by
  simp only [Input.cells, hmode, transXFullCmpRow, List.length_cons, List.length_replicate]

/-- In mode `X_FULL_CMP` the preprocessor is defined whenever the graph is laid out and no
row is left to a group of size zero. -/
theorem preprocess_xFullCmp_isSome (hmode : inp.mode = .xFullCmp)
    (hgraph : mapGraph (transXW inp.xw (distribute inp)) = some g₁)
    (h : inp.aH = 0 ∨ 0 < xChange inp.xW) : ∃ g, preprocess inp = some g := by
  obtain ⟨hmode₁, -, -, -, hxH, hxW, -, -, hcells⟩ := mapGraph_inputs hgraph
  obtain ⟨s, hs⟩ : ∃ s, mapFullHeaders inp.aH (xChange inp.xW)
      ⟨inp.cells, g₁.archInfo.xwEleAddrStart⟩ = some s := by
    rcases h with hzero | hpos
    · rw [hzero]
      exact ⟨_, rfl⟩
    · refine mapFullHeaders_isSome hpos fun r _ => ?_
      rw [length_cells_xFullCmp hmode]
      omega
  obtain ⟨s', hs', -⟩ := mapFullCells_spec s inp.aH
  have hfeat : mapFeatures g₁ = some s' := by
    unfold mapFeatures
    simp only [hmode₁, hmode, hxW, hcells]
    rw [show g₁.dataInfo.xH = inp.aH from hxH, hs]
    exact hs'
  exact preprocess_isSome_of_maps hgraph hfeat

/-- A row is only laid out with a group size that is not zero. -/
theorem preprocess_xFullCmp_eq_none (hmode : inp.mode = .xFullCmp) (hrows : 1 ≤ inp.aH)
    (hxW : 512 < inp.xW) : preprocess inp = none := by
  rw [Option.eq_none_iff_forall_ne_some]
  intro g hg
  have hxH : g.dataInfo.xH = inp.aH := (prepared_of_preprocess hg).xH_eq
  obtain ⟨hchange, -⟩ := fullTable_of_preprocess hmode hg
  have hle := (xChange_pos_iff.mp (hchange (by omega))).2
  omega

/-- The layout of mode `X_FULL_CMP` divides by a group size that is not zero, runs to its
end, and leaves an address in every cell. -/
structure FullMapped (inp : Input) : Prop where
  change_pos : 1 ≤ xChange inp.xW
  mapped : ∃ g, preprocess inp = some g ∧ ∀ r < inp.aH,
    (g.xToAddr r).length = (inp.cells r).length ∧ ∀ a ∈ g.xToAddr r, InRegion g.archInfo a

/-- With at least one row and one column, the layout is defined exactly for up to 512
columns. -/
theorem fullMapped_iff (hmode : inp.mode = .xFullCmp) (hrows : 1 ≤ inp.aH) (hxW : 1 ≤ inp.xW)
    (hgraph : mapGraph (transXW inp.xw (distribute inp)) = some g₁) :
    FullMapped inp ↔ inp.xW ≤ 512 := by
  constructor
  · intro h
    by_contra hlt
    obtain ⟨g, hg, -⟩ := h.mapped
    rw [preprocess_xFullCmp_eq_none hmode hrows (by omega)] at hg
    cases hg
  · intro hle
    have hpos := xChange_pos_iff.mpr ⟨hxW, hle⟩
    obtain ⟨g, hg⟩ := preprocess_xFullCmp_isSome hmode hgraph (.inr hpos)
    have hxH : g.dataInfo.xH = inp.aH := (prepared_of_preprocess hg).xH_eq
    obtain ⟨-, -, hcells⟩ := fullTable_of_preprocess hmode hg
    refine ⟨hpos, g, hg, fun r hr => ?_⟩
    rw [← hxH] at hr
    exact ⟨(hcells r hr).1, fun a ha => inRegion_xFullCmp hmode hg hr ha⟩

/-- Three vertices with one feature each, fully compressed. -/
def Input.fullFeatures : Input := { Input.oneFeature with mode := .xFullCmp }

theorem fullMapped_fullFeatures : FullMapped .fullFeatures := by
  obtain ⟨g₁, hgraph⟩ := mapGraph_input_isSome .fullFeatures size_threeVertices
  exact (fullMapped_iff rfl (by decide) (by decide) hgraph).mpr (by decide)

/-- The same with 513 features each: one word more than a line of bitmap. -/
def Input.wideFeatures : Input := { Input.fullFeatures with xW := 513 }

theorem not_fullMapped_wideFeatures :
    preprocess .wideFeatures = none ∧ ¬ FullMapped .wideFeatures := by
  have hnone : preprocess .wideFeatures = none :=
    preprocess_xFullCmp_eq_none rfl (by decide) (by decide)
  refine ⟨hnone, fun h => ?_⟩
  obtain ⟨g, hg, -⟩ := h.mapped
  rw [hnone] at hg
  cases hg

/-! ## Shared lines -/

/-- The number of rows whose bitmaps fit in one line. -/
def headerGroup (xW : ℕ) : ℕ := 16 / ((xW + 31) / 32)

/-- The first line behind the lines that the bitmaps of all rows need. -/
def payloadStart (xW : ℕ) (g : Globals) : ℕ :=
  g.archInfo.xwEleAddrStart +
    cacheLineByte * ((g.dataInfo.xH + headerGroup xW - 1) / headerGroup xW)

/-- Rows share the lines of their bitmaps group by group, and the other lines of the rows
follow one after the other up to the outputs. -/
structure SharedHeaders (xW : ℕ) (g : Globals) : Prop where
  header : ∀ i < g.dataInfo.xH, (g.xToAddr i)[0]? =
    some (g.archInfo.xwEleAddrStart + cacheLineByte * (i / headerGroup xW))
  shared : ∀ i < g.dataInfo.xH, ∀ j < g.dataInfo.xH,
    (g.xToAddr i)[0]? = (g.xToAddr j)[0]? ↔ i / headerGroup xW = j / headerGroup xW
  payload : ∃ n, ((List.range g.dataInfo.xH).flatMap fun i => (g.xToAddr i).tail) =
      (List.range n).map (fun k => payloadStart xW g + cacheLineByte * k) ∧
    g.archInfo.axwAddrStart = payloadStart xW g + cacheLineByte * n

theorem xChange_eq_headerGroup {xW : ℕ} (h : xW ≤ 512) : xChange xW = headerGroup xW := by
  rw [xChange_eq, ceilDiv_eq (h.trans (by decide)) (by decide)]
  rfl

theorem one_lt_headerGroup_iff {xW : ℕ} : 1 < headerGroup xW ↔ 1 ≤ xW ∧ xW ≤ 256 := by
  unfold headerGroup
  rcases Nat.eq_zero_or_pos xW with rfl | hpos
  · decide
  · rw [Nat.lt_iff_add_one_le, Nat.le_div_iff_mul_le (by omega)]
    omega

/-- A second row gets a line of its own behind the cells of the first. -/
theorem SharedHeaders.xH_le_one (hmode : inp.mode = .xFullCmp) (hg : preprocess inp = some g)
    (hxW : inp.xW ≤ 512) (h : SharedHeaders inp.xW g) (hpos : 0 < g.dataInfo.xH) :
    g.dataInfo.xH = 1 ∧ g.dataInfo.xH < headerGroup inp.xW := by
  obtain ⟨hchange, -, hrows⟩ := fullTable_of_preprocess hmode hg
  rw [xChange_eq_headerGroup hxW] at hchange hrows
  have hlen (r : ℕ) := length_cells_xFullCmp hmode r
  have hfirst := h.header 0 hpos
  rw [(hrows 0 hpos).2 0 (by rw [hlen]; omega), start_zero] at hfirst
  have hgroup : g.dataInfo.xH / headerGroup inp.xW = 0 := by
    simpa using hfirst
  have hlt : g.dataInfo.xH < headerGroup inp.xW :=
    (Nat.div_eq_zero_iff.mp hgroup).resolve_left (hchange hpos).ne'
  refine ⟨?_, hlt⟩
  by_contra hne
  have hone : 1 < g.dataInfo.xH := by omega
  have hsecond := h.header 1 hone
  rw [(hrows 1 hone).2 0 (by rw [hlen]; omega), hgroup, start_succ, start_zero,
    Nat.div_eq_of_lt (by omega)] at hsecond
  have hzero : (inp.cells 0).length = 0 := by simpa using hsecond
  rw [hlen] at hzero
  omega

/-- A single row comes out as it should when its bitmap leaves room for another. -/
theorem sharedHeaders_of_le_one (hmode : inp.mode = .xFullCmp) (hg : preprocess inp = some g)
    (hxW : inp.xW ≤ 512) (hxH : g.dataInfo.xH ≤ 1)
    (hlt : g.dataInfo.xH = 1 → 1 < headerGroup inp.xW) : SharedHeaders inp.xW g := by
  obtain ⟨hchange, haxw, hrows⟩ := fullTable_of_preprocess hmode hg
  rw [xChange_eq_headerGroup hxW] at hchange haxw hrows
  rcases Nat.le_one_iff_eq_zero_or_eq_one.mp hxH with hzero | hone
  · have hstart : payloadStart inp.xW g = g.archInfo.xwEleAddrStart := by
      rw [payloadStart, hzero, Nat.zero_add]
      rcases Nat.eq_zero_or_pos (headerGroup inp.xW) with hgroup | hgroup
      · simp [hgroup]
      · rw [Nat.div_eq_of_lt (by omega), Nat.mul_zero, Nat.add_zero]
    refine ⟨fun i hi => by omega, fun i hi => by omega, 0, by simp [hzero], ?_⟩
    rw [haxw, hstart, hzero]
    simp
  · have hgroup := hlt hone
    have hstart : payloadStart inp.xW g = g.archInfo.xwEleAddrStart + cacheLineByte := by
      rw [payloadStart, hone, Nat.add_comm 1, Nat.add_sub_cancel, Nat.div_self (by omega),
        Nat.mul_one]
    have hdiv : 1 / headerGroup inp.xW = 0 := Nat.div_eq_of_lt hgroup
    rw [hone, hdiv] at hrows haxw
    obtain ⟨hlen, hcells⟩ := hrows 0 one_pos
    have hpos := length_cells_xFullCmp hmode 0
    refine ⟨fun i hi => ?_, fun i hi j hj => ?_, (inp.cells 0).length - 1, ?_, ?_⟩
    · obtain rfl : i = 0 := by omega
      simpa using hcells 0 (by omega)
    · obtain rfl : i = 0 := by omega
      obtain rfl : j = 0 := by omega
      exact iff_of_true rfl rfl
    · rw [hone]
      refine List.ext_getElem? fun k => ?_
      simp only [List.range_one, List.flatMap_singleton, List.getElem?_tail, List.getElem?_map]
      rcases Nat.lt_or_ge k ((inp.cells 0).length - 1) with hk | hk
      · rw [hcells (k + 1) (by omega), List.getElem?_range hk, hstart]
        simp only [start_zero, Option.map_some, Option.some.injEq, cacheLineByte]
        omega
      · rw [List.getElem?_eq_none (by omega), List.getElem?_eq_none (by simpa using hk)]
        rfl
    · rw [haxw, hstart, start_succ, start_zero]
      simp only [cacheLineByte]
      omega

/-- For up to 512 columns, the bitmaps share lines as they should exactly when there is at
most one row, and its bitmap is not empty and takes no more than half a line. -/
theorem sharedHeaders_iff (hmode : inp.mode = .xFullCmp) (hxW : inp.xW ≤ 512)
    (hgraph : mapGraph (transXW inp.xw (distribute inp)) = some g₁) :
    (∃ g, preprocess inp = some g ∧ SharedHeaders inp.xW g) ↔
      inp.aH = 0 ∨ inp.aH = 1 ∧ 1 ≤ inp.xW ∧ inp.xW ≤ 256 := by
  have hgroup := @one_lt_headerGroup_iff inp.xW
  constructor
  · rintro ⟨g, hg, h⟩
    have hxH : g.dataInfo.xH = inp.aH := (prepared_of_preprocess hg).xH_eq
    rcases Nat.eq_zero_or_pos inp.aH with hzero | hpos
    · exact .inl hzero
    · obtain ⟨hone, hlt⟩ := h.xH_le_one hmode hg hxW (by omega)
      exact .inr ⟨by omega, hgroup.mp (by omega)⟩
  · intro h
    have hdefined : inp.aH = 0 ∨ 0 < xChange inp.xW := by
      rw [xChange_pos_iff]
      omega
    obtain ⟨g, hg⟩ := preprocess_xFullCmp_isSome hmode hgraph hdefined
    have hxH : g.dataInfo.xH = inp.aH := (prepared_of_preprocess hg).xH_eq
    refine ⟨g, hg, sharedHeaders_of_le_one hmode hg hxW (by omega) fun hone => hgroup.mpr ?_⟩
    omega

/-- One vertex with an edge to itself. -/
def Graph.oneVertex : Graph where
  rowPtr := [0, 1]
  colIdx := [0]
  valid := ⟨rfl, by decide, rfl⟩
  col_lt := by decide

/-- A single row of one feature. -/
def Input.oneRow : Input := { Input.fullFeatures with graph := .oneVertex, nOfEngine := 1 }

theorem sharedHeaders_oneRow : ∃ g, preprocess .oneRow = some g ∧ SharedHeaders 1 g := by
  obtain ⟨g₁, hgraph⟩ := mapGraph_input_isSome .oneRow fun i hi => by
    obtain rfl : i = 0 := Nat.lt_one_iff.mp hi
    decide
  exact (sharedHeaders_iff rfl (by decide) hgraph).mpr (.inr (by decide))

/-- The bitmaps of three rows fit in one line, and each gets its own. -/
theorem not_sharedHeaders_fullFeatures : ∃ g, preprocess .fullFeatures = some g ∧
    ¬ SharedHeaders 1 g := by
  obtain ⟨g₁, hgraph⟩ := mapGraph_input_isSome .fullFeatures size_threeVertices
  obtain ⟨g, hg⟩ := preprocess_xFullCmp_isSome rfl hgraph (.inr (xChange_pos_iff.mpr (by decide)))
  have hxH : g.dataInfo.xH = 3 := (prepared_of_preprocess hg).xH_eq
  refine ⟨g, hg, fun h => ?_⟩
  obtain ⟨hone, -⟩ := h.xH_le_one rfl hg (by decide) (by omega)
  omega

end Sgcn

-- SUMMARY: For each mode, exactly when every feature address lies between the graph and the outputs.
import Sgcn.Layout.Packed
import Sgcn.Layout.Prepared
import Sgcn.Model.Simd

/-!
# The feature region

The features lie between `xw_ele_addr_start` and `axw_addr_start`, and only there do
replies find the feature queue and stay clear of the outputs. `X_FULL_CMP` always keeps
to the region. `X_CMP` and `MAT` do when their folds cover a row. `CSR` takes the running
address back into a line that is not full and never closes it, so that it keeps to the
region only when the rows happen to fill their lines (`PackedFits`).
-/

namespace Sgcn

open Loop Blocks

variable {inp : Input} {g : Globals}

/-! ## The region -/

/-- A line of the feature region. -/
def InRegion (arch : ArchInfo) (a : ℕ) : Prop :=
  cacheLineByte ∣ a ∧ arch.xwEleAddrStart ≤ a ∧ a < arch.axwAddrStart

/-- A cell that `ReadNext` reads. Only `X_CMP` looks whether a cell is zero. -/
def Readable (g : Globals) (a : ℕ) : Prop :=
  ∃ r < g.dataInfo.xH, a ∈ g.xToAddr r ∧ (g.archInfo.mode = .xCmp → a ≠ 0)

/-- The reply to a read of `a` goes to the feature queue, and no engine writes outputs at or
below `a`. -/
def FeatureReply (g : Globals) (a : ℕ) : Prop :=
  (∀ m : Memory, m.readCompleteCallback g a =
    some { m with fEleAccess := m.fEleAccess + 1, fq := m.fq ++ [a] }) ∧
  ∀ i, a < (Simd.init g i).axwAddrStart

/-- The non-zero cells are lines of the feature region, and what the reader reads is answered
to the feature queue. -/
structure FeaturesInRegion (g : Globals) : Prop where
  line : ∀ r < g.dataInfo.xH, ∀ a ∈ g.xToAddr r, a ≠ 0 → InRegion g.archInfo a
  reply : ∀ a, Readable g a → FeatureReply g a

/-- It is enough that the cells the reader reads are lines of the region. -/
theorem featuresInRegion_of_inRegion (h : ∀ a, Readable g a → InRegion g.archInfo a) :
    FeaturesInRegion g where
  line := fun r hr a ha hne => h a ⟨r, hr, ha, fun _ => hne⟩
  reply := by
    intro a ha
    obtain ⟨-, hge, hlt⟩ := h a ha
    exact ⟨fun _ => GraphLayout.readCompleteCallback_feature hge,
      fun i => hlt.trans_le (Nat.le_add_right _ _)⟩

/-- A reply that reaches the feature queue has a feature address. -/
theorem xwEle_le_of_reply {a : ℕ} (hlayout : GraphLayout g)
    (h : Memory.readCompleteCallback g .init a =
      some { Memory.init with fEleAccess := 1, fq := [a] }) : g.archInfo.xwEleAddrStart ≤ a := by
  by_contra hlt
  unfold Memory.readCompleteCallback at h
  simp only [hlayout.dValue, Nat.zero_le, Nat.lt_of_not_le hlt, and_self, if_true] at h
  split at h
  · have hfq := congrArg Memory.fq (Option.some.inj h)
    simp [Memory.init] at hfq
  · cases h

/-- Where no cell is skipped, all cells are lines of the region. -/
theorem FeaturesInRegion.bounds (h : FeaturesInRegion g) (hlayout : GraphLayout g)
    (hmode : g.archInfo.mode ≠ .xCmp) {r a : ℕ} (hr : r < g.dataInfo.xH) (ha : a ∈ g.xToAddr r) :
    g.archInfo.xwEleAddrStart ≤ a ∧ a < g.archInfo.axwAddrStart := by
  obtain ⟨hreply, hout⟩ := h.reply a ⟨r, hr, ha, fun heq => absurd heq hmode⟩
  refine ⟨xwEle_le_of_reply hlayout (hreply .init), ?_⟩
  simpa [Simd.init] using hout 0

/-! ## The table before `AddressMapping` -/

/-- A row of `x_to_addr` as `TransXW` leaves it. -/
def Input.cells (inp : Input) (i : ℕ) : List ℕ :=
  match inp.mode with
  | .xCmp => transXCmpRow inp.xUnit inp.xW inp.foldLines inp.folds inp.rowLines (inp.xw i)
  | .mat => List.replicate (ceilDiv inp.xW cacheLineCount) 1
  | .csr => transCsrRow inp.xW (inp.xw i)
  | .xFullCmp => transXFullCmpRow inp.xW (inp.xw i)

/-- The globals when the regions of the graph are laid out and the features are not yet. -/
theorem mapGraph_inputs {g₁ : Globals}
    (hgraph : mapGraph (transXW inp.xw (distribute inp)) = some g₁) :
    g₁.archInfo.mode = inp.mode ∧ g₁.archInfo.bf = inp.folds ∧ g₁.archInfo.urb = inp.foldLines ∧
      g₁.dataInfo.totalUrb = inp.rowLines ∧ g₁.dataInfo.xH = inp.graph.rowPtr.length - 1 ∧
      g₁.dataInfo.xW = inp.xW ∧ g₁.archInfo.nOfEngine = inp.nOfEngine ∧
      0 < (g₁.rowPtr 0).length ∧ g₁.xToAddr = inp.cells := by
  obtain ⟨-, hinfo, hrow, -, htable, -, harch, -⟩ := mapGraph_spec hgraph
  obtain ⟨hdinfo, hdarch⟩ := distribute_info inp
  obtain ⟨hrow', -, -, -, hxH, -⟩ := transXW_graph inp.xw (distribute inp)
  have hgeo := geometry_transXW inp
  refine ⟨?_, ?_, ?_, ?_, ?_, ?_, ?_, ?_, ?_⟩
  · rw [harch]
    cases hm : inp.mode <;> simp only [transXW, hm, hdarch, readData]
  · rw [harch]
    exact hgeo.bf_eq
  · rw [harch]
    exact hgeo.urb_eq
  · rw [hinfo]
    exact hgeo.totalUrb_eq
  · rw [hinfo, hxH, hdinfo]
    rfl
  · rw [hinfo]
    cases hm : inp.mode <;> simp only [transXW, hm, hdinfo, hdarch, readData]
  · rw [harch]
    exact hgeo.nOfEngine_eq
  · rw [hrow, hrow', (distribute_engine inp 0).1, length_rowPtrOf]
    omega
  · rw [htable]
    funext i
    cases hm : inp.mode <;> simp only [transXW, hm, hdinfo, hdarch, Input.cells, Input.foldLines,
      Input.folds, Input.rowLines, readData]

/-- The layout that the feature addresses come from. -/
theorem mapFeatures_of_preprocess (hg : preprocess inp = some g) :
    g.archInfo.mode = inp.mode ∧ g.dataInfo.xW = inp.xW ∧
      mapFeatures { g with xToAddr := inp.cells } = some ⟨g.xToAddr, g.archInfo.axwAddrStart⟩ := by
  obtain ⟨g₁, hmap, rfl⟩ := preprocess_spec hg
  obtain ⟨g₂, s, hgraph, hfeat, rfl⟩ := addressMapping_spec hmap
  obtain ⟨hmode, -, -, -, -, hxW, -, -, hcells⟩ := mapGraph_inputs hgraph
  refine ⟨hmode, hxW, ?_⟩
  rw [← hcells]
  exact hfeat

/-! ## `X_FULL_CMP` -/

/-- The table of `X_FULL_CMP`, cell by cell, and where the outputs start. -/
theorem fullTable_of_preprocess (hmode : inp.mode = .xFullCmp) (hg : preprocess inp = some g) :
    let first := g.archInfo.xwEleAddrStart +
      cacheLineByte * (g.dataInfo.xH / xChange inp.xW)
    (0 < g.dataInfo.xH → 0 < xChange inp.xW) ∧
      g.archInfo.axwAddrStart =
        first + cacheLineByte * start (fun r => (inp.cells r).length) g.dataInfo.xH ∧
      ∀ r < g.dataInfo.xH, (g.xToAddr r).length = (inp.cells r).length ∧
        ∀ c < (inp.cells r).length, (g.xToAddr r)[c]? =
          some (first + cacheLineByte * (start (fun r => (inp.cells r).length) r + c)) := by
  obtain ⟨hgmode, hxW, hfeat⟩ := mapFeatures_of_preprocess hg
  rw [hmode] at hgmode
  unfold mapFeatures at hfeat
  simp only [hgmode, hxW] at hfeat
  obtain ⟨s, hhead, hcells⟩ := Option.bind_eq_some_iff.mp hfeat
  obtain ⟨haddr, hlen, hchange⟩ := mapFullHeaders_spec hhead
  obtain ⟨s', hs', haddr', hlen', hlines⟩ := mapFullCells_spec s g.dataInfo.xH
  obtain rfl : s' = ⟨g.xToAddr, g.archInfo.axwAddrStart⟩ := Option.some.inj (hs'.symm.trans hcells)
  simp only [hlen, haddr] at haddr' hlen' hlines
  exact ⟨hchange, haddr', fun r hr => ⟨hlen' r, hlines r hr⟩⟩

/-- In `X_FULL_CMP` every cell holds a line of the region. -/
theorem inRegion_xFullCmp (hmode : inp.mode = .xFullCmp) (hg : preprocess inp = some g) {r a : ℕ}
    (hr : r < g.dataInfo.xH) (ha : a ∈ g.xToAddr r) : InRegion g.archInfo a := by
  have hlayout := (prepared_of_preprocess hg).layout
  obtain ⟨-, haxw, hrows⟩ := fullTable_of_preprocess hmode hg
  obtain ⟨c, hc, rfl⟩ := List.getElem_of_mem ha
  rw [(hrows r hr).1] at hc
  obtain ⟨hlt, hget⟩ := List.getElem?_eq_some_iff.mp ((hrows r hr).2 c hc)
  rw [hget]
  have hend : start (fun r => (inp.cells r).length) r + c <
      start (fun r => (inp.cells r).length) g.dataInfo.xH := by
    refine Nat.lt_of_lt_of_le ?_ (start_mono (Nat.succ_le_of_lt hr))
    rw [Nat.succ_eq_add_one, start_succ]
    omega
  refine ⟨(hlayout.xwEle_dvd.add (dvd_mul_right _ _)).add (dvd_mul_right _ _), ?_, ?_⟩
  · rw [Nat.add_assoc]
    exact Nat.le_add_right _ _
  · rw [haxw]
    simp only [cacheLineByte]
    omega

/-- In `X_FULL_CMP` the features keep to their region. -/
theorem featuresInRegion_xFullCmp (hmode : inp.mode = .xFullCmp) (hg : preprocess inp = some g) :
    FeaturesInRegion g := by
  refine featuresInRegion_of_inRegion ?_
  rintro a ⟨r, hr, ha, -⟩
  exact inRegion_xFullCmp hmode hg hr ha

/-! ## `X_CMP` and `MAT` -/

/-- A line from `base` on, below `top`. -/
structure Line (base top a : ℕ) : Prop where
  ge : base ≤ a
  lt : a < top
  dvd : cacheLineByte ∣ a - base

/-- A line of the layout is a line of memory. -/
theorem Line.inRegion {a : ℕ} (hlayout : GraphLayout g)
    (h : Line g.archInfo.xwEleAddrStart g.archInfo.axwAddrStart a) : InRegion g.archInfo a := by
  refine ⟨?_, h.ge, h.lt⟩
  rw [← Nat.sub_add_cancel h.ge]
  exact h.dvd.add hlayout.xwEle_dvd

theorem foldRange_of_lt {urb totalUrb n c : ℕ} (hc : c < n * urb) (hlt : c < totalUrb) :
    foldRange urb totalUrb n c := by
  have hurb : 0 < urb := by
    rcases Nat.eq_zero_or_pos urb with rfl | hpos
    · omega
    · exact hpos
  have hmod := Nat.mod_lt c hurb
  have hdiv := Nat.div_add_mod c urb
  rw [Nat.mul_comm] at hdiv
  exact ⟨c / urb, Nat.div_lt_of_lt_mul (by rwa [Nat.mul_comm]), by omega, by omega, .inl hlt⟩

/-- The layout fold by fold keeps to the region exactly when every cell that is marked
present lies in a fold: the mark 1 of any other stays in the table. -/
theorem featuresInRegion_folds_iff (hlayout : GraphLayout g) {T : ℕ → List ℕ}
    (hT : ∀ r, ∀ c ∈ T r, c = 0 ∧ g.archInfo.mode = .xCmp ∨ c = 1)
    (h : mapFolds g.archInfo.bf g.dataInfo.xH g.archInfo.urb g.dataInfo.totalUrb
      ⟨T, g.archInfo.xwEleAddrStart⟩ = some ⟨g.xToAddr, g.archInfo.axwAddrStart⟩) :
    FeaturesInRegion g ↔ ∀ r < g.dataInfo.xH, ∀ c, (T r)[c]? = some 1 →
      foldRange g.archInfo.urb g.dataInfo.totalUrb g.archInfo.bf c := by
  have hinv := mapFolds_inv h
  constructor
  · intro hreg r hr c hc
    by_contra hout
    have hkept : (g.xToAddr r)[c]? = (T r)[c]? := hinv.kept r c fun hP => hout hP.1.2
    rw [hc] at hkept
    obtain ⟨hdvd, -⟩ := hreg.line r hr 1 (List.mem_of_getElem? hkept) one_ne_zero
    simp [cacheLineByte] at hdvd
  · intro hcover
    refine featuresInRegion_of_inRegion ?_
    rintro a ⟨r, hr, ha, hread⟩
    obtain ⟨c, hc, rfl⟩ := List.getElem_of_mem ha
    have hc' : c < (T r).length := by rw [← hinv.length_eq r]; exact hc
    have hget : (T r)[c]? = some (T r)[c] := List.getElem?_eq_getElem hc'
    rcases hT r _ (List.getElem_mem hc') with ⟨hzero, hmode⟩ | hone
    · rw [hzero] at hget
      have hkept := hinv.kept r c fun hP => by
        rw [hget] at hP
        simp at hP
      rw [hget, List.getElem?_eq_getElem hc] at hkept
      exact absurd (Option.some.inj hkept) (hread hmode)
    · rw [hone] at hget
      obtain ⟨a, ha', hge, hlt, hdvd⟩ := hinv.mapped r c ⟨hr, hcover r hr c hget⟩ hget
      simp only at ha'
      rw [List.getElem?_eq_getElem hc] at ha'
      rw [Option.some.inj ha']
      exact Line.inRegion hlayout ⟨hge, hlt, hdvd⟩

/-- `MAT`: the folds have to reach the end of a row. -/
theorem featuresInRegion_mat_iff (hmode : inp.mode = .mat) (hg : preprocess inp = some g) :
    FeaturesInRegion g ↔
      g.dataInfo.xH = 0 ∨ inp.rowLines ≤ inp.folds * inp.foldLines := by
  have hgeo := geometry_of_preprocess hg
  obtain ⟨hgmode, -, hfeat⟩ := mapFeatures_of_preprocess hg
  rw [hmode] at hgmode
  unfold mapFeatures at hfeat
  simp only [hgmode] at hfeat
  have hcells : ∀ r, inp.cells r = List.replicate inp.rowLines 1 := by
    intro r
    simp only [Input.cells, Input.rowLines, hmode]
  rw [featuresInRegion_folds_iff (prepared_of_preprocess hg).layout (fun r c hc => by
    rw [hcells r] at hc
    exact .inr (List.eq_of_mem_replicate hc)) hfeat, hgeo.bf_eq, hgeo.urb_eq, hgeo.totalUrb_eq]
  constructor
  · intro hcover
    rcases Nat.eq_zero_or_pos g.dataInfo.xH with hzero | hpos
    · exact .inl hzero
    · right
      by_contra hlt
      -- the first cell behind the folds
      refine not_foldRange le_rfl (hcover 0 hpos (inp.folds * inp.foldLines) ?_)
      rw [hcells, List.getElem?_replicate, if_pos (by omega)]
  · rintro (hzero | hle) r hr c hc
    · omega
    · rw [hcells] at hc
      have hlt := (List.getElem?_eq_some_iff.mp hc).1
      rw [List.length_replicate] at hlt
      exact foldRange_of_lt (by omega) hlt

/-- `X_CMP`: a row must not have more slices than there are folds. -/
theorem featuresInRegion_xCmp_iff (hmode : inp.mode = .xCmp) (hunit : 1 ≤ inp.xUnit)
    (hg : preprocess inp = some g) :
    FeaturesInRegion g ↔
      g.dataInfo.xH = 0 ∨ (inp.xW + inp.xUnit - 1) / inp.xUnit ≤ inp.folds := by
  have hgeo := geometry_of_preprocess hg
  obtain ⟨hgmode, -, hfeat⟩ := mapFeatures_of_preprocess hg
  rw [hmode] at hgmode
  unfold mapFeatures at hfeat
  simp only [hgmode] at hfeat
  have htotal : inp.rowLines = inp.folds * inp.foldLines := by
    simp only [Input.rowLines, hmode]
  have hurb : 0 < inp.foldLines := by
    simp only [Input.foldLines, hmode]
    exact ceilDiv_pos hunit (by decide)
  -- the slices of a row
  have hslices : ∀ r, ∃ counts : List ℤ, counts.length = (inp.xW + inp.xUnit - 1) / inp.xUnit ∧
      (∀ c ∈ counts, 0 < c) ∧ inp.cells r = (counts.map (flushSlice inp.foldLines)).flatten := by
    intro r
    have hrow : inp.cells r =
        transXCmpRow inp.xUnit inp.xW inp.foldLines inp.folds inp.rowLines (inp.xw r) := by
      simp only [Input.cells, hmode]
    rw [hrow]
    rcases Nat.eq_zero_or_pos inp.xW with hzero | hpos
    · refine ⟨[], ?_, by simp, ?_⟩
      · rw [hzero, Nat.zero_add, Nat.div_eq_of_lt (by omega)]
        rfl
      · rw [hzero]
        rfl
    · have hfolds : 0 < inp.folds := by
        simp only [Input.folds, hmode]
        exact ceilDiv_pos hpos hunit
      have hlast : inp.rowLines - (inp.folds - 1) * inp.foldLines = inp.foldLines := by
        rw [htotal]
        exact last_slice_width hfolds _
      obtain ⟨counts, hlen, hcounts, heq⟩ := transXCmpRow_eq inp.xW (inp.xw r) hunit hlast
      exact ⟨counts, by rw [hlen, flushes, if_pos rfl], hcounts, heq⟩
  rw [featuresInRegion_folds_iff (prepared_of_preprocess hg).layout (fun r c hc => by
    obtain ⟨counts, -, -, heq⟩ := hslices r
    rw [heq] at hc
    obtain ⟨slice, hslice, hmem⟩ := List.mem_flatten.mp hc
    obtain ⟨count, -, rfl⟩ := List.mem_map.mp hslice
    obtain ⟨j, hj, rfl⟩ := List.getElem_of_mem hmem
    rw [getElem_flushSlice]
    split
    · exact .inr rfl
    · exact .inl ⟨rfl, hgmode⟩) hfeat, hgeo.bf_eq, hgeo.urb_eq, hgeo.totalUrb_eq, htotal]
  constructor
  · intro hcover
    rcases Nat.eq_zero_or_pos g.dataInfo.xH with hzero | hpos
    · exact .inl hzero
    · right
      by_contra hlt
      obtain ⟨counts, hlen, hcounts, heq⟩ := hslices 0
      have hfold : inp.folds < counts.length := by omega
      -- the first cell of the slice behind the folds is marked present
      refine not_foldRange le_rfl (hcover 0 hpos (inp.folds * inp.foldLines) ?_)
      have hget := getElem?_flatten_map counts hurb hfold
      rw [Nat.add_zero] at hget
      rw [heq, hget, if_pos]
      simpa using hcounts _ (List.getElem_mem hfold)
  · rintro (hzero | hle) r hr c hc
    · omega
    · obtain ⟨counts, hlen, -, heq⟩ := hslices r
      have hlt := (List.getElem?_eq_some_iff.mp hc).1
      rw [heq, length_flatten_map, hlen] at hlt
      have hcfold := hlt.trans_le (Nat.mul_le_mul_right _ hle)
      exact foldRange_of_lt hcfold hcfold

/-! ## `CSR` -/

theorem wrapAddr_of_nonneg {x : ℤ} (h : 0 ≤ x) : (wrapAddr x : ℤ) = x := by
  rw [wrapAddr, if_pos h, Int.toNat_of_nonneg h]

theorem wrapAddr_dvd {x : ℤ} (h : (cacheLineByte : ℤ) ∣ x) : cacheLineByte ∣ wrapAddr x := by
  simp only [cacheLineByte, wrapAddr] at h ⊢
  split <;> omega

section

variable {z b : ℕ → ℕ} {xH : ℕ}

/-- The rows fill their lines: every line handed out comes before the one that follows the
features, and none comes before their start. -/
structure PackedFits (z b : ℕ → ℕ) (xH : ℕ) : Prop where
  header : ((xH - 1) / cacheLineCount : ℕ) < csrEndLine z b xH
  column : ∀ r < xH, 0 < b r →
    0 ≤ (xH / cacheLineCount : ℕ) + csrLine z b r ∧
      csrLine z b r + b r ≤ 2 * csrLine z b xH
  value : ∀ r < xH, 0 < b r →
    0 ≤ (xH / cacheLineCount : ℕ) + csrLine z b xH + csrLine z b r ∧
      csrLine z b r + b r ≤ csrLine z b xH

/-- Cell by cell. -/
theorem packedFits_iff (hpos : 0 < xH) : PackedFits z b xH ↔ ∀ r < xH, ∀ c < 2 * b r + 1,
    0 ≤ csrCellLine z b xH r c ∧ csrCellLine z b xH r c < csrEndLine z b xH := by
  constructor
  · intro h r hr c hc
    have hhead := h.header
    unfold csrEndLine at hhead ⊢
    unfold csrCellLine
    rcases Nat.eq_zero_or_pos c with rfl | hcpos
    · rw [if_pos rfl]
      simp only [cacheLineCount] at hhead ⊢
      omega
    · have hcol := h.column r hr (by omega)
      have hval := h.value r hr (by omega)
      rw [if_neg (by omega)]
      split <;> omega
  · intro h
    have hcell : ∀ r < xH, ∀ j < b r,
        0 ≤ (xH / cacheLineCount : ℕ) + csrLine z b r + j ∧
        (xH / cacheLineCount : ℕ) + csrLine z b r + j < csrEndLine z b xH ∧
        0 ≤ (xH / cacheLineCount : ℕ) + csrLine z b xH + csrLine z b r + j ∧
        (xH / cacheLineCount : ℕ) + csrLine z b xH + csrLine z b r + j < csrEndLine z b xH := by
      intro r hr j hj
      have hcol := h r hr (2 * j + 1) (by omega)
      have hval := h r hr (2 * j + 2) (by omega)
      rw [csrCellLine, if_neg (by omega), if_pos (by omega),
        show (2 * j + 1) / 2 = j by omega] at hcol
      rw [csrCellLine, if_neg (by omega), if_neg (by omega),
        show (2 * j + 2) / 2 - 1 = j by omega] at hval
      exact ⟨hcol.1, hcol.2, hval.1, hval.2⟩
    unfold csrEndLine at hcell
    refine ⟨?_, fun r hr hb => ?_, fun r hr hb => ?_⟩
    · have hhead := h (xH - 1) (by omega) 0 (by omega)
      rw [csrCellLine, if_pos rfl] at hhead
      exact hhead.2
    · have hfirst := hcell r hr 0 hb
      have hlast := hcell r hr (b r - 1) (by omega)
      omega
    · have hfirst := hcell r hr 0 hb
      have hlast := hcell r hr (b r - 1) (by omega)
      omega

/-- When the count ends inside a line, the address ends before the lines of some row do. -/
theorem exists_row_beyond (hzb : ∀ i, b i = 0 → z i = 0) {n : ℕ}
    (hopen : start z n % cacheLineCount ≠ 0) :
    ∃ r < n, 0 < b r ∧ csrLine z b n < csrLine z b r + b r := by
  induction n with
  | zero => simp at hopen
  | succ n ih =>
    have hline : csrLine z b (n + 1) = csrLine z b n + b n - 1 := by
      rw [csrLine, openLine, if_pos hopen]
      rfl
    rcases Nat.eq_zero_or_pos (b n) with hzero | hpos
    · rw [start_succ, hzb n hzero, Nat.add_zero] at hopen
      obtain ⟨r, hr, hb, hlt⟩ := ih hopen
      exact ⟨r, by omega, hb, by omega⟩
    · exact ⟨n, n.lt_succ_self, hpos, by omega⟩

/-- Rows that fill their lines have a multiple of sixteen non-zeros in all. -/
theorem PackedFits.dvd (hzb : ∀ i, b i = 0 → z i = 0) (h : PackedFits z b xH) :
    cacheLineCount ∣ start z xH := by
  by_contra hopen
  obtain ⟨r, hr, hb, hlt⟩ := exists_row_beyond hzb fun hmod => hopen (Nat.dvd_of_mod_eq_zero hmod)
  exact absurd (h.value r hr hb).2 (not_le.mpr hlt)

/-- Every cell of the layout from `first` on is an address of the region, addresses below
zero being taken modulo `2 ^ 64` as the program does. -/
def PackedInRegion (z b : ℕ → ℕ) (xH first : ℕ) : Prop :=
  ∀ r < xH, ∀ c < 2 * b r + 1,
    first ≤ wrapAddr (first + cacheLineByte * csrCellLine z b xH r c) ∧
      wrapAddr (first + cacheLineByte * csrCellLine z b xH r c) <
        wrapAddr (first + cacheLineByte * csrEndLine z b xH)

/-- The running address has gone below zero, and the addresses beyond `2 ^ 64` that this
makes still form a region. -/
structure PackedWraps (z b : ℕ → ℕ) (xH first : ℕ) : Prop where
  below : (first : ℤ) + cacheLineByte * csrEndLine z b xH < 0 ∨
    ∃ r < xH, ∃ c < 2 * b r + 1, (first : ℤ) + cacheLineByte * csrCellLine z b xH r c < 0
  cells : PackedInRegion z b xH first

theorem packedInRegion_iff {first : ℕ} (hpos : 0 < xH) :
    PackedInRegion z b xH first ↔ PackedFits z b xH ∨ PackedWraps z b xH first := by
  rw [packedFits_iff hpos]
  constructor
  · intro h
    by_cases hbelow : (first : ℤ) + cacheLineByte * csrEndLine z b xH < 0 ∨
        ∃ r < xH, ∃ c < 2 * b r + 1, (first : ℤ) + cacheLineByte * csrCellLine z b xH r c < 0
    · exact .inr ⟨hbelow, h⟩
    · left
      push Not at hbelow
      obtain ⟨hend, hcells⟩ := hbelow
      intro r hr c hc
      obtain ⟨hge, hlt⟩ := h r hr c hc
      have hcell := wrapAddr_of_nonneg (hcells r hr c hc)
      have hend' := wrapAddr_of_nonneg hend
      simp only [cacheLineByte] at hge hlt hcell hend'
      omega
  · rintro (h | h) r hr c hc
    · obtain ⟨hge, hlt⟩ := h r hr c hc
      have hcell := wrapAddr_of_nonneg
        (show 0 ≤ (first : ℤ) + cacheLineByte * csrCellLine z b xH r c by
          simp only [cacheLineByte]
          omega)
      have hend := wrapAddr_of_nonneg
        (show 0 ≤ (first : ℤ) + cacheLineByte * csrEndLine z b xH by
          simp only [cacheLineByte]
          omega)
      simp only [cacheLineByte] at hcell hend ⊢
      omega
    · exact h.cells r hr c hc

/-- The running address moves back by at most one line per row. -/
theorem csrLine_bounds (z b : ℕ → ℕ) (i : ℕ) :
    -(i : ℤ) ≤ csrLine z b i ∧ csrLine z b i ≤ start b i := by
  induction i with
  | zero => simp [csrLine]
  | succ i ih =>
    have hopen := openLine_cases z i
    rw [csrLine, start_succ]
    omega

theorem csrLine_eq_zero {i : ℕ} (hz : ∀ j < i, z j = 0) (hb : ∀ j < i, b j = 0) :
    csrLine z b i = 0 := by
  induction i with
  | zero => rfl
  | succ i ih =>
    have hcount : start z (i + 1) = 0 :=
      Finset.sum_eq_zero fun j hj => hz j (Finset.mem_range.mp hj)
    rw [csrLine, ih (fun j hj => hz j (by omega)) (fun j hj => hb j (by omega)), hb i (by omega),
      openLine, hcount]
    rfl

/-- Below zero no region can form, as long as the graph has a line for every sixteen rows and
all lines together stay below `2 ^ 64`. -/
theorem not_packedWraps {first : ℕ} (hzb : ∀ i, b i = 0 → z i = 0)
    (hfirst : cacheLineByte * (xH / cacheLineCount) ≤ first)
    (hsize : first + cacheLineByte * (xH / cacheLineCount + 2 * start b xH + 2 * xH) ≤ 2 ^ 64) :
    ¬ PackedWraps z b xH first := by
  rintro ⟨hbelow, hcells⟩
  have hall := csrLine_bounds z b xH
  simp only [PackedInRegion, csrEndLine, cacheLineByte, cacheLineCount] at *
  by_cases hend : (first : ℤ) + (64 : ℕ) * ((xH / 16 : ℕ) + 2 * csrLine z b xH) < 0
  · -- the values of the first row with an element come before the end
    obtain ⟨r, hr, hb, hbefore⟩ : ∃ r < xH, 0 < b r ∧ ∀ j < r, b j = 0 := by
      by_contra hnone
      push Not at hnone
      have hempty : ∀ j ≤ xH, ∀ i < j, b i = 0 := by
        intro j
        induction j with
        | zero => simp
        | succ j ih =>
          intro hj i hi
          by_contra hne
          obtain ⟨k, hk, hbk⟩ := hnone i (by omega) (by omega)
          exact hbk (ih (by omega) k (by omega))
      rw [csrLine_eq_zero (fun j hj => hzb j (hempty xH le_rfl j hj)) (hempty xH le_rfl)] at hend
      omega
    have hzero := csrLine_eq_zero (fun j hj => hzb j (hbefore j hj)) hbefore
    obtain ⟨hge, hlt⟩ := hcells r hr 2 (by omega)
    have hcell : csrCellLine z b xH r 2 = (xH / 16 : ℕ) + csrLine z b xH := by
      simp [csrCellLine, hzero, cacheLineCount]
    rw [hcell] at hge hlt
    rw [wrapAddr, wrapAddr, if_neg (not_le.mpr hend)] at hlt
    rw [wrapAddr] at hge
    split at hge
    · omega
    · next hneg =>
      rw [if_neg hneg] at hlt
      omega
  · obtain ⟨r, hr, c, hc, hneg⟩ := hbelow.resolve_left hend
    obtain ⟨-, hlt⟩ := hcells r hr c hc
    have hrow := csrLine_bounds z b r
    rw [wrapAddr, wrapAddr, if_neg (by omega), if_pos (by omega)] at hlt
    have hline : -(2 * xH : ℤ) ≤ csrCellLine z b xH r c := by
      simp only [csrCellLine, cacheLineCount]
      split
      · omega
      · split <;> omega
    omega

end

/-- The non-zero elements of a row of the features. -/
def Input.rowCount (inp : Input) (i : ℕ) : ℕ := nonzeros inp.xW (inp.xw i)

theorem rowCount_pos {i : ℕ} : 0 < inp.rowCount i ↔ ∃ j < inp.xW, inp.xw i j ≠ 0 := by
  rw [Input.rowCount, nonzeros, List.countP_pos_iff]
  simp

/-- The lines that `TransXW` sets aside for the columns of a row, and again for its values. -/
def Input.rowBlocks (inp : Input) (i : ℕ) : ℕ := ceilDiv (inp.rowCount i) cacheLineCount

/-- The table of `CSR`, cell by cell, and where the outputs start. -/
theorem csrTable_of_preprocess (hmode : inp.mode = .csr) (hg : preprocess inp = some g) :
    g.archInfo.axwAddrStart = wrapAddr (g.archInfo.xwEleAddrStart +
        cacheLineByte * csrEndLine inp.rowCount inp.rowBlocks g.dataInfo.xH) ∧
      ∀ r < g.dataInfo.xH, (g.xToAddr r).length = 2 * inp.rowBlocks r + 1 ∧
        ∀ c < 2 * inp.rowBlocks r + 1, (g.xToAddr r)[c]? =
          some (wrapAddr (g.archInfo.xwEleAddrStart +
            cacheLineByte * csrCellLine inp.rowCount inp.rowBlocks g.dataInfo.xH r c)) := by
  obtain ⟨hgmode, -, hfeat⟩ := mapFeatures_of_preprocess hg
  rw [hmode] at hgmode
  unfold mapFeatures at hfeat
  simp only [hgmode] at hfeat
  obtain ⟨s, hs, hret⟩ := Option.map_eq_some_iff.mp hfeat
  obtain ⟨htable, haxw⟩ := XMap.mk.injEq .. ▸ hret
  obtain ⟨haddr, hrows⟩ := mapCsr_spec (z := inp.rowCount) (b := inp.rowBlocks)
    (fun r _ => by simp only [Input.cells, hmode]; rfl) hs
  rw [htable] at hrows
  exact ⟨by rw [← haxw, haddr], hrows⟩

/-- In mode `CSR` the preprocessor is defined whenever the graph is laid out. -/
theorem preprocess_csr_isSome {g₁ : Globals} (hmode : inp.mode = .csr)
    (hgraph : mapGraph (transXW inp.xw (distribute inp)) = some g₁) :
    ∃ g, preprocess inp = some g := by
  obtain ⟨hmode₁, -, -, -, -, -, -, -, hcells⟩ := mapGraph_inputs hgraph
  obtain ⟨s, hs⟩ : ∃ s, mapCsr g₁.dataInfo.xH inp.cells g₁.archInfo.xwEleAddrStart = some s := by
    refine mapCsr_isSome (fun r _ => ?_) _
    simp only [Input.cells, hmode, transCsrRow, List.length_cons, List.length_append,
      List.length_nil]
    omega
  have hfeat : mapFeatures g₁ = some ⟨s.table, wrapAddr s.address⟩ := by
    unfold mapFeatures
    simp only [hmode₁, hmode, hcells, hs, Option.map_some]
  exact preprocess_isSome_of_maps hgraph hfeat

/-- `CSR`: the cells have to be addresses of the region in the closed form. -/
theorem featuresInRegion_csr_iff (hmode : inp.mode = .csr) (hg : preprocess inp = some g) :
    FeaturesInRegion g ↔
      PackedInRegion inp.rowCount inp.rowBlocks g.dataInfo.xH g.archInfo.xwEleAddrStart := by
  have hlayout := (prepared_of_preprocess hg).layout
  have hgmode : g.archInfo.mode ≠ .xCmp := by
    rw [(mapFeatures_of_preprocess hg).1, hmode]
    decide
  obtain ⟨haxw, hrows⟩ := csrTable_of_preprocess hmode hg
  constructor
  · intro hreg r hr c hc
    have hbounds := hreg.bounds hlayout hgmode hr (List.mem_of_getElem? ((hrows r hr).2 c hc))
    rw [haxw] at hbounds
    exact hbounds
  · intro hcells
    refine featuresInRegion_of_inRegion ?_
    rintro a ⟨r, hr, ha, -⟩
    obtain ⟨c, hc, rfl⟩ := List.getElem_of_mem ha
    have hc' : c < 2 * inp.rowBlocks r + 1 := by rw [← (hrows r hr).1]; exact hc
    have hget := (hrows r hr).2 c hc'
    rw [List.getElem?_eq_getElem hc] at hget
    rw [Option.some.inj hget]
    obtain ⟨hge, hlt⟩ := hcells r hr c hc'
    refine ⟨wrapAddr_dvd ?_, hge, by rw [haxw]; exact hlt⟩
    exact (Int.natCast_dvd_natCast.mpr hlayout.xwEle_dvd).add (dvd_mul_right _ _)

/-! ## All modes -/

/-- Where the features start: behind the values, the row pointers and the columns. -/
def Input.featureStart (inp : Input) : ℕ :=
  start (fun i => lineBytes (inp.engineRows i).flatten.length) inp.nOfEngine +
    start (fun i => lineBytes (rowPtrOf (inp.engineRows i)).length) inp.nOfEngine +
    start (fun i => lineBytes (inp.engineRows i).flatten.length) inp.nOfEngine

theorem Prepared.featureStart_eq (h : Prepared inp g) :
    g.archInfo.xwEleAddrStart = inp.featureStart := by
  have hcol : colBytes g = fun i => lineBytes (inp.engineRows i).flatten.length := by
    funext i
    rw [colBytes, h.colIdx_eq]
  have hrow : rowBytes g = fun i => lineBytes (rowPtrOf (inp.engineRows i)).length := by
    funext i
    rw [rowBytes, h.rowPtr_eq]
  rw [h.layout.xwEle, h.layout.aCol, h.layout.aRow, h.nOfEngine_eq, hcol, hrow, Input.featureStart]

/-- When the features keep to their region. There are as many rows of features as
vertices. -/
def FeatureCond (inp : Input) : Prop :=
  inp.graph.rowPtr.length - 1 = 0 ∨
  match inp.mode with
  | .xCmp => (inp.xW + inp.xUnit - 1) / inp.xUnit ≤ inp.folds
  | .mat => inp.rowLines ≤ inp.folds * inp.foldLines
  | .csr =>
    PackedFits inp.rowCount inp.rowBlocks (inp.graph.rowPtr.length - 1) ∨
      PackedWraps inp.rowCount inp.rowBlocks (inp.graph.rowPtr.length - 1) inp.featureStart
  | .xFullCmp => True

/-- The conditions of the modes, put together. -/
theorem featuresInRegion_iff (hunit : inp.mode = .xCmp → 1 ≤ inp.xUnit)
    (hg : preprocess inp = some g) : FeaturesInRegion g ↔ FeatureCond inp := by
  have hprep := prepared_of_preprocess hg
  have hxH := hprep.xH_eq
  unfold FeatureCond
  cases hmode : inp.mode with
  | xCmp => rw [featuresInRegion_xCmp_iff hmode (hunit hmode) hg, hxH]
  | mat => rw [featuresInRegion_mat_iff hmode hg, hxH]
  | csr =>
    rw [featuresInRegion_csr_iff hmode hg, hprep.featureStart_eq, hxH]
    rcases Nat.eq_zero_or_pos (inp.graph.rowPtr.length - 1) with hzero | hpos
    · exact iff_of_true (fun r hr => by omega) (.inl hzero)
    · rw [packedInRegion_iff hpos]
      simp only [hpos.ne', false_or]
  | xFullCmp => exact iff_of_true (featuresInRegion_xFullCmp hmode hg) (.inr trivial)

/-- In mode `CSR` wrapping around takes no part as long as the graph has a line for every
sixteen rows and all lines together stay below `2 ^ 64`. -/
theorem featureCond_csr_iff (hmode : inp.mode = .csr)
    (hfirst : cacheLineByte * ((inp.graph.rowPtr.length - 1) / cacheLineCount) ≤ inp.featureStart)
    (hsize : inp.featureStart + cacheLineByte * ((inp.graph.rowPtr.length - 1) / cacheLineCount +
      2 * start inp.rowBlocks (inp.graph.rowPtr.length - 1) +
      2 * (inp.graph.rowPtr.length - 1)) ≤ 2 ^ 64) :
    FeatureCond inp ↔ inp.graph.rowPtr.length - 1 = 0 ∨
      PackedFits inp.rowCount inp.rowBlocks (inp.graph.rowPtr.length - 1) := by
  have hblocks : ∀ i, inp.rowBlocks i = 0 → inp.rowCount i = 0 := by
    intro i hzero
    by_contra hne
    exact absurd hzero (ceilDiv_pos (Nat.pos_of_ne_zero hne) (by decide)).ne'
  have hwrap := not_packedWraps hblocks hfirst hsize
  simp only [FeatureCond, hmode, hwrap, or_false]

/-! ## A small input -/

/-- Three vertices with one feature each, none of them zero, as compressed rows. -/
def Input.oneFeature : Input where
  graph := .threeVertices
  xW := 1
  xw := fun _ _ => 1
  nOfEngine := 2
  lacWidth := 1
  nTiles := 1
  xUnit := 16
  bf := 1
  mode := .csr
  gnnMode := .gcn
  cacheWay := 2
  cacheSet := 4

theorem oneFeature_rows (i : ℕ) :
    Input.oneFeature.rowCount i = 1 ∧ Input.oneFeature.rowBlocks i = 1 := by
  have hcount : Input.oneFeature.rowCount i = 1 := rfl
  refine ⟨hcount, ?_⟩
  rw [Input.rowBlocks, hcount, ceilDiv_eq (by decide) (by decide)]
  rfl

theorem preprocess_oneFeature : ∃ g, preprocess .oneFeature = some g := by
  obtain ⟨g₁, hgraph⟩ := mapGraph_input_isSome .oneFeature size_threeVertices
  exact preprocess_csr_isSome rfl hgraph

end Sgcn

-- SUMMARY: The graph part of the address map, and that replies find their way back to the engine and kind.
import Sgcn.Base.Blocks
import Sgcn.Model.Preprocessor
import Sgcn.Model.Memory

/-!
# Graph regions

`AddressMapping` lays out the values, then the row pointers, then the columns of
all engines, each as consecutive blocks (`GraphLayout`). `ReadCompleteCallback`
inverts this map: it recovers engine and kind from the address alone.
-/

namespace Sgcn

open Blocks

variable {g g' : Globals}

/-! ## The layout -/

/-- Bytes of the row-pointer region of an engine. -/
def rowBytes (g : Globals) (i : ℕ) : ℕ := lineBytes (g.rowPtr i).length

/-- Bytes of the column region of an engine; the value region has the same size. -/
def colBytes (g : Globals) (i : ℕ) : ℕ := lineBytes (g.colIdx i).length

theorem mapRegions_snd (bytes : ℕ → ℕ) (n address : ℕ) :
    (mapRegions bytes n address).2 = address + start bytes n := by
  induction n with
  | zero => rfl
  | succ n ih => simp only [mapRegions, ih, start_succ, Nat.add_assoc]

theorem mapRegions_fst (bytes : ℕ → ℕ) {n i : ℕ} (address : ℕ) (h : i < n) :
    (mapRegions bytes n address).1 i = (address + start bytes i, address + start bytes (i + 1)) := by
  induction n with
  | zero => omega
  | succ n ih =>
    rcases Nat.lt_succ_iff_lt_or_eq.mp h with hlt | rfl
    · simp only [mapRegions, Function.update_of_ne hlt.ne, ih hlt]
    · simp only [mapRegions, Function.update_self, mapRegions_snd, start_succ, Nat.add_assoc]

/-- The graph regions of `g` are laid out as `AddressMapping` does. -/
structure GraphLayout (g : Globals) : Prop where
  dValue : g.archInfo.dValueAddrStart = 0
  aRow : g.archInfo.aRowAddrStart = start (colBytes g) g.archInfo.nOfEngine
  aCol : g.archInfo.aColAddrStart =
    g.archInfo.aRowAddrStart + start (rowBytes g) g.archInfo.nOfEngine
  xwEle : g.archInfo.xwEleAddrStart =
    g.archInfo.aColAddrStart + start (colBytes g) g.archInfo.nOfEngine
  value : ∀ i < g.archInfo.nOfEngine,
    (g.dataIndex i).valueAddrStart = start (colBytes g) i ∧
    (g.dataIndex i).valueAddrEnd = start (colBytes g) (i + 1)
  row : ∀ i < g.archInfo.nOfEngine,
    (g.dataIndex i).rowAddrStart = g.archInfo.aRowAddrStart + start (rowBytes g) i ∧
    (g.dataIndex i).rowAddrEnd = g.archInfo.aRowAddrStart + start (rowBytes g) (i + 1)
  col : ∀ i < g.archInfo.nOfEngine,
    (g.dataIndex i).colAddrStart = g.archInfo.aColAddrStart + start (colBytes g) i ∧
    (g.dataIndex i).colAddrEnd = g.archInfo.aColAddrStart + start (colBytes g) (i + 1)

/-- What `mapGraph` changes, and that the result is laid out. -/
theorem mapGraph_spec (h : mapGraph g = some g') :
    GraphLayout g' ∧ g'.dataInfo = g.dataInfo ∧ g'.rowPtr = g.rowPtr ∧ g'.colIdx = g.colIdx ∧
      g'.xToAddr = g.xToAddr ∧ g'.totalWrite = g.totalWrite ∧
      g'.archInfo =
        { g.archInfo with
          dValueAddrStart := g'.archInfo.dValueAddrStart
          aRowAddrStart := g'.archInfo.aRowAddrStart
          aColAddrStart := g'.archInfo.aColAddrStart
          xwEleAddrStart := g'.archInfo.xwEleAddrStart } ∧
      ∀ i, g'.dataIndex i =
        { g'.dataIndex i with
          row := (g.dataIndex i).row
          zeroRow := (g.dataIndex i).zeroRow
          totalWrite := (g.dataIndex i).totalWrite } := by
  simp only [mapGraph] at h
  split at h
  · cases h
    refine ⟨⟨rfl, ?_, ?_, ?_, ?_, ?_, ?_⟩, rfl, rfl, rfl, rfl, rfl, rfl, fun i => rfl⟩
    · simp only [mapRegions_snd, Nat.zero_add]
      rfl
    · simp only [mapRegions_snd]
      rfl
    · simp only [mapRegions_snd]
      rfl
    · intro i hi
      simp only [mapRegions_fst _ _ hi, Nat.zero_add]
      exact ⟨rfl, rfl⟩
    · intro i hi
      simp only [mapRegions_fst _ _ hi]
      exact ⟨rfl, rfl⟩
    · intro i hi
      simp only [mapRegions_fst _ _ hi]
      exact ⟨rfl, rfl⟩
  · cases h

theorem addressMapping_spec (h : addressMapping g = some g') :
    ∃ g₁ s, mapGraph g = some g₁ ∧ mapFeatures g₁ = some s ∧
      g' = { g₁ with
        archInfo := { g₁.archInfo with axwAddrStart := s.address }
        xToAddr := s.table } := by
  unfold addressMapping at h
  obtain ⟨g₁, hgraph, hrest⟩ := Option.bind_eq_some_iff.mp h
  obtain ⟨s, hfeat, hret⟩ := Option.bind_eq_some_iff.mp hrest
  exact ⟨g₁, s, hgraph, hfeat, (Option.some.inj hret).symm⟩

theorem addressMapping_layout (h : addressMapping g = some g') : GraphLayout g' := by
  obtain ⟨g₁, s, hgraph, -, rfl⟩ := addressMapping_spec h
  obtain ⟨hl, -⟩ := mapGraph_spec hgraph
  exact ⟨hl.1, hl.2, hl.3, hl.4, hl.5, hl.6, hl.7⟩

/-- The graph part is defined when the bytes of every array fit in an `int`. -/
theorem mapGraph_isSome_iff : (∃ g', mapGraph g = some g') ↔ ∀ i < g.archInfo.nOfEngine,
    lineBytes (g.rowPtr i).length < 2 ^ 31 ∧ lineBytes (g.colIdx i).length < 2 ^ 31 := by
  constructor
  · rintro ⟨g', hmap⟩
    by_contra hnot
    simp only [mapGraph, if_neg hnot] at hmap
    cases hmap
  · intro hbytes
    simp only [mapGraph, if_pos hbytes]
    exact ⟨_, rfl⟩

theorem lineBytes_le {size : ℕ} (h : size ≤ 2 ^ 24) : lineBytes size ≤ 2 ^ 26 := by
  rw [lineBytes, ceilDiv_eq h (by decide)]
  simp only [cacheLineByte, cacheLineCount]
  omega

/-- So it is for arrays of up to `2 ^ 24` elements. -/
theorem mapGraph_isSome (hsize : ∀ i < g.archInfo.nOfEngine,
    (g.rowPtr i).length ≤ 2 ^ 24 ∧ (g.colIdx i).length ≤ 2 ^ 24) : ∃ g', mapGraph g = some g' := by
  refine mapGraph_isSome_iff.mpr fun i hi => ?_
  have hrow := lineBytes_le (hsize i hi).1
  have hcol := lineBytes_le (hsize i hi).2
  omega

/-! ## Routing of replies -/

namespace GraphLayout

variable {address i : ℕ} {kind : RType} {m : Memory}

/-- An address in a region of kind `kind` is recognised as such. -/
theorem graphType_of_inRegion (h : GraphLayout g) (hi : i < g.archInfo.nOfEngine)
    (hreg : Memory.inRegion (g.dataIndex i) kind address = true) :
    Memory.graphType g.archInfo address = kind ∧ address < g.archInfo.xwEleAddrStart := by
  have hrow := h.aCol
  have hcol := h.xwEle
  have hval := h.aRow
  have hcmono : start (colBytes g) (i + 1) ≤ start (colBytes g) g.archInfo.nOfEngine :=
    start_mono hi
  have hrmono : start (rowBytes g) (i + 1) ≤ start (rowBytes g) g.archInfo.nOfEngine :=
    start_mono hi
  unfold Memory.graphType
  cases kind with
  | value =>
    have hmem := of_decide_eq_true hreg
    rw [(h.value i hi).1, (h.value i hi).2] at hmem
    exact ⟨if_pos (by omega), by omega⟩
  | row =>
    have hmem := of_decide_eq_true hreg
    rw [(h.row i hi).1, (h.row i hi).2] at hmem
    exact ⟨by rw [if_neg (by omega), if_pos (by omega)], by omega⟩
  | column =>
    have hmem := of_decide_eq_true hreg
    rw [(h.col i hi).1, (h.col i hi).2] at hmem
    exact ⟨by rw [if_neg (by omega), if_neg (by omega)], by omega⟩
  | empty => cases hreg

/-- No address lies in the regions of one kind of two engines. -/
theorem engine_unique (h : GraphLayout g) {j : ℕ} (hi : i < g.archInfo.nOfEngine)
    (hj : j < g.archInfo.nOfEngine) (hregi : Memory.inRegion (g.dataIndex i) kind address = true)
    (hregj : Memory.inRegion (g.dataIndex j) kind address = true) : i = j := by
  cases kind with
  | value =>
    have hmemi := of_decide_eq_true hregi
    have hmemj := of_decide_eq_true hregj
    rw [(h.value i hi).1, (h.value i hi).2] at hmemi
    rw [(h.value j hj).1, (h.value j hj).2] at hmemj
    exact block_unique _ hmemi hmemj
  | row =>
    have hmemi := of_decide_eq_true hregi
    have hmemj := of_decide_eq_true hregj
    rw [(h.row i hi).1, (h.row i hi).2] at hmemi
    rw [(h.row j hj).1, (h.row j hj).2] at hmemj
    exact block_unique (rowBytes g) (x := address - g.archInfo.aRowAddrStart) (by omega) (by omega)
  | column =>
    have hmemi := of_decide_eq_true hregi
    have hmemj := of_decide_eq_true hregj
    rw [(h.col i hi).1, (h.col i hi).2] at hmemi
    rw [(h.col j hj).1, (h.col j hj).2] at hmemj
    exact block_unique (colBytes g) (x := address - g.archInfo.aColAddrStart) (by omega) (by omega)
  | empty => cases hregi

/-- Every address below the features lies in a region of its kind. -/
theorem exists_engine (h : GraphLayout g) (hlt : address < g.archInfo.xwEleAddrStart) :
    ∃ i < g.archInfo.nOfEngine,
      Memory.inRegion (g.dataIndex i) (Memory.graphType g.archInfo address) address = true := by
  have hrow := h.aCol
  have hcol := h.xwEle
  have hval := h.aRow
  unfold Memory.graphType
  split
  · next hlt' =>
    obtain ⟨i, hi, hmem⟩ := exists_block (colBytes g) (hval ▸ hlt')
    refine ⟨i, hi, decide_eq_true ?_⟩
    rw [(h.value i hi).1, (h.value i hi).2]
    exact hmem
  · next hge =>
    split
    · next hlt' =>
      obtain ⟨i, hi, hmem⟩ := exists_block (rowBytes g)
        (show address - g.archInfo.aRowAddrStart < start (rowBytes g) g.archInfo.nOfEngine by omega)
      refine ⟨i, hi, decide_eq_true ?_⟩
      rw [(h.row i hi).1, (h.row i hi).2]
      omega
    · next hge' =>
      obtain ⟨i, hi, hmem⟩ := exists_block (colBytes g)
        (show address - g.archInfo.aColAddrStart < start (colBytes g) g.archInfo.nOfEngine by omega)
      refine ⟨i, hi, decide_eq_true ?_⟩
      rw [(h.col i hi).1, (h.col i hi).2]
      omega

theorem lineBytes_dvd (size : ℕ) : cacheLineByte ∣ lineBytes size := Dvd.intro_left _ rfl

/-- The features start at a line. -/
theorem xwEle_dvd (h : GraphLayout g) : cacheLineByte ∣ g.archInfo.xwEleAddrStart := by
  rw [h.xwEle, h.aCol, h.aRow]
  have hcol : cacheLineByte ∣ start (colBytes g) g.archInfo.nOfEngine :=
    start_dvd (fun _ => lineBytes_dvd _) _
  have hrow : cacheLineByte ∣ start (rowBytes g) g.archInfo.nOfEngine :=
    start_dvd (fun _ => lineBytes_dvd _) _
  exact ((hcol.add hrow).add hcol)

/-- The row pointers take up at least one line. -/
theorem line_le_xwEle (h : GraphLayout g) (hn : 0 < g.archInfo.nOfEngine)
    (hptr : 0 < (g.rowPtr 0).length) : cacheLineByte ≤ g.archInfo.xwEleAddrStart := by
  have hfirst : start (rowBytes g) 1 ≤ start (rowBytes g) g.archInfo.nOfEngine := start_mono hn
  have hline : cacheLineByte ≤ rowBytes g 0 :=
    Nat.le_mul_of_pos_left _ (ceilDiv_pos hptr (by decide))
  rw [start_succ, start_zero, Nat.zero_add] at hfirst
  have := h.xwEle
  have := h.aCol
  omega

/-- The reply to a graph read goes to its engine, with its kind, and nowhere else. -/
theorem readCompleteCallback_of_inRegion (h : GraphLayout g) (hi : i < g.archInfo.nOfEngine)
    (hreg : Memory.inRegion (g.dataIndex i) kind address = true) :
    m.readCompleteCallback g address =
      some { m with
        gAccess := m.gAccess + 1
        rq := Function.update m.rq i (m.rq i ++ [kind]) } := by
  obtain ⟨htype, hlt⟩ := h.graphType_of_inRegion hi hreg
  have hfind : ((List.range g.archInfo.nOfEngine).find? fun j =>
      Memory.inRegion (g.dataIndex j) kind address) = some i := by
    cases hfind : (List.range g.archInfo.nOfEngine).find? fun j =>
        Memory.inRegion (g.dataIndex j) kind address with
    | none => exact absurd hreg (by simpa using List.find?_eq_none.mp hfind i (List.mem_range.mpr hi))
    | some j =>
      have hj := List.mem_range.mp (List.mem_of_find?_eq_some hfind)
      have hreg' : Memory.inRegion (g.dataIndex j) kind address = true := by
        simpa using List.find?_some hfind
      rw [h.engine_unique hj hi hreg' hreg]
  unfold Memory.readCompleteCallback
  simp only [h.dValue, Nat.zero_le, hlt, and_self, if_true, htype, hfind]

/-- The reply to any other read goes to the feature queue. -/
theorem readCompleteCallback_feature (hge : g.archInfo.xwEleAddrStart ≤ address) :
    m.readCompleteCallback g address =
      some { m with fEleAccess := m.fEleAccess + 1, fq := m.fq ++ [address] } := by
  unfold Memory.readCompleteCallback
  simp only [not_lt.mpr hge, and_false, if_false, hge, if_true]

end GraphLayout

end Sgcn

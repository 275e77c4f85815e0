-- SUMMARY: How much output work distribution and tiling create, and when the per-engine counters hold it.
import Sgcn.Partition.Tiling
import Mathlib.Algebra.BigOperators.Ring.Finset
import Mathlib.Algebra.Order.BigOperators.Group.Finset
import Mathlib.Algebra.Order.BigOperators.Ring.Finset

/-!
# Output work

A vertex causes output work in every tile in which it has an edge. The work of an
engine is the number of such pairs whose vertex `LAC` deals to it, and the work of
all engines is the number of all pairs, whatever the number of engines and the
width of the chunks. `total_write` holds an engine's work times `total_urb`, but
in an `int`.
-/

namespace Sgcn

open Finset

/-! ## Pairs of a vertex and a tile -/

/-- The columns of the edges of vertex `v`. -/
def Input.vertexRow (inp : Input) (v : ℕ) : List ℕ :=
  slice inp.graph.colIdx (vget inp.graph.rowPtr v) (vget inp.graph.rowPtr (v + 1))

/-- `a_h`. -/
def Input.aH (inp : Input) : ℕ := inp.graph.rowPtr.length - 1

/-- Columns per tile. -/
def Input.tileUnit (inp : Input) : ℕ := (inp.aH + inp.nTiles - 1) / inp.nTiles

/-- The pairs `(v, t)` of a vertex and a tile such that `v` has an edge in `t`. -/
def Input.pairs (inp : Input) : Finset (ℕ × ℕ) :=
  (range inp.aH ×ˢ range inp.nTiles).filter fun p =>
    ∃ c ∈ inp.vertexRow p.1, c / inp.tileUnit = p.2

/-- The pairs whose vertex goes to engine `e`. -/
def Input.pairsOf (inp : Input) (e : ℕ) : Finset (ℕ × ℕ) :=
  inp.pairs.filter fun p => p.1 / inp.lacWidth.toNat % inp.nOfEngine = e

/-- Every pair belongs to one engine. -/
theorem sum_card_pairsOf (inp : Input) (hn : 1 ≤ inp.nOfEngine) :
    ∑ e ∈ range inp.nOfEngine, (inp.pairsOf e).card = inp.pairs.card := by
  refine (card_eq_sum_card_fiberwise fun p _ => ?_).symm
  simp only [coe_range, Set.mem_Iio]
  exact Nat.mod_lt _ hn

/-! ## The work of an engine -/

theorem countP_range_eq_card (p : ℕ → Prop) [DecidablePred p] (m : ℕ) :
    ((List.range m).countP fun v => decide (p v)) = ((range m).filter p).card := by
  induction m with
  | zero => rfl
  | succ m ih =>
    rw [List.range_succ, List.countP_append, ih, range_add_one, filter_insert]
    by_cases h : p m <;> simp [h]

/-- The rows of an engine that satisfy a test, counted by their vertices. -/
theorem countP_lacRows (inp : Input) (hlac : 1 ≤ inp.lacWidth) (e : ℕ) (q : List ℕ → Prop)
    [DecidablePred q] :
    ((inp.lacRows e).countP fun row => decide (q row)) =
      ((range inp.aH).filter fun v =>
        v / inp.lacWidth.toNat % inp.nOfEngine = e ∧ q (inp.vertexRow v)).card := by
  have hwidth : effLacWidth (readData inp) = inp.lacWidth := by
    have h₁ : (readData inp).archInfo.lacWidth = inp.lacWidth := rfl
    unfold effLacWidth
    rw [h₁, if_neg (by omega), if_neg (by omega)]
  rw [Input.lacRows, Sgcn.lacRows, hwidth, List.countP_map, List.countP_filter,
    ← countP_range_eq_card]
  apply List.countP_congr
  intro v _
  simp only [lacIdx, Input.vertexRow, Function.comp_apply, Bool.and_eq_true, decide_eq_true_eq]
  constructor
  · rintro ⟨hq, he⟩
    exact decide_eq_true ⟨of_decide_eq_true he, hq⟩
  · intro h
    obtain ⟨he, hq⟩ := of_decide_eq_true h
    exact ⟨hq, decide_eq_true he⟩

theorem tilePart_ne_nil_iff {unitV k : ℕ} {row : List ℕ} :
    tilePart unitV k row ≠ [] ↔ ∃ c ∈ row, c / unitV = k := by
  simp [tilePart, List.filter_eq_nil_iff]

theorem workRows_flatMap_range (n : ℕ) (f : ℕ → List (List ℕ)) :
    workRows ((List.range n).flatMap f) = ∑ k ∈ range n, workRows (f k) := by
  induction n with
  | zero => rfl
  | succ n ih =>
    rw [sum_range_succ, ← ih, List.range_succ, List.flatMap_append]
    simp [workRows]

theorem workRows_eq_countP (rows : List (List ℕ)) :
    workRows rows = rows.countP fun row => decide (row ≠ []) := by
  apply List.countP_congr
  intro row _
  cases row <;> simp

/-- The pairs of one tile. -/
theorem card_pairsOf_eq_sum (inp : Input) (e : ℕ) :
    (inp.pairsOf e).card = ∑ k ∈ range inp.nTiles, ((range inp.aH).filter fun v =>
      v / inp.lacWidth.toNat % inp.nOfEngine = e ∧
        ∃ c ∈ inp.vertexRow v, c / inp.tileUnit = k).card := by
  unfold Input.pairsOf Input.pairs
  simp only [filter_filter, card_filter, sum_product_right]
  exact sum_congr rfl fun k _ => sum_congr rfl fun v _ => if_congr and_comm rfl rfl

theorem workRows_engineRows (inp : Input) (hsize : inp.aH ≤ 2 ^ 24) (htiles : 1 ≤ inp.nTiles)
    (hlac : 1 ≤ inp.lacWidth) (e : ℕ) :
    workRows (inp.engineRows e) = (inp.pairsOf e).card := by
  rw [card_pairsOf_eq_sum]
  unfold Input.engineRows
  have hunit : inp.unitV = inp.tileUnit := ceilDiv_eq hsize htiles
  split
  · rw [workRows_flatMap_range]
    refine sum_congr rfl fun k _ => ?_
    rw [workRows_eq_countP, tileRows, List.countP_map, ← countP_lacRows inp hlac e
      (fun row => ∃ c ∈ row, c / inp.tileUnit = k)]
    apply List.countP_congr
    intro row _
    simp [tilePart_ne_nil_iff, hunit]
  · next hone =>
    -- a single tile holds every column
    have hnt : inp.nTiles = 1 := by omega
    have hu : inp.tileUnit = inp.aH := by simp [Input.tileUnit, hnt]
    rw [hnt, range_one, sum_singleton, workRows_eq_countP, countP_lacRows inp hlac e (· ≠ [])]
    congr 1
    apply filter_congr
    intro v hv
    refine and_congr_right fun _ => ?_
    rw [hu]
    constructor
    · intro hne
      obtain ⟨c, hc⟩ := List.exists_mem_of_ne_nil _ hne
      refine ⟨c, hc, Nat.div_eq_of_lt (inp.graph.col_lt c ?_)⟩
      exact List.mem_of_mem_drop (List.mem_of_mem_take hc)
    · rintro ⟨c, hc, -⟩ hnil
      rw [hnil] at hc
      simp at hc

/-! ## The counters -/

/-- The stored product of an engine. -/
theorem totalWrite_distribute (inp : Input) (hsize : inp.aH ≤ 2 ^ 24) (htiles : 1 ≤ inp.nTiles)
    (hlac : 1 ≤ inp.lacWidth) (e : ℕ) :
    ((distribute inp).dataIndex e).totalWrite =
      int32 ((inp.pairsOf e).card * (distribute inp).dataInfo.totalUrb : ℕ) := by
  rw [(distribute_engine inp e).2.2, (distribute_info inp).1]
  simp only [DataIndex.setRows, length_sub_zeroRows, workRows_engineRows inp hsize htiles hlac]
  rfl

/-- Conversions lose nothing in total exactly when they lose nothing at all. -/
theorem sum_int32_eq_iff (x : ℕ → ℕ) (n : ℕ) :
    (∑ i ∈ range n, int32 (x i)) = ((∑ i ∈ range n, x i : ℕ) : ℤ) ↔ ∀ i < n, x i < 2 ^ 31 := by
  push_cast
  rw [sum_eq_sum_iff_of_le fun i _ => int32_le (Int.natCast_nonneg (x i))]
  refine ⟨fun h i hi => ?_, fun h i hi => ?_⟩
  · have heq := h i (mem_range.mpr hi)
    have hlt := int32_lt (x i)
    omega
  · exact int32_eq (Int.natCast_nonneg _) (by exact_mod_cast h i (mem_range.mp hi))

/-- The engines' counters add up to `total_urb` times the number of pairs, for this
number of engines and this width, exactly when every engine's share fits in an
`int`. -/
theorem sum_totalWrite_eq_iff (inp : Input) (hsize : inp.aH ≤ 2 ^ 24) (hn : 1 ≤ inp.nOfEngine)
    (htiles : 1 ≤ inp.nTiles) (hlac : 1 ≤ inp.lacWidth) :
    (∑ e ∈ range inp.nOfEngine, ((distribute inp).dataIndex e).totalWrite) =
        ((distribute inp).dataInfo.totalUrb * inp.pairs.card : ℕ) ↔
      ∀ e < inp.nOfEngine,
        (distribute inp).dataInfo.totalUrb * (inp.pairsOf e).card < 2 ^ 31 := by
  simp only [totalWrite_distribute inp hsize htiles hlac]
  rw [← sum_card_pairsOf inp hn, mul_comm, sum_mul, sum_int32_eq_iff]
  simp only [mul_comm]

theorem card_pairsOf_le (inp : Input) (e : ℕ) : (inp.pairsOf e).card ≤ inp.aH * inp.nTiles := by
  calc (inp.pairsOf e).card ≤ inp.pairs.card := card_filter_le _ _
    _ ≤ (range inp.aH ×ˢ range inp.nTiles).card := card_filter_le _ _
    _ = inp.aH * inp.nTiles := by rw [card_product, card_range, card_range]

theorem sum_totalWrite_eq_threeVertices :
    (∑ e ∈ range 2, ((distribute .threeVertices).dataIndex e).totalWrite) =
      ((distribute .threeVertices).dataInfo.totalUrb * Input.threeVertices.pairs.card : ℕ) := by
  refine (sum_totalWrite_eq_iff .threeVertices (by decide) (by decide) (by decide)
    (by decide)).mpr fun e _ => ?_
  have hurb : (distribute .threeVertices).dataInfo.totalUrb = 2 := by
    rw [(distribute_info _).1]
    exact ceilDiv_eq (by decide) (by decide)
  have hcard := card_pairsOf_le .threeVertices e
  have hsize : Input.threeVertices.aH * Input.threeVertices.nTiles = 3 := rfl
  rw [hurb]
  omega

/-! ## A graph on which one engine overflows -/

/-- The complete graph with loops on `n` vertices. -/
def Graph.complete (n : ℕ) : Graph where
  rowPtr := rowPtrOf (List.replicate n (List.range n))
  colIdx := (List.replicate n (List.range n)).flatten
  valid := validCsr_rowPtrOf _
  col_lt := by
    intro c hc
    obtain ⟨row, hrow, hmem⟩ := List.mem_flatten.mp hc
    rw [List.eq_of_mem_replicate hrow] at hmem
    simpa using List.mem_range.mp hmem

/-- The complete graph with one tile per vertex. -/
def Input.complete (vertices xW engines : ℕ) : Input where
  graph := .complete vertices
  xW := xW
  xw := fun _ _ => 1
  nOfEngine := engines
  lacWidth := 1
  nTiles := vertices
  xUnit := 16
  bf := 1
  mode := .mat
  gnnMode := .other
  cacheWay := 2
  cacheSet := 4

section Complete

variable {vertices xW engines : ℕ}

theorem aH_complete : (Input.complete vertices xW engines).aH = vertices := by
  simp [Input.aH, Input.complete, Graph.complete]

/-- Every vertex has an edge in every tile. -/
theorem pairs_complete (hpos : 0 < vertices) :
    (Input.complete vertices xW engines).pairs = range vertices ×ˢ range vertices := by
  have hunit : (Input.complete vertices xW engines).tileUnit = 1 := by
    rw [Input.tileUnit, aH_complete]
    exact Nat.div_eq_of_lt_le (by simp [Input.complete]; omega) (by simp [Input.complete]; omega)
  rw [Input.pairs, aH_complete, hunit]
  refine filter_true_of_mem fun p hp => ?_
  obtain ⟨hv, ht⟩ := mem_product.mp hp
  have hrow : (Input.complete vertices xW engines).vertexRow p.1 = List.range vertices := by
    have hlt : p.1 < (List.replicate vertices (List.range vertices)).length := by
      rw [List.length_replicate]
      exact mem_range.mp hv
    exact (slice_flatten hlt).trans (List.getElem_replicate ..)
  rw [hrow]
  exact ⟨p.2, List.mem_range.mpr (mem_range.mp ht), Nat.div_one _⟩

theorem totalUrb_complete (hsize : xW ≤ 2 ^ 24) :
    (distribute (.complete vertices xW engines)).dataInfo.totalUrb = (xW + 15) / 16 := by
  rw [(distribute_info _).1]
  exact ceilDiv_eq hsize (by decide)

theorem totalWrite_complete (hpos : 0 < vertices) (hsize : vertices ≤ 2 ^ 24) (hx : xW ≤ 2 ^ 24)
    (e : ℕ) :
    ((distribute (.complete vertices xW engines)).dataIndex e).totalWrite =
      int32 (((Input.complete vertices xW engines).pairsOf e).card * ((xW + 15) / 16) : ℕ) := by
  have hle : (Input.complete vertices xW engines).aH ≤ 2 ^ 24 := by
    rw [aH_complete]
    exact hsize
  rw [totalWrite_distribute (.complete vertices xW engines) hle hpos le_rfl,
    totalUrb_complete hx]

/-- A single engine gets all pairs. -/
theorem card_pairsOf_complete_one (hpos : 0 < vertices) :
    ((Input.complete vertices xW 1).pairsOf 0).card = vertices * vertices := by
  have hall : (Input.complete vertices xW 1).pairsOf 0 = (Input.complete vertices xW 1).pairs :=
    filter_true_of_mem fun p _ => Nat.mod_one _
  rw [hall, pairs_complete hpos, card_product, card_range]

/-- Two engines share the vertices. -/
theorem card_pairsOf_complete_two (hpos : 1 < vertices) {e : ℕ} (he : e < 2) :
    ((Input.complete vertices xW 2).pairsOf e).card < vertices * vertices := by
  have hlt : (Input.complete vertices xW 2).pairsOf e ⊂ (Input.complete vertices xW 2).pairs := by
    refine filter_ssubset.mpr ⟨(1 - e, 0), ?_, ?_⟩
    · rw [pairs_complete (by omega)]
      simp only [mem_product, mem_range]
      omega
    · change ¬ (1 - e) / 1 % 2 = e
      omega
  have hcard := card_lt_card hlt
  rwa [pairs_complete (by omega), card_product, card_range] at hcard

end Complete

/-- With 256 vertices and `2 ^ 19` features, a single engine would have to count
`2 ^ 31` writes; two engines count half of them each. -/
theorem sum_totalWrite_complete :
    (∑ e ∈ range 1, ((distribute (.complete 256 (2 ^ 19) 1)).dataIndex e).totalWrite) ≠
        ((distribute (.complete 256 (2 ^ 19) 1)).dataInfo.totalUrb *
          (Input.complete 256 (2 ^ 19) 1).pairs.card : ℕ) ∧
      (∑ e ∈ range 1, ((distribute (.complete 256 (2 ^ 19) 1)).dataIndex e).totalWrite) ≠
        ∑ e ∈ range 2, ((distribute (.complete 256 (2 ^ 19) 2)).dataIndex e).totalWrite := by
  have hone : (∑ e ∈ range 1,
      ((distribute (.complete 256 (2 ^ 19) 1)).dataIndex e).totalWrite) = -2 ^ 31 := by
    rw [sum_range_one, totalWrite_complete (by omega) (by omega) (by omega),
      card_pairsOf_complete_one (by omega)]
    rfl
  have htwo : 0 ≤ ∑ e ∈ range 2,
      ((distribute (.complete 256 (2 ^ 19) 2)).dataIndex e).totalWrite := by
    refine sum_nonneg fun e he => ?_
    have hlt : ((Input.complete 256 (2 ^ 19) 2).pairsOf e).card < 256 * 256 :=
      card_pairsOf_complete_two (by omega) (mem_range.mp he)
    rw [totalWrite_complete (by omega) (by omega) (by omega), int32_eq (by omega) (by omega)]
    omega
  constructor
  · rw [hone]
    omega
  · omega

end Sgcn

-- SUMMARY: How many writes a SIMD unit enqueues, and when that is the budget the preprocessor computed.
import Sgcn.Layout.Prepared
import Sgcn.Model.Simd
import Mathlib.Algebra.BigOperators.Ring.Finset
import Mathlib.Algebra.Order.BigOperators.Group.Finset

/-!
# Write budget

A SIMD unit counts row ends. It knows how many rows its engine has, and switches
to a narrower write width in the last fold. The preprocessor computes the number
of writes without looking at the folds.
-/

namespace Sgcn

namespace Simd

variable {g : Globals} {id z : ℕ} {s : Simd}

/-! ## The push loop -/

theorem pushes_eq (n : ℕ) (s : Simd) :
    pushes n s = { s with
      wq := s.wq ++ (List.range' s.cnt n).map s.address
      cnt := s.cnt + n } := by
  induction n generalizing s with
  | zero => simp [pushes]
  | succ n ih =>
    rw [pushes, ih]
    simp only [push, List.range'_succ, List.map_cons, List.append_assoc,
      List.singleton_append]
    congr 1
    omega

/-! ## Row ends -/

/-- Writes per row in fold `f`: the last fold of several takes what is left. -/
def width (g : Globals) (f : ℕ) : ℤ :=
  if 2 ≤ g.archInfo.bf ∧ g.archInfo.bf ≤ f + 1 then
    g.dataInfo.totalUrb - g.archInfo.urb * (g.archInfo.bf - 1)
  else g.archInfo.urb

theorem width_last {f : ℕ} (h : f + 1 + 1 = g.archInfo.bf) :
    width g (f + 1) = g.dataInfo.totalUrb - g.archInfo.urb * (g.archInfo.bf - 1) :=
  if_pos (by omega)

theorem width_succ {f : ℕ} (h : f + 1 + 1 ≠ g.archInfo.bf) : width g (f + 1) = width g f :=
  if_congr (by omega) rfl rfl

/-- The rows of an engine as its SIMD unit counts them. -/
def rowsOf (g : Globals) (id : ℕ) : ℕ := (g.dataIndex id).row - (g.dataIndex id).zeroRow

/-- Writes after `z` row ends. -/
def pushed (g : Globals) (id z : ℕ) : ℕ :=
  ∑ k ∈ Finset.range z, (width g (k / rowsOf g id)).toNat

/-- `z` row ends have been seen. -/
structure RowInv (g : Globals) (id z : ℕ) (s : Simd) : Prop where
  nonzeroRow_eq : s.nonzeroRow = rowsOf g id
  curRowIdx_eq : s.curRowIdx = z % rowsOf g id
  curBf_eq : s.curBf = z / rowsOf g id + 1
  writeUrb_eq : s.writeUrb = width g (z / rowsOf g id)
  cnt_eq : s.cnt = pushed g id z

theorem RowInv.init (g : Globals) (id : ℕ) : RowInv g id 0 (.init g id) where
  nonzeroRow_eq := rfl
  curRowIdx_eq := by simp [Simd.init]
  curBf_eq := by simp [Simd.init]
  writeUrb_eq := by
    simp only [Simd.init, width, Nat.zero_div]
    rw [if_neg (by omega)]
  cnt_eq := rfl

/-- A row end writes the width of the current fold. -/
theorem RowInv.rowEnd (hrows : 0 < rowsOf g id) (h : RowInv g id z s) :
    RowInv g id (z + 1) (s.getFeature g 0) ∧
      (s.getFeature g 0).wq =
        s.wq ++ (List.range' s.cnt (width g (z / rowsOf g id)).toNat).map s.address := by
  have hcnt : s.cnt + (width g (z / rowsOf g id)).toNat = pushed g id (z + 1) := by
    rw [pushed, Finset.sum_range_succ, h.cnt_eq]
    rfl
  unfold getFeature
  rw [if_pos rfl, pushes_eq, h.writeUrb_eq]
  simp only [h.nonzeroRow_eq, h.curRowIdx_eq, h.curBf_eq, hcnt]
  rcases Rounds.succ_cases hrows z with ⟨hlt, hdiv, hmod⟩ | ⟨heq, hdiv, hmod⟩
  · rw [if_neg (by omega)]
    exact ⟨⟨rfl, hmod.symm, by rw [hdiv], by rw [hdiv], rfl⟩, rfl⟩
  · rw [if_pos heq]
    by_cases hlast : z / rowsOf g id + 1 + 1 = g.archInfo.bf
    · rw [if_pos hlast]
      exact ⟨⟨rfl, hmod.symm, by rw [hdiv], by rw [hdiv, width_last hlast], rfl⟩, rfl⟩
    · rw [if_neg hlast]
      exact ⟨⟨rfl, hmod.symm, by rw [hdiv], by rw [hdiv, width_succ hlast], rfl⟩, rfl⟩

theorem getFeature_of_ne {f : ℤ} (hf : f ≠ 0) : s.getFeature g f = s := by
  unfold getFeature
  rw [if_neg hf]

/-- `GetFeature` pushes the next addresses. -/
theorem getFeature_pushes (g : Globals) (f : ℤ) (s : Simd) :
    ∃ n, (s.getFeature g f).cnt = s.cnt + n ∧
      (s.getFeature g f).axwAddrStart = s.axwAddrStart ∧
      (s.getFeature g f).wq = s.wq ++ (List.range' s.cnt n).map s.address := by
  by_cases hf : f = 0
  · refine ⟨s.writeUrb.toNat, ?_⟩
    unfold getFeature
    rw [if_pos hf, pushes_eq]
    dsimp only
    split
    · split <;> exact ⟨rfl, rfl, rfl⟩
    · exact ⟨rfl, rfl, rfl⟩
  · rw [getFeature_of_ne hf]
    exact ⟨0, rfl, rfl, by simp⟩

/-- `GetFeature` on a sequence of values. -/
def feed (g : Globals) (id : ℕ) (fs : List ℤ) : Simd :=
  fs.foldl (fun s f => s.getFeature g f) (.init g id)

theorem feed_inv (hrows : 0 < rowsOf g id) (fs : List ℤ) :
    RowInv g id (fs.count 0) (feed g id fs) ∧ (feed g id fs).wq.length = (feed g id fs).cnt := by
  induction fs using List.reverseRecOn with
  | nil => exact ⟨.init g id, rfl⟩
  | append_singleton fs f ih =>
    obtain ⟨hinv, hlen⟩ := ih
    have happ : feed g id (fs ++ [f]) = (feed g id fs).getFeature g f := by
      simp [feed, List.foldl_append]
    rw [happ, List.count_append]
    by_cases hf : f = 0
    · subst hf
      obtain ⟨hinv', hwq⟩ := hinv.rowEnd hrows
      refine ⟨by simpa using hinv', ?_⟩
      rw [hwq, hinv'.cnt_eq, List.length_append, hlen, hinv.cnt_eq, pushed, pushed,
        Finset.sum_range_succ]
      simp
    · rw [getFeature_of_ne hf]
      simpa [List.count_singleton, hf] using ⟨hinv, hlen⟩

/-- Without rows there are no row ends, and nothing is written. -/
theorem feed_of_count_zero (fs : List ℤ) (h : fs.count 0 = 0) :
    feed g id fs = .init g id := by
  induction fs using List.reverseRecOn with
  | nil => rfl
  | append_singleton fs f ih =>
    rw [List.count_append] at h
    have hf : f ≠ 0 := by
      rintro rfl
      simp at h
    have happ : feed g id (fs ++ [f]) = (feed g id fs).getFeature g f := by
      simp [feed, List.foldl_append]
    rw [happ, getFeature_of_ne hf, ih (by omega)]

/-! ## A complete run -/

/-- The writes of `n` folds. -/
theorem pushed_mul (hrows : 0 < rowsOf g id) (n : ℕ) :
    pushed g id (n * rowsOf g id) = ∑ f ∈ Finset.range n, rowsOf g id * (width g f).toNat := by
  induction n with
  | zero => simp [pushed]
  | succ n ih =>
    rw [Finset.sum_range_succ, ← ih, Nat.succ_mul, pushed, pushed, Finset.sum_range_add]
    congr 1
    have hfold : ∀ k ∈ Finset.range (rowsOf g id),
        (width g ((n * rowsOf g id + k) / rowsOf g id)).toNat = (width g n).toNat := by
      intro k hk
      rw [mul_comm, Nat.mul_add_div hrows, Nat.div_eq_of_lt (Finset.mem_range.mp hk), Nat.add_zero]
    rw [Finset.sum_const_nat hfold, Finset.card_range]

/-- The writes of all folds: `urb` per row in every fold but the last, and in the
last what remains of `total_urb`, if anything remains. -/
theorem pushed_bf (hrows : 0 < rowsOf g id) (hbf : 1 ≤ g.archInfo.bf)
    (hone : g.archInfo.bf = 1 → g.archInfo.urb = g.dataInfo.totalUrb) :
    pushed g id (g.archInfo.bf * rowsOf g id) =
      rowsOf g id * max ((g.archInfo.bf - 1) * g.archInfo.urb) g.dataInfo.totalUrb := by
  obtain ⟨b, hb⟩ := Nat.exists_eq_add_of_le' hbf
  rw [pushed_mul hrows, hb, Finset.sum_range_succ, ← Finset.mul_sum, ← Nat.mul_add]
  congr 1
  have hfirst : ∑ f ∈ Finset.range b, (width g f).toNat = b * g.archInfo.urb := by
    have hw : ∀ f ∈ Finset.range b, (width g f).toNat = g.archInfo.urb := by
      intro f hf
      have := Finset.mem_range.mp hf
      rw [width, if_neg (by omega), Int.toNat_natCast]
    rw [Finset.sum_const_nat hw, Finset.card_range]
  rw [hfirst, Nat.add_sub_cancel]
  rcases Nat.eq_zero_or_pos b with rfl | hpos
  · rw [width, if_neg (by omega), Int.toNat_natCast, hone (by omega)]
    simp
  · have hlast : width g b = g.dataInfo.totalUrb - (b * g.archInfo.urb : ℕ) := by
      rw [width, if_pos (by omega), hb]
      push_cast
      ring
    rw [hlast]
    omega

/-- The complete run of row ends: as many as the engine has rows with edges, once
per fold, with any other values in between. -/
def Complete (g : Globals) (id : ℕ) (fs : List ℤ) : Prop :=
  fs.count 0 = rowsOf g id * g.archInfo.bf

/-- A complete run enqueues the same number of addresses, whatever else it holds. -/
theorem length_wq_feed (hbf : 1 ≤ g.archInfo.bf)
    (hone : g.archInfo.bf = 1 → g.archInfo.urb = g.dataInfo.totalUrb) {fs : List ℤ}
    (hfs : Complete g id fs) :
    (feed g id fs).wq.length =
      rowsOf g id * max ((g.archInfo.bf - 1) * g.archInfo.urb) g.dataInfo.totalUrb := by
  rcases Nat.eq_zero_or_pos (rowsOf g id) with hzero | hrows
  · rw [Complete, hzero, Nat.zero_mul] at hfs
    rw [feed_of_count_zero fs hfs, hzero, Nat.zero_mul]
    rfl
  · obtain ⟨hinv, hlen⟩ := feed_inv hrows fs
    rw [hlen, hinv.cnt_eq, hfs, mul_comm, pushed_bf hrows hbf hone]

end Simd

/-! ## The budget -/

namespace Simd

theorem max_eq_int32_iff {r a t : ℕ} :
    ((r * max a t : ℕ) : ℤ) = int32 (r * t : ℕ) ↔ r = 0 ∨ a ≤ t ∧ r * t < 2 ^ 31 := by
  have hle := int32_le (Int.natCast_nonneg (r * t))
  have hlt := int32_lt (r * t : ℕ)
  constructor
  · intro heq
    rcases Nat.eq_zero_or_pos r with hr | hr
    · exact .inl hr
    · have hmul : r * t ≤ r * max a t := Nat.mul_le_mul_left r (le_max_right a t)
      have hmax : r * max a t ≤ r * t := by omega
      have := Nat.le_of_mul_le_mul_left hmax hr
      exact .inr ⟨by omega, by omega⟩
  · rintro (rfl | ⟨hat, hfit⟩)
    · simp only [Nat.zero_mul]
      exact (int32_eq le_rfl (by decide)).symm
    · rw [max_eq_right hat, int32_eq (Int.natCast_nonneg _) (by omega)]

/-- Every complete run of an engine enqueues its budget. Then all engines together
enqueue the `total_write` that the main loop counts down, and after `done`
completions the count is zero exactly when all writes are done. -/
def WriteBudget (g : Globals) : Prop :=
  (∀ id < g.archInfo.nOfEngine, ∀ fs, Complete g id fs →
    ((feed g id fs).wq.length : ℤ) = (g.dataIndex id).totalWrite) ∧
  ∀ fs : ℕ → List ℤ, (∀ id < g.archInfo.nOfEngine, Complete g id (fs id)) →
    let writes := ∑ id ∈ Finset.range g.archInfo.nOfEngine, (feed g id (fs id)).wq.length
    sumTotalWrite g.dataIndex g.archInfo.nOfEngine = writes ∧
      ∀ done ≤ writes,
        uint64 (sumTotalWrite g.dataIndex g.archInfo.nOfEngine - done) = 0 ↔ done = writes

section Budget

variable {inp : Input} {g : Globals} {id : ℕ}

theorem one_le_folds (hxW : 1 ≤ inp.xW) (hbf : 1 ≤ inp.bf) (hunit : 1 ≤ inp.xUnit) :
    1 ≤ inp.folds := by
  unfold Input.folds
  split
  · exact ceilDiv_pos hxW hunit
  · exact hbf

/-- A single fold covers the row. -/
theorem foldLines_of_folds_one (h : inp.folds = 1) : inp.foldLines = inp.rowLines := by
  cases hm : inp.mode with
  | xCmp =>
    have hrow : inp.rowLines = inp.folds * inp.foldLines := by rw [Input.rowLines, hm]
    rw [hrow, h, Nat.one_mul]
  | mat =>
    simp only [Input.folds, hm] at h
    simp only [Input.foldLines, Input.rowLines, hm, h, floatDiv_toFloat_one]
    rfl
  | csr =>
    simp only [Input.folds, hm] at h
    simp only [Input.foldLines, Input.rowLines, hm, h, floatDiv_toFloat_one]
    rfl
  | xFullCmp =>
    simp only [Input.folds, hm] at h
    simp only [Input.foldLines, Input.rowLines, hm, h, floatDiv_toFloat_one]
    rfl

/-- The writes of a complete run, by the geometry of the input. -/
theorem length_wq_feed_geometry (hgeo : Geometry inp g) (hfolds : 1 ≤ inp.folds) {fs : List ℤ}
    (hfs : Complete g id fs) :
    (feed g id fs).wq.length = workRows (inp.engineRows id) *
      max ((inp.folds - 1) * inp.foldLines) inp.rowLines := by
  have hlen := length_wq_feed (by rw [hgeo.bf_eq]; exact hfolds)
    (by rw [hgeo.bf_eq, hgeo.urb_eq, hgeo.totalUrb_eq]; exact foldLines_of_folds_one) hfs
  rw [hlen, hgeo.bf_eq, hgeo.urb_eq, hgeo.totalUrb_eq, rowsOf, hgeo.rows_eq]

theorem exists_complete (g : Globals) (id : ℕ) : ∃ fs, Complete g id fs :=
  ⟨List.replicate (rowsOf g id * g.archInfo.bf) 0, by simp [Complete]⟩

/-- The budget is kept exactly when every engine with rows is due at least the
writes of all folds but the last, and its product fits in an `int`. -/
theorem writeBudget_iff (hg : preprocess inp = some g ∨ g = transXW inp.xw (distribute inp))
    (hxW : 1 ≤ inp.xW) (hbf : 1 ≤ inp.bf) (hunit : 1 ≤ inp.xUnit)
    (hn : inp.nOfEngine < 2 ^ 31) :
    WriteBudget g ↔ ∀ id < inp.nOfEngine, workRows (inp.engineRows id) = 0 ∨
      (inp.folds - 1) * inp.foldLines ≤ inp.rowLines ∧
        workRows (inp.engineRows id) * inp.rowLines < 2 ^ 31 := by
  have hgeo : Geometry inp g := by
    rcases hg with hg | rfl
    · exact geometry_of_preprocess hg
    · exact geometry_transXW inp
  have hfolds := one_le_folds hxW hbf hunit
  have hengine : ∀ id, (∀ fs, Complete g id fs →
      ((feed g id fs).wq.length : ℤ) = (g.dataIndex id).totalWrite) ↔
      (workRows (inp.engineRows id) = 0 ∨ (inp.folds - 1) * inp.foldLines ≤ inp.rowLines ∧
        workRows (inp.engineRows id) * inp.rowLines < 2 ^ 31) := by
    intro id
    rw [← max_eq_int32_iff, ← hgeo.totalWrite_eq id]
    constructor
    · intro hall
      obtain ⟨fs, hfs⟩ := exists_complete g id
      rw [← hall fs hfs, length_wq_feed_geometry hgeo hfolds hfs]
    · intro heq fs hfs
      rw [← heq, length_wq_feed_geometry hgeo hfolds hfs]
  unfold WriteBudget
  rw [hgeo.nOfEngine_eq]
  constructor
  · rintro ⟨hall, -⟩ id hid
    exact (hengine id).mp (hall id hid)
  · intro hcond
    have hall := fun id hid => (hengine id).mpr (hcond id hid)
    refine ⟨hall, fun fs hfs => ?_⟩
    have hlt : ∀ id < inp.nOfEngine, (feed g id (fs id)).wq.length < 2 ^ 31 := by
      intro id hid
      have heq := hall id hid (fs id) (hfs id hid)
      have hbound := int32_lt (workRows (inp.engineRows id) * inp.rowLines : ℕ)
      rw [hgeo.totalWrite_eq id] at heq
      omega
    obtain ⟨hsum, hle⟩ := sumTotalWrite_eq hn.le
      (fun id hid => (hall id hid (fs id) (hfs id hid)).symm) hlt
    refine ⟨hsum, fun done hdone => ?_⟩
    rw [hsum]
    have huint := uint64_eq (z := ((∑ id ∈ Finset.range inp.nOfEngine,
      (feed g id (fs id)).wq.length : ℕ) : ℤ) - done) (by omega) (by omega)
    omega

theorem writeBudget_threeVertices :
    ∃ g, preprocess .threeVertices = some g ∧ WriteBudget g := by
  obtain ⟨g, hg⟩ := preprocess_threeVertices
  refine ⟨g, hg, (writeBudget_iff (.inl hg) (by decide) (by decide) (by decide)
    (by decide)).mpr fun id hid => ?_⟩
  have hfolds : Input.threeVertices.folds = 2 := ceilDiv_eq (by decide) (by decide)
  have hlines : Input.threeVertices.foldLines = 1 := ceilDiv_eq (by decide) (by decide)
  have hrow : Input.threeVertices.rowLines = 2 := by
    change Input.threeVertices.folds * Input.threeVertices.foldLines = 2
    rw [hfolds, hlines]
  have hcases : id = 0 ∨ id = 1 := by
    have : id < 2 := hid
    omega
  rw [hfolds, hlines, hrow]
  rcases hcases with rfl | rfl
  · rw [engineRows_threeVertices.1]
    decide
  · rw [engineRows_threeVertices.2]
    decide

/-- Sixteen features in three folds: every row is due one line, but each of the
first two folds writes one. -/
def threeFolds : Input :=
  { Input.threeVertices with mode := .csr, xW := 16, bf := 3 }

theorem not_writeBudget_threeFolds :
    ¬ WriteBudget (transXW threeFolds.xw (distribute threeFolds)) := by
  have hgeo := geometry_transXW threeFolds
  have hrow : threeFolds.rowLines = 1 := ceilDiv_eq (by decide) (by decide)
  have hlines : 0 < threeFolds.foldLines :=
    Nat.ceil_pos.mpr (floatDiv_pos (floatDiv_pos (toFloat_pos (by decide)) (by decide)) (by decide))
  have hwork : workRows (threeFolds.engineRows 0) = 2 := by
    have hsame : threeFolds.engineRows 0 = Input.threeVertices.engineRows 0 := rfl
    rw [hsame, engineRows_threeVertices.1]
    rfl
  rintro ⟨hall, -⟩
  obtain ⟨fs, hfs⟩ := exists_complete (transXW threeFolds.xw (distribute threeFolds)) 0
  have heq := hall 0 (by rw [hgeo.nOfEngine_eq]; decide) fs hfs
  rw [length_wq_feed_geometry hgeo (by decide) hfs, hgeo.totalWrite_eq, hwork, hrow,
    int32_eq (by decide) (by decide)] at heq
  have hfolds : threeFolds.folds = 3 := rfl
  rw [hfolds] at heq
  omega

end Budget

end Simd

end Sgcn

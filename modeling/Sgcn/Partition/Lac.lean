-- SUMMARY: The distribution loop of `LAC`: every engine gets the CSR of its own rows.
import Sgcn.Base.Dealing
import Sgcn.Partition.Rows

/-!
# Distribution

`LAC` deals the rows of the graph to the engines in chunks of `lac_width` rows.
Engine `e` ends with the CSR of the rows dealt to it, in their order. So the
engines share the rows of the graph among them, and where a row ends up can be
computed from its number.
-/

namespace Sgcn

variable {rowPtr colIdx : List ℕ} {width n e : ℕ}

/-- The rows among the first `m` that go to engine `e`. -/
def lacRows (rowPtr colIdx : List ℕ) (width n m e : ℕ) : List (List ℕ) :=
  ((List.range m).filter fun i => lacIdx width n i = e).map fun i =>
    slice colIdx (vget rowPtr i) (vget rowPtr (i + 1))

theorem lacRows_succ (m : ℕ) : lacRows rowPtr colIdx width n (m + 1) e =
    if lacIdx width n m = e then
      lacRows rowPtr colIdx width n m e ++ [slice colIdx (vget rowPtr m) (vget rowPtr (m + 1))]
    else lacRows rowPtr colIdx width n m e := by
  unfold lacRows
  rw [List.range_succ, List.filter_append, List.map_append]
  by_cases h : lacIdx width n m = e
  · simp [h]
  · simp [h]

/-- What the loop has built after some rows: per engine the CSR of its rows. -/
def LacState.Built (rows : ℕ → List (List ℕ)) (s : LacState) : Prop :=
  ∀ e, s.edgeAcm e = (rows e).flatten.length ∧ s.rowPtrLac e = rowPtrOf (rows e) ∧
    s.colIdxLac e = (rows e).flatten

theorem LacState.Built.step (hv : ValidCsr rowPtr colIdx) {m : ℕ} {s : LacState}
    (hm : m + 1 < rowPtr.length) (h : s.Built (lacRows rowPtr colIdx width n m)) :
    (s.step rowPtr colIdx width n m).Built (lacRows rowPtr colIdx width n (m + 1)) := by
  intro e
  obtain ⟨hacm, hptr, hcol⟩ := h e
  rw [lacRows_succ]
  unfold LacState.step
  by_cases he : lacIdx width n m = e
  · subst he
    simp only [Function.update_self, if_true, hacm, hptr, hcol, rowPtrOf_concat,
      List.flatten_append, List.flatten_singleton, List.length_append, hv.length_slice hm,
      and_self]
  · have hne : e ≠ lacIdx width n m := Ne.symm he
    simp only [Function.update_of_ne hne, if_neg he]
    exact ⟨hacm, hptr, hcol⟩

theorem lacLoop_built (hv : ValidCsr rowPtr colIdx) (width n : ℕ) :
    (lacLoop rowPtr colIdx width n).Built
      (lacRows rowPtr colIdx width n (rowPtr.length - 1)) := by
  -- by induction on the number of rows dealt out
  have key : ∀ m, m < rowPtr.length →
      ((List.range m).foldl (LacState.step rowPtr colIdx width n) .init).Built
        (lacRows rowPtr colIdx width n m) := by
    intro m
    induction m with
    | zero => intro _ e; exact ⟨rfl, rfl, rfl⟩
    | succ m ih =>
      intro hm
      rw [List.range_succ, List.foldl_append]
      exact (ih (by omega)).step hv hm
  exact key _ (by have := hv.length_pos; omega)

/-- The rows of the graph that go to engine `e`. -/
def Input.lacRows (inp : Input) (e : ℕ) : List (List ℕ) :=
  Sgcn.lacRows inp.graph.rowPtr inp.graph.colIdx (effLacWidth (readData inp)).toNat
    inp.nOfEngine (inp.graph.rowPtr.length - 1) e

/-- What `LAC` stores for engine `e`. -/
theorem lac_readData (inp : Input) (e : ℕ) :
    (lac (readData inp)).rowPtr e = rowPtrOf (inp.lacRows e) ∧
      (lac (readData inp)).colIdx e = (inp.lacRows e).flatten := by
  obtain ⟨-, hptr, hcol⟩ := lacLoop_built inp.graph.valid (effLacWidth (readData inp)).toNat
    inp.nOfEngine e
  exact ⟨hptr, hcol⟩

/-! ## The partition -/

/-- The engines share the rows of the CSR `rowPtr`, `colIdx`, in chunks of `w` rows
that go to `n` engines in turn. -/
structure LacPartition (rowPtr colIdx : List ℕ) (w n : ℕ) (g : Globals) : Prop where
  /-- Engine `e` owns, in increasing order, the rows `i` with `i / w % n = e`, and
  lists each with its columns in order. -/
  rows : ∀ e < n, csrRows (g.rowPtr e) (g.colIdx e) =
    ((List.range (rowPtr.length - 1)).filter fun i => i / w % n = e).map fun i =>
      slice colIdx (vget rowPtr i) (vget rowPtr (i + 1))
  /-- Row `i` is row `i / (w * n) * w + i % w` of the engine that owns it. -/
  place : ∀ i < rowPtr.length - 1, i / w % n < n ∧
    (csrRows (g.rowPtr (i / w % n)) (g.colIdx (i / w % n)))[i / (w * n) * w + i % w]? =
      (csrRows rowPtr colIdx)[i]? ∧
    ((List.range (rowPtr.length - 1)).filter fun j => j / w % n = i / w % n)[
      i / (w * n) * w + i % w]? = some i
  /-- Together the engines hold the rows of the graph. -/
  lossless : ((List.range n).flatMap fun e => csrRows (g.rowPtr e) (g.colIdx e)).Perm
    (csrRows rowPtr colIdx)
  valid : ∀ e < n, ValidCsr (g.rowPtr e) (g.colIdx e)
  /-- The record of an engine counts its rows and those without an edge. -/
  work : ∀ e < n, (g.dataIndex e).row = (csrRows (g.rowPtr e) (g.colIdx e)).length ∧
    (g.dataIndex e).row - (g.dataIndex e).zeroRow = workRows (csrRows (g.rowPtr e) (g.colIdx e))

theorem lacRows_eq_map_part (m : ℕ) : lacRows rowPtr colIdx width n m e =
    (Dealing.part (Dealing.turn width n) e (List.range m)).map fun i =>
      slice colIdx (vget rowPtr i) (vget rowPtr (i + 1)) :=
  rfl

/-- The engines' rows are the rows of the graph. -/
theorem flatMap_lacRows_perm (hn : 0 < n) (m : ℕ) :
    ((List.range n).flatMap fun e => lacRows rowPtr colIdx width n m e).Perm
      ((List.range m).map fun i => slice colIdx (vget rowPtr i) (vget rowPtr (i + 1))) := by
  have hperm := Dealing.flatMap_part_perm (l := List.range m)
    fun i _ => Dealing.turn_lt hn width i
  simp only [lacRows_eq_map_part, ← List.map_flatMap]
  exact hperm.map _

/-- `LAC` is a lossless, order-preserving partition of the rows, for every number
of engines and every width that it works with. -/
theorem lac_partition (g : Globals) (hv : ValidCsr (g.rowPtr 0) (g.colIdx 0))
    (hn : 1 ≤ g.archInfo.nOfEngine) (hw : 1 ≤ effLacWidth g) :
    LacPartition (g.rowPtr 0) (g.colIdx 0) (effLacWidth g).toNat g.archInfo.nOfEngine (lac g) := by
  have hw' : 0 < (effLacWidth g).toNat := by omega
  have hbuilt := lacLoop_built hv (effLacWidth g).toNat g.archInfo.nOfEngine
  have hptr (e : ℕ) : (lac g).rowPtr e = rowPtrOf _ := (hbuilt e).2.1
  have hcol (e : ℕ) : (lac g).colIdx e = _ := (hbuilt e).2.2
  have hrows (e : ℕ) : csrRows ((lac g).rowPtr e) ((lac g).colIdx e) =
      lacRows (g.rowPtr 0) (g.colIdx 0) (effLacWidth g).toNat g.archInfo.nOfEngine
        ((g.rowPtr 0).length - 1) e := by
    rw [hptr, hcol, csrRows_rowPtrOf]
  refine ⟨fun e _ => hrows e, fun i hi => ?_, ?_, fun e _ => ?_, fun e _ => ?_⟩
  · have hplace := Dealing.getElem?_part_range hw' hn hi
    refine ⟨Nat.mod_lt _ hn, ?_, hplace⟩
    rw [hrows, lacRows_eq_map_part, List.getElem?_map, ← Dealing.turn, hplace]
    simp [csrRows, hi]
  · simp only [hrows]
    exact flatMap_lacRows_perm hn _
  · rw [hptr, hcol]
    exact validCsr_rowPtrOf _
  · have hindex : (lac g).dataIndex e =
        (g.dataIndex e).setRows ((lac g).rowPtr e) g.dataInfo.totalUrb := rfl
    rw [hrows, hindex, DataIndex.setRows, hptr]
    exact ⟨by simp, length_sub_zeroRows _⟩

theorem lac_partition_threeVertices :
    effLacWidth (readData .threeVertices) = 1 ∧
      LacPartition [0, 2, 2, 3] [1, 2, 0] 1 2 (lac (readData .threeVertices)) := by
  have hwidth : effLacWidth (readData .threeVertices) = 1 := by
    simp [effLacWidth, readData, Input.threeVertices]
  refine ⟨hwidth, ?_⟩
  have h := lac_partition (readData .threeVertices) Graph.threeVertices.valid (by decide)
    hwidth.ge
  rwa [hwidth] at h

end Sgcn

-- SUMMARY: The CSR of a list of rows: its row pointer, that it is valid, and how many of its rows are empty.
import Sgcn.Graph.Csr
import Sgcn.Model.Preprocessor
import Mathlib.Data.List.TakeDrop
import Mathlib.Tactic.Linarith

/-!
# CSR arrays as lists of rows

`LAC` and `Tiling` both produce the CSR of some list of rows: the columns are the
rows one after the other, and the row pointer holds the accumulated lengths. This
module says what such a CSR looks like, so that distribution and tiling can be
described by their rows alone.
-/

namespace Sgcn

variable {rows : List (List ℕ)} {row : List ℕ}

/-- The accumulated lengths `0, |r₀|, |r₀| + |r₁|, …`. -/
def rowPtrOf (rows : List (List ℕ)) : List ℕ :=
  (List.range (rows.length + 1)).map fun j => (rows.take j).flatten.length

@[simp] theorem rowPtrOf_nil : rowPtrOf [] = [0] := rfl

@[simp] theorem length_rowPtrOf (rows : List (List ℕ)) :
    (rowPtrOf rows).length = rows.length + 1 := by
  simp [rowPtrOf]

theorem vget_rowPtrOf {j : ℕ} (h : j ≤ rows.length) :
    vget (rowPtrOf rows) j = (rows.take j).flatten.length := by
  rw [vget_eq_getElem (by rw [length_rowPtrOf]; omega)]
  simp [rowPtrOf]

/-- Row `j` is as long as the row pointer says. -/
theorem vget_rowPtrOf_succ {j : ℕ} (h : j < rows.length) :
    vget (rowPtrOf rows) (j + 1) = vget (rowPtrOf rows) j + rows[j].length := by
  rw [vget_rowPtrOf h, vget_rowPtrOf h.le, List.take_succ_eq_append_getElem h,
    List.flatten_append, List.length_append, List.flatten_singleton]

theorem rowPtrOf_concat (rows : List (List ℕ)) (row : List ℕ) :
    rowPtrOf (rows ++ [row]) = rowPtrOf rows ++ [rows.flatten.length + row.length] := by
  unfold rowPtrOf
  rw [List.length_append, List.length_singleton, List.range_succ, List.map_append]
  congr 1
  · apply List.map_congr_left
    intro j hj
    have hle : j ≤ rows.length := by have := List.mem_range.mp hj; omega
    rw [List.take_append_of_le_length hle]
  · simp

theorem validCsr_rowPtrOf (rows : List (List ℕ)) : ValidCsr (rowPtrOf rows) rows.flatten where
  head := by simp [rowPtrOf, List.range_succ_eq_map]
  sorted := by
    unfold rowPtrOf
    rw [List.pairwise_map]
    refine List.pairwise_lt_range.imp fun {i j} hlt => ?_
    have hpre : rows.take i <+: rows.take j := List.take_prefix_take_left (by omega)
    obtain ⟨rest, hrest⟩ := hpre
    rw [← hrest]
    simp
  last := by
    rw [rowPtrOf, List.range_succ, List.map_append, List.map_singleton, List.getLast?_concat,
      List.take_length]

/-- The rows can be read back from the arrays. -/
theorem slice_flatten {j : ℕ} (h : j < rows.length) :
    slice rows.flatten (vget (rowPtrOf rows) j) (vget (rowPtrOf rows) (j + 1)) = rows[j] := by
  have hsplit : rows.flatten =
      (rows.take j).flatten ++ (rows[j] ++ (rows.drop (j + 1)).flatten) := by
    rw [← List.flatten_cons, ← List.drop_eq_getElem_cons h, ← List.flatten_append,
      List.take_append_drop]
  rw [vget_rowPtrOf_succ h, vget_rowPtrOf h.le, slice, Nat.add_sub_cancel_left, hsplit,
    List.drop_left, List.take_left]

theorem csrRows_rowPtrOf (rows : List (List ℕ)) : csrRows (rowPtrOf rows) rows.flatten = rows := by
  apply List.ext_getElem
  · simp [csrRows]
  · intro j _ h
    simp only [csrRows, List.getElem_map, List.getElem_range, slice_flatten h]

/-- A row of a valid CSR is as long as its entries of the row pointer are apart. -/
theorem ValidCsr.length_slice {rowPtr colIdx : List ℕ} (h : ValidCsr rowPtr colIdx) {j : ℕ}
    (hj : j + 1 < rowPtr.length) :
    (slice colIdx (vget rowPtr j) (vget rowPtr (j + 1))).length =
      vget rowPtr (j + 1) - vget rowPtr j := by
  have := h.vget_le hj
  simp only [slice, List.length_take, List.length_drop]
  omega

/-- The first rows of a valid CSR hold the edges below the next entry. -/
theorem ValidCsr.flatten_take_csrRows {rowPtr colIdx : List ℕ} (h : ValidCsr rowPtr colIdx) {m : ℕ}
    (hm : m < rowPtr.length) :
    ((csrRows rowPtr colIdx).take m).flatten = colIdx.take (vget rowPtr m) := by
  induction m with
  | zero => simp [h.vget_zero]
  | succ m ih =>
    have hlen : m < (csrRows rowPtr colIdx).length := by
      simp only [csrRows, List.length_map, List.length_range]
      omega
    have hmono := h.vget_mono (Nat.le_succ m) hm
    rw [List.take_succ_eq_append_getElem hlen, List.flatten_append, ih (by omega),
      List.flatten_singleton]
    simp only [csrRows, List.getElem_map, List.getElem_range, slice]
    rw [← List.take_add, Nat.add_sub_cancel' hmono]

/-- A valid CSR is the CSR of its rows. -/
theorem ValidCsr.flatten_csrRows {rowPtr colIdx : List ℕ} (h : ValidCsr rowPtr colIdx) :
    (csrRows rowPtr colIdx).flatten = colIdx := by
  have hpos := h.length_pos
  have hall := h.flatten_take_csrRows (m := rowPtr.length - 1) (by omega)
  rwa [h.vget_last, List.take_length, List.take_of_length_le (by simp [csrRows])] at hall

theorem ValidCsr.rowPtrOf_csrRows {rowPtr colIdx : List ℕ} (h : ValidCsr rowPtr colIdx) :
    rowPtrOf (csrRows rowPtr colIdx) = rowPtr := by
  have hpos := h.length_pos
  have hlen : (csrRows rowPtr colIdx).length = rowPtr.length - 1 := by simp [csrRows]
  apply List.ext_getElem
  · rw [length_rowPtrOf, hlen]
    omega
  · intro j _ hj
    have hle := h.vget_le hj
    simp only [rowPtrOf, List.getElem_map, List.getElem_range]
    rw [h.flatten_take_csrRows hj, List.length_take, min_eq_left hle, vget_eq_getElem hj]

/-- The rows with an edge. -/
def workRows (rows : List (List ℕ)) : ℕ := rows.countP fun row => !row.isEmpty

theorem zeroRows_rowPtrOf (rows : List (List ℕ)) :
    zeroRows (rowPtrOf rows) = rows.countP List.isEmpty := by
  have hrows : rows = (List.range rows.length).map fun j => rows.getD j [] := by
    apply List.ext_getElem
    · simp
    · intro j h _
      simp [h]
  have hcount : rows.countP List.isEmpty =
      (List.range rows.length).countP fun j => (rows.getD j []).isEmpty := by
    conv_lhs => rw [hrows]
    rw [List.countP_map]
    rfl
  rw [hcount, zeroRows, length_rowPtrOf, Nat.add_sub_cancel]
  apply List.countP_congr
  intro j hj
  have hlt := List.mem_range.mp hj
  rw [vget_rowPtrOf_succ hlt]
  simp [hlt]

/-- The rows that remain after the empty ones are subtracted. -/
theorem length_sub_zeroRows (rows : List (List ℕ)) :
    (rowPtrOf rows).length - 1 - zeroRows (rowPtrOf rows) = workRows rows := by
  have hsplit := List.length_eq_countP_add_countP List.isEmpty (l := rows)
  rw [zeroRows_rowPtrOf, length_rowPtrOf, workRows]
  simp only [Bool.not_eq_true] at hsplit
  have hneg : (rows.countP fun row => !row.isEmpty) =
      rows.countP fun row => decide (row.isEmpty = false) := by
    apply List.countP_congr
    intro row _
    simp
  omega

end Sgcn

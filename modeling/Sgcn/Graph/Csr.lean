-- SUMMARY: Row pointers as monotone functions, and the reference edge stream of a sub-graph.
import Sgcn.Base.Rounds
import Sgcn.Model.Common
import Mathlib.Data.List.Basic
import Mathlib.Tactic.Linarith

/-!
# CSR arrays

The row pointer of a valid CSR as a monotone function of the row number, and the
order in which the edges of a sub-graph are meant to be passed on: `refStream`.
-/

namespace Sgcn

namespace ValidCsr

variable {rowPtr colIdx : List ℕ}

theorem length_pos (h : ValidCsr rowPtr colIdx) : 0 < rowPtr.length := by
  have := h.head
  cases rowPtr with
  | nil => simp at this
  | cons a l => simp

@[simp] theorem vget_zero (h : ValidCsr rowPtr colIdx) : vget rowPtr 0 = 0 := by
  have := h.head
  cases rowPtr with
  | nil => simp at this
  | cons a l => simpa [vget] using this

theorem vget_mono (h : ValidCsr rowPtr colIdx) {i j : ℕ} (hij : i ≤ j)
    (hj : j < rowPtr.length) : vget rowPtr i ≤ vget rowPtr j := by
  rcases hij.lt_or_eq with hlt | rfl
  · rw [vget_eq_getElem (hlt.trans hj), vget_eq_getElem hj]
    exact List.pairwise_iff_getElem.mp h.sorted i j (hlt.trans hj) hj hlt
  · exact le_rfl

theorem vget_last (h : ValidCsr rowPtr colIdx) :
    vget rowPtr (rowPtr.length - 1) = colIdx.length := by
  have hlast := h.last
  rw [List.getLast?_eq_getElem?] at hlast
  simp [vget, hlast]

theorem vget_le (h : ValidCsr rowPtr colIdx) {j : ℕ} (hj : j < rowPtr.length) :
    vget rowPtr j ≤ colIdx.length := by
  rw [← h.vget_last]
  exact h.vget_mono (by omega) (by omega)

/-- A CSR with an edge has a row. -/
theorem two_le_length (h : ValidCsr rowPtr colIdx) (hedge : 0 < colIdx.length) :
    2 ≤ rowPtr.length := by
  by_contra hlt
  have hlen : rowPtr.length = 1 := by have := h.length_pos; omega
  have hlast := h.vget_last
  rw [hlen, Nat.sub_self, h.vget_zero] at hlast
  omega

/-- Every edge lies in a row. -/
theorem exists_row (h : ValidCsr rowPtr colIdx) {j : ℕ} (hj : j < colIdx.length) :
    ∃ r, r + 1 < rowPtr.length ∧ vget rowPtr r ≤ j ∧ j < vget rowPtr (r + 1) := by
  have key : ∀ m, m < rowPtr.length → j < vget rowPtr m →
      ∃ r, r + 1 < rowPtr.length ∧ vget rowPtr r ≤ j ∧ j < vget rowPtr (r + 1) := by
    intro m
    induction m with
    | zero => intro _ hlt; rw [h.vget_zero] at hlt; omega
    | succ m ih =>
      intro hm hlt
      rcases Nat.lt_or_ge j (vget rowPtr m) with hlt' | hge
      · exact ih (by omega) hlt'
      · exact ⟨m, hm, hge, hlt⟩
  have hpos := h.length_pos
  exact key (rowPtr.length - 1) (by omega) (by rw [h.vget_last]; exact hj)

end ValidCsr

/-! ## The reference stream -/

/-- Edge number `j` of a sub-graph in fold `fold`. It is the last edge of its row
exactly when `j + 1` is an entry of the row pointer. -/
def edgeOf (id : ℕ) (rowPtr colIdx : List ℕ) (fold j : ℕ) : EdgeInfo :=
  ⟨id, decide (j + 1 ∈ rowPtr), vget colIdx j, fold⟩

/-- The edges of one fold: row by row, each row's edges in order, the last one of
a row marked. -/
def refFold (id : ℕ) (rowPtr colIdx : List ℕ) (fold : ℕ) : List EdgeInfo :=
  (List.range (rowPtr.length - 1)).flatMap fun r =>
    (List.range' (vget rowPtr r) (vget rowPtr (r + 1) - vget rowPtr r)).map fun j =>
      ⟨id, decide (j + 1 = vget rowPtr (r + 1)), vget colIdx j, fold⟩

/-- All folds, one after the other. -/
def refStream (id : ℕ) (rowPtr colIdx : List ℕ) (bf : ℕ) : List EdgeInfo :=
  (List.range bf).flatMap (refFold id rowPtr colIdx)

/-- The `k`-th edge of the stream. -/
def edgeAt (id : ℕ) (rowPtr colIdx : List ℕ) (k : ℕ) : EdgeInfo :=
  edgeOf id rowPtr colIdx (k / colIdx.length) (k % colIdx.length)

section RefStream

variable {id : ℕ} {rowPtr colIdx : List ℕ}

/-- An edge of row `r` is followed by an entry of the row pointer exactly when it
is the last of the row. -/
theorem succ_mem_iff_row (h : ValidCsr rowPtr colIdx) {r j : ℕ} (hr : r + 1 < rowPtr.length)
    (hlo : vget rowPtr r ≤ j) (hhi : j < vget rowPtr (r + 1)) :
    j + 1 ∈ rowPtr ↔ j + 1 = vget rowPtr (r + 1) := by
  constructor
  · intro hmem
    obtain ⟨s, hs, hget⟩ := List.getElem_of_mem hmem
    have hval : vget rowPtr s = j + 1 := by rw [vget_eq_getElem hs, hget]
    have hrs : r + 1 ≤ s := by
      by_contra hlt
      have := h.vget_mono (show s ≤ r by omega) (by omega)
      omega
    have := h.vget_mono hrs hs
    omega
  · intro heq
    rw [heq, vget_eq_getElem hr]
    exact List.getElem_mem hr

theorem refFold_eq (h : ValidCsr rowPtr colIdx) (fold : ℕ) :
    refFold id rowPtr colIdx fold =
      (List.range colIdx.length).map (edgeOf id rowPtr colIdx fold) := by
  -- The rows of the first `m` entries are the edges below entry `m`.
  have key : ∀ m, m < rowPtr.length →
      ((List.range m).flatMap fun r =>
        (List.range' (vget rowPtr r) (vget rowPtr (r + 1) - vget rowPtr r)).map fun j =>
          (⟨id, decide (j + 1 = vget rowPtr (r + 1)), vget colIdx j, fold⟩ : EdgeInfo)) =
      (List.range (vget rowPtr m)).map (edgeOf id rowPtr colIdx fold) := by
    intro m
    induction m with
    | zero => intro _; simp [h.vget_zero]
    | succ m ih =>
      intro hm
      have hmono := h.vget_mono (Nat.le_succ m) hm
      rw [List.range_succ, List.flatMap_append, ih (by omega)]
      simp only [List.flatMap_cons, List.flatMap_nil, List.append_nil]
      have hrange : List.range (vget rowPtr (m + 1)) =
          List.range (vget rowPtr m) ++
            List.range' (vget rowPtr m) (vget rowPtr (m + 1) - vget rowPtr m) := by
        rw [List.range_eq_range', List.range_eq_range']
        have happ := List.range'_append_1 (s := 0) (m := vget rowPtr m)
          (n := vget rowPtr (m + 1) - vget rowPtr m)
        rw [Nat.zero_add] at happ
        rw [happ, Nat.add_sub_cancel' hmono]
      rw [hrange, List.map_append]
      congr 1
      apply List.map_congr_left
      intro j hj
      obtain ⟨hlo, hhi⟩ := List.mem_range'_1.mp hj
      simp only [edgeOf, succ_mem_iff_row h hm hlo (by omega)]
  have hpos := h.length_pos
  rw [refFold, key _ (by omega), h.vget_last]

theorem refStream_eq (h : ValidCsr rowPtr colIdx) (bf : ℕ) :
    refStream id rowPtr colIdx bf =
      (List.range (bf * colIdx.length)).map (edgeAt id rowPtr colIdx) := by
  unfold refStream
  simp only [funext (refFold_eq h), Rounds.flatMap_range]
  rfl

theorem length_refStream (h : ValidCsr rowPtr colIdx) (bf : ℕ) :
    (refStream id rowPtr colIdx bf).length = bf * colIdx.length := by
  simp [refStream_eq h]

theorem take_refStream (h : ValidCsr rowPtr colIdx) {bf k : ℕ} (hk : k ≤ bf * colIdx.length) :
    (refStream id rowPtr colIdx bf).take k = (List.range k).map (edgeAt id rowPtr colIdx) := by
  rw [refStream_eq h, ← List.map_take, List.take_range, min_eq_left hk]

end RefStream

end Sgcn

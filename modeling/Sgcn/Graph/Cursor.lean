-- SUMMARY: The cursors of a graph reader: what it passes on, whatever has arrived.
import Sgcn.Graph.Csr
import Sgcn.Model.GraphReader

/-!
# The cursors of a graph reader

The reader keeps two cursors. The row cursor has entered the rows up to some edge
position, the column cursor has passed on the edges up to another, and
`remain_edge` is the difference (`RowCursor`). The arrival windows do not matter
for what is passed on, only for when: `CursorInv` holds under any replies.
-/

namespace Sgcn

namespace GraphReader

variable {rowPtr colIdx : List ℕ} {r r' : GraphReader} {edges k w : ℕ}

/-! ## The row cursor -/

/-- The row cursor has gone round `w` times. The rows it has entered reach
`remainEdge` edges beyond the `k` edges passed on, and a row with edges left is
the row of edge `k`. -/
structure RowCursor (rowPtr : List ℕ) (edges k w : ℕ) (r : GraphReader) : Prop where
  one_le : 1 ≤ r.curRowIdx
  le_length : r.curRowIdx ≤ rowPtr.length
  remain_nonneg : 0 ≤ r.remainEdge
  pos : ((w * edges + vget rowPtr (r.curRowIdx - 1) : ℕ) : ℤ) = k + r.remainEdge
  row : 0 < r.remainEdge → 2 ≤ r.curRowIdx ∧ w * edges + vget rowPtr (r.curRowIdx - 2) ≤ k

/-- Entering the next row of the same round. -/
theorem RowCursor.enter (hv : ValidCsr rowPtr colIdx) (h : RowCursor rowPtr edges k w r)
    (hrem : r.remainEdge = 0) (hlt : r.curRowIdx < rowPtr.length) (overflow : ℤ) :
    RowCursor rowPtr edges k w
      { r with
        curRowIdx := r.curRowIdx + 1
        rowOverflow := overflow
        remainEdge := (vget rowPtr r.curRowIdx : ℤ) - vget rowPtr (r.curRowIdx - 1) } := by
  have hmono := hv.vget_mono (Nat.sub_le r.curRowIdx 1) hlt
  have hpos := h.pos
  have hone := h.one_le
  refine ⟨by simp, hlt, by simp only; omega, ?_, ?_⟩
  · simp only [Nat.add_sub_cancel]
    push_cast at hpos ⊢
    omega
  · intro _
    refine ⟨by simp only; omega, ?_⟩
    simp only [show r.curRowIdx + 1 - 2 = r.curRowIdx - 1 by omega]
    omega

/-- Entering the first row of the next round. -/
theorem RowCursor.wrap (hv : ValidCsr rowPtr colIdx)
    (h : RowCursor rowPtr colIdx.length k w r) (hrem : r.remainEdge = 0)
    (hcur : r.curRowIdx = rowPtr.length) (hlt : 1 < rowPtr.length) (overflow : ℤ) :
    RowCursor rowPtr colIdx.length k (w + 1)
      { r with
        curRowIdx := 1 + 1
        rowOverflow := overflow
        remainEdge := (vget rowPtr 1 : ℤ) - vget rowPtr (1 - 1) } := by
  have hpos := h.pos
  rw [hcur, hv.vget_last, hrem] at hpos
  refine ⟨by simp, hlt, by simp [hv.vget_zero], ?_, ?_⟩
  · simp only [Nat.sub_self, hv.vget_zero, Nat.add_sub_cancel]
    push_cast at hpos ⊢
    linarith
  · intro _
    refine ⟨by simp, ?_⟩
    simp only [Nat.reduceAdd, Nat.sub_self, hv.vget_zero]
    push_cast at hpos
    have : (w + 1) * colIdx.length = k := by
      zify
      linarith
    omega

theorem RowCursor.congr (h : RowCursor rowPtr edges k w r)
    (hcur : r'.curRowIdx = r.curRowIdx) (hrem : r'.remainEdge = r.remainEdge) :
    RowCursor rowPtr edges k w r' := by
  constructor <;> simp only [hcur, hrem]
  exacts [h.1, h.2, h.3, h.4, h.5]

/-- Passing on an edge of the current row. -/
theorem RowCursor.pass (h : RowCursor rowPtr edges k w r) (hpos : 0 < r.remainEdge)
    (hcur : r'.curRowIdx = r.curRowIdx) (hrem : r'.remainEdge = r.remainEdge - 1) :
    RowCursor rowPtr edges (k + 1) w r' := by
  have hk := h.pos
  obtain ⟨htwo, hrow⟩ := h.row hpos
  refine ⟨by rw [hcur]; exact h.one_le, by rw [hcur]; exact h.le_length, by omega, ?_, ?_⟩
  · rw [hcur, hrem]
    push_cast at hk ⊢
    omega
  · intro _
    rw [hcur]
    exact ⟨htwo, hrow.trans (Nat.le_succ k)⟩

/-- Partial correctness of the loop over the rows. -/
theorem skipRows_inv {I : GraphReader → Prop}
    (hstep : ∀ t t' more, t.remainEdge = 0 → I t → skipStep rowPtr t = some (t', more) → I t')
    (h₀ : I r) (h : skipRows rowPtr r = some r') : I r' := by
  induction r using skipRows.induct rowPtr with
  | case1 r hrem =>
    rw [skipRows, if_pos hrem] at h
    cases h
    exact h₀
  | case2 r hrem hnone =>
    rw [skipRows, if_neg hrem] at h
    split at h <;> simp_all
  | case3 r hrem t hbreak =>
    rw [skipRows, if_neg hrem] at h
    have ht := hstep _ _ _ (not_ne_iff.mp hrem) h₀ hbreak
    split at h <;> simp_all
  | case4 r hrem t hmore ih =>
    rw [skipRows, if_neg hrem] at h
    have ht := hstep _ _ _ (not_ne_iff.mp hrem) h₀ hmore
    split at h
    · simp_all
    · simp_all
    · next t' heq =>
      obtain rfl : t = t' := by simpa [hmore] using heq
      exact ih ht h

/-- Total correctness of the loop over the rows: `I` holds at its head, `Q` when
it is left. -/
theorem skipRows_total {I Q : GraphReader → Prop}
    (hstep : ∀ t, t.remainEdge = 0 → I t → ∃ t' more, skipStep rowPtr t = some (t', more) ∧
      if more = true ∧ t'.remainEdge = 0 then I t' else Q t')
    (hrem : r.remainEdge = 0) (h₀ : I r) : ∃ r', skipRows rowPtr r = some r' ∧ Q r' := by
  induction r using skipRows.induct rowPtr with
  | case1 r hne => exact absurd hrem hne
  | case2 r _ hnone =>
    obtain ⟨t', more, ht, -⟩ := hstep r hrem h₀
    rw [hnone] at ht
    cases ht
  | case3 r hn t hbreak =>
    obtain ⟨t', more, ht, hQ⟩ := hstep r hrem h₀
    rw [hbreak] at ht
    cases ht
    refine ⟨t, ?_, by simpa using hQ⟩
    rw [skipRows, if_neg hn]
    split <;> simp_all
  | case4 r hn t hmore ih =>
    obtain ⟨t', more, ht, hI⟩ := hstep r hrem h₀
    rw [hmore] at ht
    cases ht
    have hunfold : skipRows rowPtr r = skipRows rowPtr t := by
      rw [skipRows, if_neg hn]
      split
      · simp_all
      · simp_all
      · next t' heq =>
        obtain rfl : t = t' := by simpa [hmore] using heq
        rfl
    rw [hunfold]
    by_cases hrem' : t.remainEdge = 0
    · exact ih hrem' (by simpa [hrem'] using hI)
    · refine ⟨t, by rw [skipRows, if_pos hrem'], by simpa [hrem'] using hI⟩

/-- The loop over the rows touches nothing but the row cursor. -/
theorem skipRows_frame (h : skipRows rowPtr r = some r') :
    r' = { r with
      curRowIdx := r'.curRowIdx, rowOverflow := r'.rowOverflow, remainEdge := r'.remainEdge } := by
  refine skipRows_inv (I := fun t => t = { r with
    curRowIdx := t.curRowIdx, rowOverflow := t.rowOverflow, remainEdge := t.remainEdge })
    ?_ rfl h
  intro t t' more _ hframe ht
  rcases skipStep_cases ht with ⟨-, -, rfl, -⟩ | ⟨-, -, -, rfl, -⟩ | ⟨-, rfl, -⟩
  · exact hframe
  · rw [hframe]
  · rw [hframe]

theorem enterRows_frame (h : enterRows rowPtr r = some r') :
    r' = { r with
      curRowIdx := r'.curRowIdx, rowOverflow := r'.rowOverflow, remainEdge := r'.remainEdge } := by
  unfold enterRows at h
  split at h
  · exact skipRows_frame h
  · cases h
    rfl

/-- The loop over the rows keeps the row cursor. -/
theorem skipRows_cursor (hv : ValidCsr rowPtr colIdx)
    (hc : RowCursor rowPtr colIdx.length k w r) (h : skipRows rowPtr r = some r') :
    ∃ w', RowCursor rowPtr colIdx.length k w' r' := by
  refine skipRows_inv (I := fun t => ∃ w', RowCursor rowPtr colIdx.length k w' t) ?_ ⟨w, hc⟩ h
  rintro t t' more hrem ⟨w', hc'⟩ ht
  rcases skipStep_cases ht with ⟨-, -, rfl, -⟩ | ⟨hcur, -, hlt, rfl, -⟩ | ⟨hlt, rfl, -⟩
  · exact ⟨w', hc'⟩
  · exact ⟨w' + 1, hc'.wrap hv hrem hcur hlt _⟩
  · exact ⟨w', hc'.enter hv hrem hlt _⟩

theorem enterRows_cursor (hv : ValidCsr rowPtr colIdx)
    (hc : RowCursor rowPtr colIdx.length k w r) (h : enterRows rowPtr r = some r') :
    ∃ w', RowCursor rowPtr colIdx.length k w' r' := by
  unfold enterRows at h
  split at h
  · exact skipRows_cursor hv hc h
  · cases h
    exact ⟨w, hc⟩

/-! ## Both cursors -/

/-- `k` edges have been passed on. -/
structure CursorInv (g : Globals) (id k : ℕ) (r : GraphReader) : Prop where
  row : ∃ w, RowCursor (g.rowPtr id) (g.colIdx id).length k w r
  colEnd_le : r.colEndIdx ≤ (g.colIdx id).length
  pos : r.gPassCount * (g.colIdx id).length + r.curColIdx = k
  curCol_le : r.curColIdx ≤ (g.colIdx id).length
  pass_lt : r.gPassCount < g.archInfo.bf

section Cursor

variable {g : Globals} {id : ℕ}

theorem CursorInv.init (hv : ValidCsr (g.rowPtr id) (g.colIdx id)) (hbf : 0 < g.archInfo.bf) :
    CursorInv g id 0 (.init g id) where
  row := ⟨0, le_rfl, hv.length_pos, le_rfl, by simp [GraphReader.init, hv.vget_zero],
    by simp [GraphReader.init]⟩
  colEnd_le := by simp [GraphReader.init]
  pos := by simp [GraphReader.init]
  curCol_le := by simp [GraphReader.init]
  pass_lt := hbf

theorem CursorInv.le (h : CursorInv g id k r) : k ≤ g.archInfo.bf * (g.colIdx id).length := by
  have hmul := Nat.mul_le_mul_right (g.colIdx id).length (Nat.succ_le_of_lt h.pass_lt)
  rw [Nat.succ_mul] at hmul
  have := h.pos
  have := h.curCol_le
  omega

/-- The end test of `NextFeature` recognises the end of the stream. -/
theorem CursorInv.end_iff (h : CursorInv g id k r) (hedge : 0 < (g.colIdx id).length) :
    (r.curColIdx = (g.colIdx id).length ∧ r.gPassCount + 1 = g.archInfo.bf) ↔
      k = g.archInfo.bf * (g.colIdx id).length := by
  have hpos := h.pos
  have hlt := h.pass_lt
  have hle := h.curCol_le
  constructor
  · rintro ⟨hcol, hbf⟩
    rw [← hpos, ← hbf, hcol, Nat.succ_mul]
  · intro hk
    have hmul : g.archInfo.bf * (g.colIdx id).length ≤
        (r.gPassCount + 1) * (g.colIdx id).length := by
      rw [Nat.succ_mul]
      omega
    have hbf : r.gPassCount + 1 = g.archInfo.bf :=
      le_antisymm hlt (Nat.le_of_mul_le_mul_right hmul hedge)
    rw [← hbf, Nat.succ_mul] at hk
    exact ⟨by omega, hbf⟩

/-- A row with edges left lies in the fold of edge `k`. -/
theorem RowCursor.fold_eq (hv : ValidCsr rowPtr colIdx)
    (h : RowCursor rowPtr colIdx.length k w r) (hrem : 0 < r.remainEdge) :
    0 < colIdx.length ∧ w = k / colIdx.length ∧
      vget rowPtr (r.curRowIdx - 2) ≤ k % colIdx.length ∧
      (vget rowPtr (r.curRowIdx - 1) : ℤ) = (k % colIdx.length : ℕ) + r.remainEdge := by
  have hpos := h.pos
  have hone := h.one_le
  have hle := hv.vget_le (show r.curRowIdx - 1 < rowPtr.length by have := h.le_length; omega)
  have hrow := (h.row hrem).2
  have hkw : w * colIdx.length ≤ k ∧ k < w * colIdx.length + colIdx.length := by
    push_cast at hpos
    omega
  have hE : 0 < colIdx.length := by omega
  have hdiv : k / colIdx.length = w :=
    Nat.div_eq_of_lt_le hkw.1 (by rw [Nat.succ_mul]; exact hkw.2)
  have hdm := Nat.div_add_mod k colIdx.length
  rw [hdiv, mul_comm] at hdm
  push_cast at hpos
  exact ⟨hE, hdiv.symm, by omega, by omega⟩

/-- Where the column cursor stands once it may read on: at edge `k`. -/
theorem CursorInv.wrapCols (h : CursorInv g id k r) (hE : 0 < (g.colIdx id).length)
    (hend : ¬ (r.curColIdx = (g.colIdx id).length ∧ r.gPassCount + 1 = g.archInfo.bf))
    (hcol : r.curColIdx < r.colEndIdx ∨ 0 < r.colOverflow) :
    (r.wrapCols (g.colIdx id).length).curColIdx = k % (g.colIdx id).length ∧
      (r.wrapCols (g.colIdx id).length).gPassCount = k / (g.colIdx id).length ∧
      (r.wrapCols (g.colIdx id).length).gPassCount < g.archInfo.bf := by
  have hpos := h.pos
  have hlt := h.pass_lt
  have hcolEnd := h.colEnd_le
  unfold GraphReader.wrapCols
  rcases h.curCol_le.lt_or_eq with hc | hc
  · rw [if_neg (by omega), ← hpos, mul_comm, Nat.mul_add_div hE, Nat.mul_add_mod,
      Nat.div_eq_of_lt hc, Nat.mod_eq_of_lt hc]
    exact ⟨rfl, rfl, hlt⟩
  · rw [if_pos ⟨hc, by omega⟩, ← hpos, hc, ← Nat.succ_mul, Nat.mul_div_cancel _ hE,
      Nat.mul_mod_left]
    exact ⟨rfl, rfl, by simp only; omega⟩

/-- The edge at the cursors is edge `k`, provided the row part has found a row
with edges left and the column part may read on. -/
theorem passEdge_eq (hv : ValidCsr (g.rowPtr id) (g.colIdx id)) (h : CursorInv g id k r)
    (hend : ¬ (r.curColIdx = (g.colIdx id).length ∧ r.gPassCount + 1 = g.archInfo.bf))
    (hready : r.ready = true) :
    ∃ r', r.passEdge g id = some (r', some (edgeAt id (g.rowPtr id) (g.colIdx id) k)) ∧
      CursorInv g id (k + 1) r' ∧
      r' = { r.wrapCols (g.colIdx id).length with
        curColIdx := (r.wrapCols (g.colIdx id).length).curColIdx + 1
        curValIdx := (r.wrapCols (g.colIdx id).length).curValIdx + 1
        remainEdge := (r.wrapCols (g.colIdx id).length).remainEdge - 1 } := by
  obtain ⟨hrem, hcol, -⟩ := of_decide_eq_true hready
  obtain ⟨w, hrow⟩ := h.row
  obtain ⟨hE, rfl, hlo, hhi⟩ := hrow.fold_eq hv hrem
  obtain ⟨hcur, hfold, hlt⟩ := h.wrapCols hE hend hcol
  have hmod := Nat.mod_lt k hE
  have hframe : (r.wrapCols (g.colIdx id).length).remainEdge = r.remainEdge ∧
      (r.wrapCols (g.colIdx id).length).curRowIdx = r.curRowIdx ∧
      (r.wrapCols (g.colIdx id).length).colEndIdx = r.colEndIdx := by
    unfold GraphReader.wrapCols
    split <;> exact ⟨rfl, rfl, rfl⟩
  have htwo := (hrow.row hrem).1
  have hlen := hrow.le_length
  have hlast : k % (g.colIdx id).length + 1 ∈ g.rowPtr id ↔ r.remainEdge - 1 = 0 := by
    have hrowlt : r.curRowIdx - 2 + 1 < (g.rowPtr id).length := by omega
    have hsucc : r.curRowIdx - 2 + 1 = r.curRowIdx - 1 := by omega
    rw [succ_mem_iff_row hv hrowlt hlo (by rw [hsucc]; omega), hsucc]
    omega
  refine ⟨_, ?_, ?_, rfl⟩
  · rw [passEdge, if_neg (by omega), hcur, getElem?_eq_vget hmod, Option.map_some]
    simp only [hframe.1, hfold, edgeAt, edgeOf, hlast]
  · refine ⟨⟨k / (g.colIdx id).length, hrow.pass hrem hframe.2.1 ?_⟩, ?_, ?_, ?_, ?_⟩
    · simp only [hframe.1]
    · simpa only [hframe.2.2] using h.colEnd_le
    · simp only [hcur, hfold, ← Nat.add_assoc, Nat.div_add_mod']
    · simp only [hcur]
      omega
    · exact hlt

/-- `NextFeature` passes on edge `k` or nothing, whatever has arrived. -/
theorem nextFeature_cursor (hv : ValidCsr (g.rowPtr id) (g.colIdx id))
    (h : CursorInv g id k r) {out : Option EdgeInfo} (hnext : r.nextFeature g id = some (r', out)) :
    (out = none ∧ CursorInv g id k r') ∨
      (out = some (edgeAt id (g.rowPtr id) (g.colIdx id) k) ∧ CursorInv g id (k + 1) r') := by
  unfold nextFeature at hnext
  split at hnext
  · cases hnext
    exact .inl ⟨rfl, ⟨h.row.imp fun _ hc => ⟨hc.1, hc.2, hc.3, hc.4, hc.5⟩, h.2, h.3, h.4, h.5⟩⟩
  · next hend =>
    obtain ⟨t, ht, hpass⟩ := Option.bind_eq_some_iff.mp hnext
    obtain ⟨w, hrow⟩ := h.row
    have hrow' := enterRows_cursor hv hrow ht
    have hframe := enterRows_frame ht
    have h' : CursorInv g id k t := by
      refine ⟨hrow', ?_, ?_, ?_, ?_⟩ <;> rw [hframe]
      exacts [h.colEnd_le, h.pos, h.curCol_le, h.pass_lt]
    have hend' : ¬ (t.curColIdx = (g.colIdx id).length ∧ t.gPassCount + 1 = g.archInfo.bf) := by
      rw [hframe]
      exact hend
    split at hpass
    · next hready =>
      obtain ⟨u, hu, hinv, -⟩ := passEdge_eq hv h' hend' hready
      rw [hu] at hpass
      cases hpass
      exact .inr ⟨rfl, hinv⟩
    · cases hpass
      exact .inl ⟨rfl, h'⟩

theorem advance_le (size endIdx : ℕ) (overflow : ℤ) : (advance size endIdx overflow).1 ≤ size := by
  simp only [advance]
  by_cases hfull : size ≤ (if endIdx = size then 0 else endIdx) + cacheLineCount
  · rw [if_pos hfull]
  · rw [if_neg hfull]
    exact (not_le.mp hfull).le

theorem le_advance (size endIdx : ℕ) (overflow : ℤ) :
    overflow ≤ (advance size endIdx overflow).2.1 := by
  simp only [advance]
  by_cases hfull : endIdx = size
  · simp only [hfull, if_true]
    split <;> exact Int.le_add_one le_rfl
  · simp only [hfull, if_false]
    split <;> exact le_rfl

theorem graphReceive_eq (g : Globals) (id : ℕ) (r : GraphReader) (reci : RType) :
    ∃ isOver, r.graphReceive g id reci = { r.receive g id reci with reciOver := isOver } := by
  rw [GraphReader.graphReceive]
  split
  · exact ⟨true, rfl⟩
  · exact ⟨_, rfl⟩

/-- A reply moves no cursor. -/
theorem receive_frame (g : Globals) (id : ℕ) (r : GraphReader) (reci : RType) :
    (r.receive g id reci).curRowIdx = r.curRowIdx ∧
      (r.receive g id reci).remainEdge = r.remainEdge ∧
      (r.receive g id reci).curColIdx = r.curColIdx ∧
      (r.receive g id reci).curValIdx = r.curValIdx ∧
      (r.receive g id reci).gPassCount = r.gPassCount ∧
      (r.receive g id reci).passOver = r.passOver := by
  cases reci <;> exact ⟨rfl, rfl, rfl, rfl, rfl, rfl⟩

theorem CursorInv.graphReceive (h : CursorInv g id k r) (reci : RType) :
    CursorInv g id k (r.graphReceive g id reci) := by
  obtain ⟨isOver, heq⟩ := graphReceive_eq g id r reci
  obtain ⟨hrow, hrem, hcol, -, hpass, -⟩ := receive_frame g id r reci
  rw [heq]
  refine ⟨?_, ?_, by simp only [hpass, hcol, h.pos], by simp only [hcol, h.curCol_le],
    by simp only [hpass, h.pass_lt]⟩
  · obtain ⟨w, hc⟩ := h.row
    exact ⟨w, hc.congr hrow hrem⟩
  · cases reci with
    | column => exact advance_le _ _ _
    | row => exact h.colEnd_le
    | value => exact h.colEnd_le
    | empty => exact h.colEnd_le

end Cursor

end GraphReader

end Sgcn

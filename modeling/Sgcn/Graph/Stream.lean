-- SUMMARY: The graph reader passes on a prefix of the reference stream, an edge exactly when its data has arrived.
import Sgcn.Base.Machine
import Sgcn.Base.Window
import Sgcn.Graph.Cursor
import Sgcn.Model.Preprocessor

/-!
# The edge stream of a graph reader

The three windows of a reader follow the number of lines that have arrived
(`StreamInv`), and the row cursor never runs ahead of them (`RowWindow`). So a
`NextFeature` call passes on the next edge of the reference stream exactly when
its row entry, its column and its value are there.
-/

namespace Sgcn

namespace GraphReader

variable {rowPtr colIdx : List ℕ} {r r' : GraphReader} {edges k w : ℕ}

/-! ## The arrival windows -/

/-- One block moves a window as the arrival count says. -/
theorem advance_eq {n R w : ℕ} (hn : 0 < n) :
    (advance n (Window.endAt 16 n R) (Window.rounds 16 n R - w)).1 = Window.endAt 16 n (R + 1) ∧
      (advance n (Window.endAt 16 n R) (Window.rounds 16 n R - w)).2.1 =
        Window.rounds 16 n (R + 1) - w := by
  unfold advance
  by_cases hfull : Window.endAt 16 n R = n
  · obtain ⟨hend, hrounds⟩ := Window.next_of_full (by decide) hn hfull
    simp only [hfull, if_true, hend, hrounds, cacheLineCount]
    split <;> refine ⟨by simp only; omega, by push_cast; ring⟩
  · obtain ⟨hend, hrounds⟩ := Window.next_of_not_full (by decide) hn hfull
    simp only [hfull, if_false, hend, hrounds, cacheLineCount]
    split <;> exact ⟨by simp only; omega, rfl⟩

/-- The row cursor has not run ahead of the `R` row blocks that have arrived. -/
structure RowWindow (rowPtr : List ℕ) (edges R k w : ℕ) (r : GraphReader) : Prop where
  cursor : RowCursor rowPtr edges k w r
  end_eq : r.rowEndIdx = Window.endAt 16 rowPtr.length R
  overflow_eq : r.rowOverflow = Window.rounds 16 rowPtr.length R - w
  le_rounds : w ≤ Window.rounds 16 rowPtr.length R
  seen : w = Window.rounds 16 rowPtr.length R → r.curRowIdx ≤ max 1 r.rowEndIdx

section Windows

variable {R : ℕ}

theorem skipStep_isSome (h : r.curRowIdx < rowPtr.length ∨
    r.curRowIdx = rowPtr.length ∧ 0 < r.rowOverflow ∧ 1 < rowPtr.length) :
    ∃ t more, skipStep rowPtr r = some (t, more) := by
  unfold skipStep
  rcases h with hlt | ⟨hcur, hpos, hlen⟩
  · rw [if_neg (by omega)]
    simp only [if_neg (show ¬ (r.curRowIdx = rowPtr.length ∧ 0 < r.rowOverflow) by omega),
      getElem?_eq_vget hlt]
    exact ⟨_, _, rfl⟩
  · rw [if_neg (by omega)]
    simp only [if_pos (show r.curRowIdx = rowPtr.length ∧ 0 < r.rowOverflow from ⟨hcur, hpos⟩),
      getElem?_eq_vget hlen]
    exact ⟨_, _, rfl⟩

/-- The loop over the rows terminates, stays inside the row pointer, and stops
without a row only when every row that has arrived is used up. -/
theorem skipRows_window (hv : ValidCsr rowPtr colIdx) (hedge : 0 < colIdx.length)
    (hw : RowWindow rowPtr colIdx.length R k w r)
    (hopen : r.curRowIdx < r.rowEndIdx ∨ 0 < r.rowOverflow) :
    ∃ r' w', skipRows rowPtr r = some r' ∧ RowWindow rowPtr colIdx.length R k w' r' ∧
      (r'.remainEdge = 0 →
        w' = Window.rounds 16 rowPtr.length R ∧ r'.rowEndIdx ≤ r'.curRowIdx) := by
  have hlen := hv.two_le_length hedge
  have hendle := Window.endAt_le (b := 16) (n := rowPtr.length) R
  by_cases hrem : r.remainEdge = 0
  swap
  · exact ⟨r, w, by rw [skipRows, if_pos hrem], hw, fun h => absurd h hrem⟩
  suffices key : ∃ r', skipRows rowPtr r = some r' ∧
      ∃ w', RowWindow rowPtr colIdx.length R k w' r' ∧ (r'.remainEdge = 0 →
        w' = Window.rounds 16 rowPtr.length R ∧ r'.rowEndIdx ≤ r'.curRowIdx) by
    obtain ⟨r', hskip, w', hw', hexit⟩ := key
    exact ⟨r', w', hskip, hw', hexit⟩
  refine skipRows_total (I := fun t => ∃ w', RowWindow rowPtr colIdx.length R k w' t ∧
    (w' = Window.rounds 16 rowPtr.length R → t.curRowIdx < t.rowEndIdx)) ?_ hrem ?_
  · rintro t hrem ⟨w', ht, hhead⟩
    have hov := ht.overflow_eq
    have hend := ht.end_eq
    have hle := ht.le_rounds
    have hcur := ht.cursor.le_length
    obtain ⟨t', more, hstep⟩ := show ∃ t' more, skipStep rowPtr t = some (t', more) from
      skipStep_isSome (by omega)
    refine ⟨t', more, hstep, ?_⟩
    rcases skipStep_cases hstep with ⟨hc, hz, -, -⟩ | ⟨hc, hpos, hlt, rfl, hmore⟩ | ⟨hlt, rfl, hmore⟩
    · omega
    · -- the next round: its first block has arrived, so that entry 1 is there
      have hfirst := Window.min_le_endAt (b := 16) (n := rowPtr.length)
        (Window.pos_of_rounds_pos (by omega : 0 < Window.rounds 16 rowPtr.length R))
      have hw' : RowWindow rowPtr colIdx.length R k (w' + 1)
          { t with
            curRowIdx := 2
            rowOverflow := t.rowOverflow - 1
            remainEdge := (vget rowPtr 1 : ℤ) - vget rowPtr 0 } :=
        ⟨ht.cursor.wrap hv hrem hc hlt _, hend, by simp only; omega, by omega,
          fun _ => by simp only; omega⟩
      split
      · next hgo =>
        refine ⟨w' + 1, hw', fun heq => ?_⟩
        have := mt hmore.mpr (by simp [hgo.1])
        simp only
        omega
      · next hstop =>
        refine ⟨w' + 1, hw', fun hz => ?_⟩
        have hfalse : more = false := by
          cases more with
          | false => rfl
          | true => exact absurd ⟨rfl, hz⟩ hstop
        have := hmore.mp hfalse
        simp only
        omega
    · have hw' : RowWindow rowPtr colIdx.length R k w'
          { t with
            curRowIdx := t.curRowIdx + 1
            remainEdge := (vget rowPtr t.curRowIdx : ℤ) - vget rowPtr (t.curRowIdx - 1) } :=
        ⟨ht.cursor.enter hv hrem hlt _, hend, hov, hle, fun heq => by
          have := hhead heq
          simp only
          omega⟩
      split
      · next hgo =>
        refine ⟨w', hw', fun heq => ?_⟩
        have := mt hmore.mpr (by simp [hgo.1])
        have := hhead heq
        simp only
        omega
      · next hstop =>
        refine ⟨w', hw', fun hz => ?_⟩
        have hfalse : more = false := by
          cases more with
          | false => rfl
          | true => exact absurd ⟨rfl, hz⟩ hstop
        have := hmore.mp hfalse
        simp only
        omega
  · refine ⟨w, hw, fun heq => ?_⟩
    have := hw.overflow_eq
    omega

theorem enterRows_window (hv : ValidCsr rowPtr colIdx) (hedge : 0 < colIdx.length)
    (hw : RowWindow rowPtr colIdx.length R k w r) :
    ∃ r' w', enterRows rowPtr r = some r' ∧ RowWindow rowPtr colIdx.length R k w' r' ∧
      (r'.remainEdge = 0 →
        w' = Window.rounds 16 rowPtr.length R ∧ r'.rowEndIdx ≤ r'.curRowIdx) := by
  unfold enterRows
  split
  · next hopen => exact skipRows_window hv hedge hw hopen
  · next hopen =>
    refine ⟨r, w, rfl, hw, fun _ => ?_⟩
    have := hw.overflow_eq
    have := hw.le_rounds
    omega

/-- After the row part, a row with edges left has been found exactly when the
entry that closes the row of edge `k` has arrived. -/
theorem RowWindow.remain_pos_iff (hv : ValidCsr rowPtr colIdx) (hedge : 0 < colIdx.length)
    (hw : RowWindow rowPtr colIdx.length R k w r)
    (hexit : r.remainEdge = 0 →
      w = Window.rounds 16 rowPtr.length R ∧ r.rowEndIdx ≤ r.curRowIdx)
    {row : ℕ} (hrow : row + 1 < rowPtr.length) (hlo : vget rowPtr row ≤ k % colIdx.length)
    (hhi : k % colIdx.length < vget rowPtr (row + 1)) :
    0 < r.remainEdge ↔
      Window.Received 16 rowPtr.length R (k / colIdx.length) (row + 1) := by
  rw [Window.received_iff (by decide) hrow, ← hw.end_eq]
  have hnonneg := hw.cursor.remain_nonneg
  have hone := hw.cursor.one_le
  have hlen := hw.cursor.le_length
  constructor
  · intro hrem
    obtain ⟨-, hfold, hlo', hhi'⟩ := hw.cursor.fold_eq hv hrem
    have htwo := (hw.cursor.row hrem).1
    -- the cursor stands behind the entry that closes the row of edge `k`
    have hle : row + 1 ≤ r.curRowIdx - 1 := by
      by_contra hgt
      have := hv.vget_mono (show r.curRowIdx - 1 ≤ row by omega) (by omega)
      omega
    rcases hw.le_rounds.lt_or_eq with hlt | heq
    · exact .inl (hfold ▸ hlt)
    · have := hw.seen heq
      exact .inr ⟨hfold ▸ heq, by omega⟩
  · intro hrec
    by_contra hzero
    have hz : r.remainEdge = 0 := by omega
    obtain ⟨hrounds, hend⟩ := hexit hz
    have hpos := hw.cursor.pos
    rw [hz, add_zero] at hpos
    have hpos' : w * colIdx.length + vget rowPtr (r.curRowIdx - 1) = k := by exact_mod_cast hpos
    have hfold : w ≤ k / colIdx.length :=
      (Nat.le_div_iff_mul_le hedge).mpr (by omega)
    have heq : k / colIdx.length = w ∧ row + 1 < r.rowEndIdx := by omega
    have hdm := Nat.div_add_mod k colIdx.length
    rw [heq.1, mul_comm] at hdm
    have := hv.vget_mono (show row + 1 ≤ r.curRowIdx - 1 by omega) (by omega)
    omega

end Windows

/-! ## What has arrived decides what is passed on -/

section Stream

variable {g : Globals} {id R C V : ℕ}

/-- The entry that closes the row of edge `k` is among the first `R` row lines. -/
def RowArrived (g : Globals) (id R k : ℕ) : Prop :=
  ∃ row, row + 1 < (g.rowPtr id).length ∧
    vget (g.rowPtr id) row ≤ k % (g.colIdx id).length ∧
    k % (g.colIdx id).length < vget (g.rowPtr id) (row + 1) ∧
    Window.Received 16 (g.rowPtr id).length R (k / (g.colIdx id).length) (row + 1)

/-- The column, or value, of edge `k` is among the first `C` such lines. -/
def EdgeArrived (g : Globals) (id C k : ℕ) : Prop :=
  Window.Received 16 (g.colIdx id).length C (k / (g.colIdx id).length) (k % (g.colIdx id).length)

/-- The entry that closes the row of edge `k`, its column and, when the edges carry
values, its value have arrived with the first `R` row, `C` column and `V` value
lines. -/
def Arrived (g : Globals) (id R C V k : ℕ) : Prop :=
  RowArrived g id R k ∧ EdgeArrived g id C k ∧
    (g.archInfo.gnnMode = .gcn → EdgeArrived g id V k)

/-- The value window: it follows the arrivals, or is open for all folds. -/
def ValWindow (g : Globals) (id V : ℕ) (r : GraphReader) : Prop :=
  let edges := (g.colIdx id).length
  match g.archInfo.gnnMode with
  | .gcn => r.valEndIdx = Window.endAt 16 edges V ∧
      r.valOverflow = Window.rounds 16 edges V - r.gPassCount ∧
      r.gPassCount ≤ Window.rounds 16 edges V
  | .other => (g.archInfo.bf : ℤ) - r.gPassCount ≤ r.valOverflow

/-- `k` edges have been passed on, and `R` row, `C` column and `V` value lines have
arrived. -/
structure StreamInv (g : Globals) (id R C V k : ℕ) (r : GraphReader) : Prop where
  cursor : CursorInv g id k r
  rows : ∃ w, RowWindow (g.rowPtr id) (g.colIdx id).length R k w r
  colEnd_eq : r.colEndIdx = Window.endAt 16 (g.colIdx id).length C
  colOverflow_eq : r.colOverflow = Window.rounds 16 (g.colIdx id).length C - r.gPassCount
  pass_le : r.gPassCount ≤ Window.rounds 16 (g.colIdx id).length C
  val_eq : r.curValIdx = r.curColIdx
  vals : ValWindow g id V r

theorem StreamInv.init (hv : ValidCsr (g.rowPtr id) (g.colIdx id)) (hbf : 0 < g.archInfo.bf) :
    StreamInv g id 0 0 0 0 (.init g id) where
  cursor := .init hv hbf
  rows := by
    refine ⟨0, ⟨le_rfl, hv.length_pos, le_rfl, ?_, ?_⟩, ?_, ?_, Nat.zero_le _, ?_⟩ <;>
      simp [GraphReader.init, hv.vget_zero]
  colEnd_eq := rfl
  colOverflow_eq := by simp [GraphReader.init]
  pass_le := by simp [GraphReader.init]
  val_eq := rfl
  vals := by
    unfold ValWindow
    cases hmode : g.archInfo.gnnMode <;> simp [GraphReader.init, hmode]

/-- A row line: the window moves, the cursor stays. -/
theorem RowWindow.receive (hpos : 0 < rowPtr.length) (h : RowWindow rowPtr edges R k w r)
    (hcur : r'.curRowIdx = r.curRowIdx) (hrem : r'.remainEdge = r.remainEdge)
    (hend : r'.rowEndIdx = (advance rowPtr.length r.rowEndIdx r.rowOverflow).1)
    (hov : r'.rowOverflow = (advance rowPtr.length r.rowEndIdx r.rowOverflow).2.1) :
    RowWindow rowPtr edges (R + 1) k w r' := by
  rw [h.end_eq, h.overflow_eq] at hend hov
  obtain ⟨hend', hov'⟩ := advance_eq (R := R) (w := w) hpos
  rw [hend'] at hend
  rw [hov'] at hov
  have hle := h.le_rounds
  have hgrow : Window.rounds 16 rowPtr.length R < Window.rounds 16 rowPtr.length (R + 1) ∨
      Window.rounds 16 rowPtr.length (R + 1) = Window.rounds 16 rowPtr.length R ∧
        r.rowEndIdx ≤ r'.rowEndIdx := by
    rw [hend, h.end_eq]
    have hendle := Window.endAt_le (b := 16) (n := rowPtr.length) R
    by_cases hfull : Window.endAt 16 rowPtr.length R = rowPtr.length
    · have := (Window.next_of_full (by decide) hpos hfull).2
      omega
    · have := Window.next_of_not_full (by decide) hpos hfull
      omega
  refine ⟨h.cursor.congr hcur hrem, hend, hov, by omega, fun heq => ?_⟩
  have := h.seen (by omega)
  omega

theorem RowWindow.congr (h : RowWindow rowPtr edges R k w r)
    (hcur : r'.curRowIdx = r.curRowIdx) (hrem : r'.remainEdge = r.remainEdge)
    (hend : r'.rowEndIdx = r.rowEndIdx) (hov : r'.rowOverflow = r.rowOverflow) :
    RowWindow rowPtr edges R k w r' :=
  ⟨h.cursor.congr hcur hrem, hend.trans h.end_eq, hov.trans h.overflow_eq, h.le_rounds,
    fun heq => by rw [hcur, hend]; exact h.seen heq⟩

/-- How many lines of kind `kind` have arrived after one of kind `reci`. -/
def bump (reci kind : RType) (n : ℕ) : ℕ := if reci = kind then n + 1 else n

theorem StreamInv.graphReceive (hv : ValidCsr (g.rowPtr id) (g.colIdx id))
    (hedge : 0 < (g.colIdx id).length) (h : StreamInv g id R C V k r) (reci : RType) :
    StreamInv g id (bump reci .row R) (bump reci .column C) (bump reci .value V) k
      (r.graphReceive g id reci) := by
  have hcursor := h.cursor.graphReceive reci
  obtain ⟨w, hrows⟩ := h.rows
  obtain ⟨isOver, heq⟩ := graphReceive_eq g id r reci
  rw [heq] at hcursor ⊢
  cases reci with
  | row =>
    exact ⟨hcursor, ⟨w, hrows.receive hv.length_pos rfl rfl rfl rfl⟩, h.3, h.4, h.5, h.6, h.7⟩
  | column =>
    obtain ⟨hend, hov⟩ := advance_eq (R := C) (w := r.gPassCount) hedge
    refine ⟨hcursor, ⟨w, hrows.congr rfl rfl rfl rfl⟩, ?_, ?_, ?_, h.6, h.7⟩
    · simp only [receive, h.colEnd_eq, h.colOverflow_eq, hend, bump, if_true]
    · simp only [receive, h.colEnd_eq, h.colOverflow_eq, hov, bump, if_true]
    · exact h.pass_le.trans (Window.rounds_le_succ _)
  | value =>
    refine ⟨hcursor, ⟨w, hrows.congr rfl rfl rfl rfl⟩, h.3, h.4, h.5, h.6, ?_⟩
    have hvals := h.vals
    unfold ValWindow at hvals ⊢
    cases hmode : g.archInfo.gnnMode with
    | gcn =>
      simp only [hmode] at hvals
      obtain ⟨hend, hov⟩ := advance_eq (R := V) (w := r.gPassCount) hedge
      simp only [receive, hvals.1, hvals.2.1, hend, hov, bump, if_true, true_and]
      exact hvals.2.2.trans (Window.rounds_le_succ _)
    | other =>
      simp only [hmode] at hvals
      exact hvals.trans (le_advance _ _ _)
  | empty => exact ⟨hcursor, ⟨w, hrows.congr rfl rfl rfl rfl⟩, h.3, h.4, h.5, h.6, h.7⟩

/-- Without edges to read, the column cursor decides whether edge `k` is there. -/
theorem CursorInv.edgeArrived_iff (h : CursorInv g id k r) (hedge : 0 < (g.colIdx id).length)
    {endIdx : ℕ} {overflow : ℤ} (hend : endIdx = Window.endAt 16 (g.colIdx id).length C)
    (hov : overflow = Window.rounds 16 (g.colIdx id).length C - r.gPassCount)
    (hle : r.gPassCount ≤ Window.rounds 16 (g.colIdx id).length C) :
    (r.curColIdx < endIdx ∨ 0 < overflow) ↔ EdgeArrived g id C k := by
  have hcol := Window.available_iff (b := 16) (by decide) hedge h.curCol_le hle
  rw [h.pos] at hcol
  unfold EdgeArrived
  rw [← hcol, hend, hov]
  exact or_congr_right (by omega)

/-- After the row part, the reader is ready exactly when edge `k` has arrived. -/
theorem StreamInv.ready_iff (hedge : 0 < (g.colIdx id).length) (h : StreamInv g id R C V k r)
    (hrow : 0 < r.remainEdge ↔ RowArrived g id R k) :
    r.ready = true ↔ Arrived g id R C V k := by
  unfold ready Arrived
  rw [decide_eq_true_iff, hrow, h.val_eq,
    h.cursor.edgeArrived_iff hedge h.colEnd_eq h.colOverflow_eq h.pass_le]
  refine and_congr_right fun _ => and_congr_right fun _ => ?_
  have hvals := h.vals
  unfold ValWindow at hvals
  cases hmode : g.archInfo.gnnMode with
  | gcn =>
    simp only [hmode] at hvals
    simp only [h.cursor.edgeArrived_iff hedge hvals.1 hvals.2.1 hvals.2.2, true_imp_iff]
  | other =>
    simp only [hmode] at hvals
    have := h.cursor.pass_lt
    simp only [reduceCtorEq, false_imp_iff, iff_true]
    exact .inr (by omega)

/-- The row part: it ends at a row with edges exactly when the row of edge `k` has
arrived, and touches nothing but the row cursor. -/
theorem StreamInv.enterRows (hv : ValidCsr (g.rowPtr id) (g.colIdx id))
    (hedge : 0 < (g.colIdx id).length) (h : StreamInv g id R C V k r) :
    ∃ t, enterRows (g.rowPtr id) r = some t ∧ StreamInv g id R C V k t ∧
      (0 < t.remainEdge ↔ RowArrived g id R k) ∧ t.curColIdx = r.curColIdx ∧
      t.gPassCount = r.gPassCount ∧ t.passOver = r.passOver := by
  obtain ⟨w, hrows⟩ := h.rows
  obtain ⟨t, w', ht, hrows', hexit⟩ := enterRows_window hv hedge hrows
  have hframe := enterRows_frame ht
  obtain ⟨row, hrow, hlo, hhi⟩ := hv.exists_row (Nat.mod_lt k hedge)
  refine ⟨t, ht, ?_, ?_, by rw [hframe], by rw [hframe], by rw [hframe]⟩
  · refine ⟨⟨⟨w', hrows'.cursor⟩, ?_, ?_, ?_, ?_⟩, ⟨w', hrows'⟩, ?_, ?_, ?_, ?_, ?_⟩ <;>
      rw [hframe]
    exacts [h.cursor.colEnd_le, h.cursor.pos, h.cursor.curCol_le, h.cursor.pass_lt,
      h.colEnd_eq, h.colOverflow_eq, h.pass_le, h.val_eq, h.vals]
  · constructor
    · intro hrem
      exact ⟨row, hrow, hlo, hhi,
        (hrows'.remain_pos_iff hv hedge hexit hrow hlo hhi).mp hrem⟩
    · rintro ⟨row', hrow', hlo', hhi', hrec⟩
      exact (hrows'.remain_pos_iff hv hedge hexit hrow' hlo' hhi').mpr hrec

/-- The column part keeps the windows. -/
theorem StreamInv.passEdge (hv : ValidCsr (g.rowPtr id) (g.colIdx id))
    (h : StreamInv g id R C V k r)
    (hend : ¬ (r.curColIdx = (g.colIdx id).length ∧ r.gPassCount + 1 = g.archInfo.bf))
    (hready : r.ready = true) :
    ∃ r', r.passEdge g id = some (r', some (edgeAt id (g.rowPtr id) (g.colIdx id) k)) ∧
      StreamInv g id R C V (k + 1) r' ∧ r'.passOver = r.passOver := by
  obtain ⟨r', hpass, hcursor, hr'⟩ := passEdge_eq hv h.cursor hend hready
  obtain ⟨hrem, hcol, hval⟩ := of_decide_eq_true hready
  obtain ⟨w, hrows⟩ := h.rows
  refine ⟨r', hpass, ?_, ?_⟩
  · have hov := h.colOverflow_eq
    have hle := h.cursor.colEnd_le
    have hvals := h.vals
    have hveq := h.val_eq
    unfold ValWindow at hvals
    by_cases hwrap : r.curColIdx = (g.colIdx id).length ∧ 0 < r.colOverflow
    · rw [GraphReader.wrapCols, if_pos hwrap] at hr'
      subst hr'
      refine ⟨hcursor, ⟨w, hrows.cursor.pass hrem rfl rfl, hrows.2, hrows.3, hrows.4, hrows.5⟩,
        h.colEnd_eq, by push_cast; omega, by simp only; omega, rfl, ?_⟩
      unfold ValWindow
      cases hmode : g.archInfo.gnnMode with
      | gcn =>
        simp only [hmode] at hvals
        have hendle := Window.endAt_le (b := 16) (n := (g.colIdx id).length) V
        refine ⟨hvals.1, ?_, ?_⟩ <;> simp only <;> omega
      | other =>
        simp only [hmode] at hvals
        simp only
        omega
    · rw [GraphReader.wrapCols, if_neg hwrap] at hr'
      subst hr'
      exact ⟨hcursor, ⟨w, hrows.cursor.pass hrem rfl rfl, hrows.2, hrows.3, hrows.4, hrows.5⟩,
        h.colEnd_eq, h.colOverflow_eq, h.pass_le, by simp only [hveq], h.vals⟩
  · rw [hr', GraphReader.wrapCols]
    split <;> rfl

/-- `NextFeature` is total. At the end of the stream it raises the flag; before
the end it passes on edge `k` exactly when this has arrived. -/
theorem StreamInv.nextFeature (hv : ValidCsr (g.rowPtr id) (g.colIdx id))
    (hedge : 0 < (g.colIdx id).length) (h : StreamInv g id R C V k r) :
    ∃ r' out, r.nextFeature g id = some (r', out) ∧
      ((k = g.archInfo.bf * (g.colIdx id).length ∧ out = none ∧
          StreamInv g id R C V k r' ∧ r'.passOver = true) ∨
        (k < g.archInfo.bf * (g.colIdx id).length ∧ ¬ Arrived g id R C V k ∧ out = none ∧
          StreamInv g id R C V k r' ∧ r'.passOver = r.passOver) ∨
        (k < g.archInfo.bf * (g.colIdx id).length ∧ Arrived g id R C V k ∧
          out = some (edgeAt id (g.rowPtr id) (g.colIdx id) k) ∧
          StreamInv g id R C V (k + 1) r' ∧ r'.passOver = r.passOver)) := by
  have hend_iff := h.cursor.end_iff hedge
  unfold GraphReader.nextFeature
  by_cases hend : r.curColIdx = (g.colIdx id).length ∧ r.gPassCount + 1 = g.archInfo.bf
  · rw [if_pos hend]
    refine ⟨_, _, rfl, .inl ⟨hend_iff.mp hend, rfl, ?_, rfl⟩⟩
    obtain ⟨w, hrows⟩ := h.rows
    exact ⟨⟨⟨w, hrows.cursor.congr rfl rfl⟩, h.1.2, h.1.3, h.1.4, h.1.5⟩,
      ⟨w, hrows.congr rfl rfl rfl rfl⟩, h.3, h.4, h.5, h.6, h.7⟩
  · have hlt : k < g.archInfo.bf * (g.colIdx id).length :=
      lt_of_le_of_ne h.cursor.le (mt hend_iff.mpr hend)
    obtain ⟨t, ht, hinv, hrow, hcol, hpass, hover⟩ := h.enterRows hv hedge
    rw [if_neg hend, ht, Option.bind_some]
    have hready := hinv.ready_iff hedge hrow
    by_cases harr : Arrived g id R C V k
    · rw [if_pos (hready.mpr harr)]
      obtain ⟨r', hr', hinv', hover'⟩ :=
        hinv.passEdge hv (by rw [hcol, hpass]; exact hend) (hready.mpr harr)
      exact ⟨r', _, hr', .inr (.inr ⟨hlt, harr, rfl, hinv', hover'.trans hover⟩)⟩
    · rw [if_neg (mt hready.mp harr)]
      exact ⟨t, none, rfl, .inr (.inl ⟨hlt, harr, rfl, hinv, hover⟩)⟩

/-! ## Runs of the reader -/

/-- The calls that move the edge stream. -/
inductive StreamCall where
  | nextFeature
  | graphReceive (reci : RType)
  deriving DecidableEq

/-- A call as a step with the edge that it returned, if any. -/
def streamCall (g : Globals) (id : ℕ) : Machine.Call GraphReader StreamCall EdgeInfo
  | r, .nextFeature => (r.nextFeature g id).map fun p => (p.1, p.2.toList)
  | r, .graphReceive reci => some (r.graphReceive g id reci, [])

/-- The reader has made `calls` and returned `out`. -/
def StreamRun (g : Globals) (id : ℕ) (calls : List StreamCall) (r : GraphReader)
    (out : List EdgeInfo) : Prop :=
  Machine.run (streamCall g id) (.init g id) calls = some (r, out)

/-- How many lines of kind `kind` have arrived. -/
def arrivals (calls : List StreamCall) (kind : RType) : ℕ :=
  calls.count (.graphReceive kind)

/-- The last call was made when the whole stream had been returned before. -/
def Exhausted (g : Globals) (id : ℕ) (calls : List StreamCall) : Prop :=
  ∃ pre post s, calls = pre ++ .nextFeature :: post ∧
    StreamRun g id pre s (refStream id (g.rowPtr id) (g.colIdx id) g.archInfo.bf)

/-- What holds after the calls `calls`, which returned `out`. -/
structure RunInv (g : Globals) (id : ℕ) (calls : List StreamCall) (out : List EdgeInfo)
    (r : GraphReader) : Prop where
  run : StreamRun g id calls r out
  inv : StreamInv g id (arrivals calls .row) (arrivals calls .column) (arrivals calls .value)
    out.length r
  out_eq : out = (List.range out.length).map (edgeAt id (g.rowPtr id) (g.colIdx id))
  isOver : r.passOver = true ↔ Exhausted g id calls

theorem arrivals_append_graphReceive (calls : List StreamCall) (reci kind : RType) :
    arrivals (calls ++ [.graphReceive reci]) kind = bump reci kind (arrivals calls kind) := by
  simp only [arrivals, bump, List.count_append, List.count_singleton]
  by_cases h : reci = kind <;> simp [h]

theorem arrivals_append_nextFeature (calls : List StreamCall) (kind : RType) :
    arrivals (calls ++ [.nextFeature]) kind = arrivals calls kind := by
  simp [arrivals, List.count_append]

/-- The flag was due before, or is due with a `NextFeature` call made now. -/
theorem exhausted_append {calls : List StreamCall} {c : StreamCall} {out : List EdgeInfo}
    (hrun : StreamRun g id calls r out) :
    Exhausted g id (calls ++ [c]) ↔ Exhausted g id calls ∨ c = .nextFeature ∧
      out = refStream id (g.rowPtr id) (g.colIdx id) g.archInfo.bf := by
  constructor
  · rintro ⟨pre, post, s, hcalls, hpre⟩
    rcases List.eq_nil_or_concat post with rfl | ⟨post, last, rfl⟩
    · obtain ⟨rfl, hlast⟩ := List.append_inj' hcalls rfl
      rw [StreamRun, hpre] at hrun
      simp at hlast hrun
      exact .inr ⟨hlast, hrun.2.symm⟩
    · refine .inl ⟨pre, post, s, ?_, hpre⟩
      rw [List.concat_eq_append, ← List.cons_append, ← List.append_assoc] at hcalls
      exact (List.append_inj' hcalls rfl).1
  · rintro (⟨pre, post, s, rfl, hpre⟩ | ⟨rfl, rfl⟩)
    · exact ⟨pre, post ++ [c], s, by simp, hpre⟩
    · exact ⟨calls, [], r, rfl, hrun⟩

theorem RunInv.init (hv : ValidCsr (g.rowPtr id) (g.colIdx id)) (hbf : 0 < g.archInfo.bf) :
    RunInv g id [] [] (.init g id) where
  run := rfl
  inv := .init hv hbf
  out_eq := rfl
  isOver := by
    simp only [GraphReader.init, Exhausted]
    simp

theorem StreamRun.append {calls : List StreamCall} {call : StreamCall} {out o : List EdgeInfo}
    (h : StreamRun g id calls r out) (hcall : streamCall g id r call = some (r', o)) :
    StreamRun g id (calls ++ [call]) r' (out ++ o) :=
  Machine.run_append_eq_some.mpr ⟨r, out, o, h,
    Machine.run_cons_eq_some.mpr ⟨r', o, [], hcall, rfl, (List.append_nil o).symm⟩, rfl⟩

/-- The whole stream has been returned exactly when all its edges have been
counted. -/
theorem RunInv.out_eq_refStream_iff (hv : ValidCsr (g.rowPtr id) (g.colIdx id))
    {calls : List StreamCall} {out : List EdgeInfo} (h : RunInv g id calls out r) :
    out = refStream id (g.rowPtr id) (g.colIdx id) g.archInfo.bf ↔
      out.length = g.archInfo.bf * (g.colIdx id).length := by
  constructor
  · intro heq
    rw [heq, length_refStream hv]
  · intro hlen
    rw [h.out_eq, hlen, refStream_eq hv]

theorem RunInv.step (hv : ValidCsr (g.rowPtr id) (g.colIdx id))
    (hedge : 0 < (g.colIdx id).length) {calls : List StreamCall} {out : List EdgeInfo}
    (h : RunInv g id calls out r) (call : StreamCall) :
    ∃ r' o, streamCall g id r call = some (r', o) ∧ RunInv g id (calls ++ [call]) (out ++ o) r' := by
  have hex := exhausted_append (c := call) h.run
  rw [h.out_eq_refStream_iff hv, ← h.isOver] at hex
  cases call with
  | graphReceive reci =>
    refine ⟨_, [], rfl, h.run.append rfl, ?_, by simpa using h.out_eq, ?_⟩
    · simp only [arrivals_append_graphReceive, List.append_nil]
      exact h.inv.graphReceive hv hedge reci
    · obtain ⟨isOver, heq⟩ := graphReceive_eq g id r reci
      rw [hex, heq]
      simp [(receive_frame g id r reci).2.2.2.2.2]
  | nextFeature =>
    obtain ⟨r', ret, hnext, hcases⟩ := h.inv.nextFeature hv hedge
    have hcall : streamCall g id r .nextFeature = some (r', ret.toList) := by
      simp only [streamCall, hnext, Option.map_some]
    refine ⟨r', ret.toList, hcall, h.run.append hcall, ?_, ?_, ?_⟩
    · simp only [arrivals_append_nextFeature]
      rcases hcases with ⟨-, rfl, hinv, -⟩ | ⟨-, -, rfl, hinv, -⟩ | ⟨-, -, rfl, hinv, -⟩
      · simpa using hinv
      · simpa using hinv
      · simpa using hinv
    · rcases hcases with ⟨-, rfl, -⟩ | ⟨-, -, rfl, -⟩ | ⟨-, -, rfl, -⟩
      · simpa using h.out_eq
      · simpa using h.out_eq
      · simp only [Option.toList_some, List.length_append, List.length_singleton,
          List.range_succ, List.map_append, List.map_singleton, ← h.out_eq]
    · rw [hex]
      rcases hcases with ⟨hk, -, -, hover⟩ | ⟨hk, -, -, -, hover⟩ | ⟨hk, -, -, -, hover⟩
      · simp [hover, hk]
      · simp [hover, hk.ne]
      · simp [hover, hk.ne]

/-- Whatever the order of the calls, the reader is defined, has returned a prefix
of the reference stream, returns the next edge exactly when its data has arrived,
and has raised its flag exactly when it was called after the end of the stream. -/
theorem stream_refines_refStream (g : Globals) (id : ℕ)
    (hv : ValidCsr (g.rowPtr id) (g.colIdx id)) (hedge : 0 < (g.colIdx id).length)
    (hbf : 1 ≤ g.archInfo.bf) (calls : List StreamCall) :
    ∃ r out, StreamRun g id calls r out ∧
      out <+: refStream id (g.rowPtr id) (g.colIdx id) g.archInfo.bf ∧
      (∃ r' ret, r.nextFeature g id = some (r', ret) ∧ ∀ e, ret = some e ↔
        (refStream id (g.rowPtr id) (g.colIdx id) g.archInfo.bf)[out.length]? = some e ∧
          Arrived g id (arrivals calls .row) (arrivals calls .column) (arrivals calls .value)
            out.length) ∧
      (r.passOver = true ↔ Exhausted g id calls) := by
  obtain ⟨r, out, -, h⟩ : ∃ r out,
      Machine.run (streamCall g id) (.init g id) calls = some (r, out) ∧ RunInv g id calls out r :=
    Machine.run_total (I := RunInv g id) (P := fun _ => True)
      (fun _ _ _ call hinv _ => hinv.step hv hedge call) (.init hv hbf) (fun _ _ => trivial)
  have hlen := h.inv.cursor.le
  refine ⟨r, out, h.run, ?_, ?_, h.isOver⟩
  · rw [h.out_eq, ← take_refStream hv hlen]
    exact List.take_prefix _ _
  · obtain ⟨r', ret, hnext, hcases⟩ := h.inv.nextFeature hv hedge
    refine ⟨r', ret, hnext, fun e => ?_⟩
    rw [refStream_eq hv, List.getElem?_map]
    rcases hcases with ⟨hk, rfl, -⟩ | ⟨hk, harr, rfl, -⟩ | ⟨hk, harr, rfl, -⟩
    · simp [hk]
    · simp [harr]
    · simp [harr, hk]

theorem stream_refines_refStream_threeVertices :
    ∃ r out, StreamRun (readData .threeVertices) 0
        [.nextFeature, .graphReceive .row, .graphReceive .value, .nextFeature,
          .graphReceive .column, .nextFeature] r out ∧
      out <+: [⟨0, false, 1, 0⟩, ⟨0, true, 2, 0⟩, ⟨0, true, 0, 0⟩,
        ⟨0, false, 1, 1⟩, ⟨0, true, 2, 1⟩, ⟨0, true, 0, 1⟩] := by
  obtain ⟨r, out, hrun, hpre, -, -⟩ := stream_refines_refStream (readData .threeVertices) 0
    Graph.threeVertices.valid (by decide) (by decide) [.nextFeature, .graphReceive .row, .graphReceive .value, .nextFeature,
      .graphReceive .column, .nextFeature]
  exact ⟨r, out, hrun, hpre⟩

end Stream

end GraphReader

end Sgcn

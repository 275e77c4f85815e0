-- SUMMARY: When a graph reader stays inside its arrays: for every sub-graph with a row, and for none without one unless there is a single fold.
import Sgcn.Graph.Stream
import Sgcn.Partition.Lac

/-!
# Index safety of a graph reader

`NextFeature` reads `row_ptr` in its loop over the rows and `col_idx` when it passes
an edge on, and checks neither index. The cursors stay inside the arrays whatever
arrives (`CursorsInside`), as long as the row pointer has a second entry: this is
what the row cursor goes back to when a new round of row lines is there.
-/

namespace Sgcn

namespace GraphReader

variable {rowPtr : List ℕ} {g : Globals} {id : ℕ} {r r' : GraphReader}

/-! ## The accesses of a call -/

/-- `NextFeature` leaves at once: the last fold has been passed on. -/
def Ended (g : Globals) (id : ℕ) (r : GraphReader) : Prop :=
  r.curColIdx = (g.colIdx id).length ∧ r.gPassCount + 1 = g.archInfo.bf

/-- The loop over the rows goes from `r` on to `r'`. -/
def LoopStep (rowPtr : List ℕ) (r r' : GraphReader) : Prop :=
  r.remainEdge = 0 ∧ skipStep rowPtr r = some (r', true)

/-- The body of the loop over the rows is run in state `t` of a call made in state `r`. -/
def InLoop (rowPtr : List ℕ) (r t : GraphReader) : Prop :=
  (r.curRowIdx < r.rowEndIdx ∨ 0 < r.rowOverflow) ∧ t.remainEdge = 0 ∧
    Machine.Reachable (LoopStep rowPtr) r t

/-- The positions of `row_ptr` that the body reads. -/
def rowReads (rowPtr : List ℕ) (r : GraphReader) : List ℤ :=
  if r.curRowIdx = rowPtr.length ∧ r.rowOverflow = 0 then []
  else
    let cur := if r.curRowIdx = rowPtr.length ∧ 0 < r.rowOverflow then 1 else r.curRowIdx
    [(cur : ℤ), (cur : ℤ) - 1]

/-- The positions of `col_idx` that the call reads once the rows are entered. -/
def colReads (g : Globals) (id : ℕ) (r : GraphReader) : List ℕ :=
  let u := r.wrapCols (g.colIdx id).length
  if r.ready = true ∧ ¬ (r.curColIdx = (g.colIdx id).length ∧ u.gPassCount = g.archInfo.bf) then
    [u.curColIdx]
  else []

/-- A call of `NextFeature` in state `r` returns after finitely many passes through the loop,
reads inside the arrays only, and finds no negative counter. -/
structure NextSafe (g : Globals) (id : ℕ) (r : GraphReader) : Prop where
  finite : Acc (fun b a => LoopStep (g.rowPtr id) a b) r
  returns : ∃ r' ret, r.nextFeature g id = some (r', ret)
  rows : ¬ r.Ended g id → ∀ t, InLoop (g.rowPtr id) r t →
    ∀ i ∈ t.rowReads (g.rowPtr id), 0 ≤ i ∧ i < (g.rowPtr id).length
  cols : ¬ r.Ended g id → ∀ t, enterRows (g.rowPtr id) r = some t →
    ∀ i ∈ t.colReads g id, i < (g.colIdx id).length
  counters : 0 ≤ r.rowOverflow ∧ 0 ≤ r.colOverflow ∧ 0 ≤ r.valOverflow ∧ 0 ≤ r.remainEdge

/-- No more lines arrive than the reader asks for. -/
structure WithinRequests (g : Globals) (id : ℕ) (calls : List StreamCall) : Prop where
  row : arrivals calls .row ≤ g.archInfo.bf * Window.blocks 16 (g.rowPtr id).length
  column : arrivals calls .column ≤ g.archInfo.bf * Window.blocks 16 (g.colIdx id).length
  value : arrivals calls .value ≤ g.archInfo.bf * Window.blocks 16 (g.colIdx id).length

/-- In every interleaving of calls the next `NextFeature` is safe. -/
def IndexSafe (g : Globals) (id : ℕ) : Prop :=
  ∀ calls, WithinRequests g id calls → ∃ r out, StreamRun g id calls r out ∧ NextSafe g id r

/-! ## The rows -/

/-- The loop over the rows ends from any state. -/
theorem loopStep_acc (rowPtr : List ℕ) (r : GraphReader) :
    Acc (fun b a => LoopStep rowPtr a b) r := by
  induction r using skipRows.induct rowPtr with
  | case1 r hrem => exact ⟨r, fun t ht => absurd ht.1 hrem⟩
  | case2 r _ hnone => exact ⟨r, fun t ht => by simp [LoopStep, hnone] at ht⟩
  | case3 r _ u hbreak => exact ⟨r, fun t ht => by simp [LoopStep, hbreak] at ht⟩
  | case4 r _ u hmore ih =>
    refine ⟨r, fun t ht => ?_⟩
    obtain rfl : u = t := by simpa [hmore] using ht.2
    exact ih

/-- The row cursor is inside the row pointer, and a row with edges left is a row of a
sub-graph with edges. -/
structure RowsInside (rowPtr : List ℕ) (edges : ℕ) (r : GraphReader) : Prop where
  one_le : 1 ≤ r.curRowIdx
  le_length : r.curRowIdx ≤ rowPtr.length
  overflow_nonneg : 0 ≤ r.rowOverflow
  remain_nonneg : 0 ≤ r.remainEdge
  edges_pos : 0 < r.remainEdge → 0 < edges

variable {colIdx : List ℕ}

theorem RowsInside.skipStep (hv : ValidCsr rowPtr colIdx) (h : RowsInside rowPtr colIdx.length r)
    {more : Bool} (hstep : skipStep rowPtr r = some (r', more)) :
    RowsInside rowPtr colIdx.length r' := by
  obtain ⟨-, -, rfl, -⟩ | ⟨-, hpos, hlen, rfl, -⟩ | ⟨hlt, rfl, -⟩ := skipStep_cases hstep
  · exact h
  · have hlast := hv.vget_le hlen
    have hzero := hv.vget_zero
    exact ⟨by simp, hlen, by simp only; omega, by simp only; omega, by simp only; omega⟩
  · have hlast := hv.vget_le hlt
    have hmono := hv.vget_mono (Nat.sub_le r.curRowIdx 1) hlt
    exact ⟨by simp, hlt, h.overflow_nonneg, by simp only; omega, by simp only; omega⟩

/-- The body is defined where the row pointer has a second entry. -/
theorem RowsInside.skipStep_isSome (hlen : 2 ≤ rowPtr.length)
    (h : RowsInside rowPtr colIdx.length r) :
    ∃ t more, GraphReader.skipStep rowPtr r = some (t, more) := by
  have hle := h.le_length
  have hnonneg := h.overflow_nonneg
  by_cases hend : r.curRowIdx = rowPtr.length ∧ r.rowOverflow = 0
  · exact ⟨r, false, by rw [GraphReader.skipStep, if_pos hend]⟩
  · exact GraphReader.skipStep_isSome (by omega)

theorem RowsInside.enterRows (hv : ValidCsr rowPtr colIdx) (hlen : 2 ≤ rowPtr.length)
    (h : RowsInside rowPtr colIdx.length r) :
    ∃ t, enterRows rowPtr r = some t ∧ RowsInside rowPtr colIdx.length t := by
  unfold GraphReader.enterRows
  split
  · by_cases hrem : r.remainEdge = 0
    · refine skipRows_total (fun t _ ht => ?_) hrem h
      obtain ⟨t', more, hstep⟩ := ht.skipStep_isSome hlen
      refine ⟨t', more, hstep, ?_⟩
      rw [ite_self]
      exact ht.skipStep hv hstep
    · exact ⟨r, by rw [skipRows, if_pos hrem], h⟩
  · exact ⟨r, rfl, h⟩

/-- Every pass through the loop reads inside the row pointer. -/
theorem RowsInside.rowReads (hv : ValidCsr rowPtr colIdx) (hlen : 2 ≤ rowPtr.length)
    (h : RowsInside rowPtr colIdx.length r) {t : GraphReader} (ht : InLoop rowPtr r t) :
    ∀ i ∈ t.rowReads rowPtr, 0 ≤ i ∧ i < rowPtr.length := by
  have hinside : RowsInside rowPtr colIdx.length t :=
    ht.2.2.inv h fun a b _ ha hstep => ha.skipStep hv hstep.2
  have hone := hinside.one_le
  have hle := hinside.le_length
  have hnonneg := hinside.overflow_nonneg
  intro i hi
  unfold GraphReader.rowReads at hi
  split at hi
  · cases hi
  · next hgo =>
    simp only at hi
    split at hi
    · simp only [List.mem_cons, List.not_mem_nil, or_false] at hi
      omega
    · simp only [List.mem_cons, List.not_mem_nil, or_false] at hi
      omega

/-! ## Both cursors -/

/-- The cursors and the windows are inside the arrays, and no counter is negative. -/
structure CursorsInside (g : Globals) (id : ℕ) (r : GraphReader) : Prop where
  rows : RowsInside (g.rowPtr id) (g.colIdx id).length r
  col_le : r.curColIdx ≤ (g.colIdx id).length
  val_eq : r.curValIdx = r.curColIdx
  colEnd_le : r.colEndIdx ≤ (g.colIdx id).length
  valEnd_le : r.valEndIdx ≤ (g.colIdx id).length
  col_nonneg : 0 ≤ r.colOverflow
  val_nonneg : 0 ≤ r.valOverflow

namespace CursorsInside

theorem init (hv : ValidCsr (g.rowPtr id) (g.colIdx id)) : CursorsInside g id (.init g id) where
  rows := ⟨le_rfl, hv.length_pos, le_rfl, le_rfl, fun h => absurd h (lt_irrefl _)⟩
  col_le := Nat.zero_le _
  val_eq := rfl
  colEnd_le := Nat.zero_le _
  valEnd_le := by
    simp only [GraphReader.init]
    split
    · exact le_rfl
    · exact Nat.zero_le _
  col_nonneg := le_rfl
  val_nonneg := by
    simp only [GraphReader.init]
    split
    · exact Int.natCast_nonneg _
    · exact le_rfl

/-- A line moves a window inside its array, and adds to its counter only. -/
theorem graphReceive (h : CursorsInside g id r) (reci : RType) :
    CursorsInside g id (r.graphReceive g id reci) := by
  obtain ⟨isOver, heq⟩ := graphReceive_eq g id r reci
  rw [heq]
  obtain ⟨hone, hle, hov, hrem, hpos⟩ := h.rows
  cases reci with
  | row => exact ⟨⟨hone, hle, hov.trans (le_advance _ _ _), hrem, hpos⟩, h.2, h.3, h.4, h.5, h.6, h.7⟩
  | column =>
    exact ⟨⟨hone, hle, hov, hrem, hpos⟩, h.2, h.3, advance_le _ _ _, h.5,
      h.6.trans (le_advance _ _ _), h.7⟩
  | value =>
    exact ⟨⟨hone, hle, hov, hrem, hpos⟩, h.2, h.3, h.4, advance_le _ _ _, h.6,
      h.7.trans (le_advance _ _ _)⟩
  | empty => exact ⟨⟨hone, hle, hov, hrem, hpos⟩, h.2, h.3, h.4, h.5, h.6, h.7⟩

/-- A reader that is ready has a column to read once the cursor has gone back. -/
theorem wrapCols (h : CursorsInside g id r) (hready : r.ready = true) :
    CursorsInside g id (r.wrapCols (g.colIdx id).length) ∧
      (r.wrapCols (g.colIdx id).length).curColIdx < (g.colIdx id).length ∧
      (r.wrapCols (g.colIdx id).length).remainEdge = r.remainEdge := by
  obtain ⟨hrem, hcol, hval⟩ := of_decide_eq_true hready
  have hedges := h.rows.edges_pos hrem
  have hle := h.col_le
  have hcolEnd := h.colEnd_le
  have hvalEnd := h.valEnd_le
  have heq := h.val_eq
  unfold GraphReader.wrapCols
  split
  · next hwrap =>
    refine ⟨⟨⟨h.rows.1, h.rows.2, h.rows.3, h.rows.4, h.rows.5⟩, Nat.zero_le _, rfl, hcolEnd,
      hvalEnd, ?_, ?_⟩, hedges, rfl⟩
    · simp only
      omega
    · simp only
      omega
  · exact ⟨h, by omega, rfl⟩

theorem passEdge (h : CursorsInside g id r) (hready : r.ready = true) :
    ∃ r' ret, r.passEdge g id = some (r', ret) ∧ CursorsInside g id r' := by
  obtain ⟨hinside, hlt, hrem⟩ := h.wrapCols hready
  have hpos := (of_decide_eq_true hready).1
  unfold GraphReader.passEdge
  dsimp only
  split
  · exact ⟨_, _, rfl, ⟨hinside.rows.1, hinside.rows.2, hinside.rows.3, hinside.rows.4,
      hinside.rows.5⟩, hinside.2, hinside.3, hinside.4, hinside.5, hinside.6, hinside.7⟩
  · rw [List.getElem?_eq_getElem hlt, Option.map_some]
    refine ⟨_, _, rfl, ⟨hinside.rows.1, hinside.rows.2, hinside.rows.3, ?_, ?_⟩, hlt, ?_,
      hinside.4, hinside.5, hinside.6, hinside.7⟩
    · simp only [hrem]
      omega
    · intro _
      exact h.rows.edges_pos hpos
    · simp only [hinside.val_eq]

/-- The rows may be entered where the row pointer has a second entry. -/
theorem enterRows (hv : ValidCsr (g.rowPtr id) (g.colIdx id)) (hlen : 2 ≤ (g.rowPtr id).length)
    (h : CursorsInside g id r) :
    ∃ t, GraphReader.enterRows (g.rowPtr id) r = some t ∧ CursorsInside g id t := by
  obtain ⟨t, ht, hrows⟩ := h.rows.enterRows hv hlen
  have hframe := enterRows_frame ht
  refine ⟨t, ht, hrows, ?_, ?_, ?_, ?_, ?_, ?_⟩ <;> rw [hframe]
  exacts [h.2, h.3, h.4, h.5, h.6, h.7]

end CursorsInside

/-! ## Calls -/

/-- The state of a reader that is never led outside its arrays: it has a row to go back to,
or it leaves `NextFeature` at once. -/
structure SafeInv (g : Globals) (id : ℕ) (r : GraphReader) : Prop where
  inside : CursorsInside g id r
  row : 2 ≤ (g.rowPtr id).length ∨ r.Ended g id

theorem SafeInv.nextFeature (hv : ValidCsr (g.rowPtr id) (g.colIdx id)) (h : SafeInv g id r) :
    ∃ r' ret, r.nextFeature g id = some (r', ret) ∧ SafeInv g id r' := by
  unfold GraphReader.nextFeature
  split
  · next hend =>
    exact ⟨_, _, rfl, ⟨⟨h.1.1.1, h.1.1.2, h.1.1.3, h.1.1.4, h.1.1.5⟩, h.1.2, h.1.3, h.1.4, h.1.5,
      h.1.6, h.1.7⟩, .inr hend⟩
  · next hend =>
    have hlen := h.row.resolve_right hend
    obtain ⟨t, ht, hinside⟩ := h.inside.enterRows hv hlen
    rw [ht, Option.bind_some]
    split
    · next hready =>
      obtain ⟨r', ret, hpass, hinside'⟩ := hinside.passEdge hready
      exact ⟨r', ret, hpass, hinside', .inl hlen⟩
    · exact ⟨t, none, rfl, hinside, .inl hlen⟩

theorem SafeInv.graphReceive (h : SafeInv g id r) (reci : RType) :
    SafeInv g id (r.graphReceive g id reci) := by
  refine ⟨h.inside.graphReceive reci, h.row.imp_right fun hend => ?_⟩
  obtain ⟨isOver, heq⟩ := graphReceive_eq g id r reci
  obtain ⟨-, -, hcol, -, hpass, -⟩ := receive_frame g id r reci
  rw [heq]
  exact ⟨hcol.trans hend.1, by rw [hpass]; exact hend.2⟩

theorem SafeInv.nextSafe (hv : ValidCsr (g.rowPtr id) (g.colIdx id)) (h : SafeInv g id r) :
    NextSafe g id r where
  finite := loopStep_acc (g.rowPtr id) r
  returns := by
    obtain ⟨r', ret, hnext, -⟩ := h.nextFeature hv
    exact ⟨r', ret, hnext⟩
  rows := by
    intro hend t ht
    exact h.inside.rows.rowReads hv (h.row.resolve_right hend) ht
  cols := by
    intro hend t ht i hi
    obtain ⟨u, hu, hinside⟩ := h.inside.enterRows hv (h.row.resolve_right hend)
    obtain rfl := Option.some.inj (ht.symm.trans hu)
    unfold colReads at hi
    dsimp only at hi
    split at hi
    · next hready =>
      obtain rfl := List.mem_singleton.mp hi
      exact (hinside.wrapCols hready.1).2.1
    · cases hi
  counters := ⟨h.inside.rows.overflow_nonneg, h.inside.col_nonneg, h.inside.val_nonneg,
    h.inside.rows.remain_nonneg⟩

/-- A reader that is safe at first stays safe, whatever arrives in whatever order. -/
theorem safeInv_of_run (hv : ValidCsr (g.rowPtr id) (g.colIdx id))
    (h : 2 ≤ (g.rowPtr id).length ∨ (GraphReader.init g id).Ended g id) (calls : List StreamCall) :
    ∃ r out, StreamRun g id calls r out ∧ SafeInv g id r := by
  refine Machine.run_total (I := fun _ _ r => SafeInv g id r) (P := fun _ => True)
    (fun _ _ r call hr _ => ?_) ⟨.init hv, h⟩ fun _ _ => trivial
  cases call with
  | graphReceive reci => exact ⟨_, [], rfl, hr.graphReceive reci⟩
  | nextFeature =>
    obtain ⟨r', ret, hnext, hr'⟩ := hr.nextFeature hv
    exact ⟨r', ret.toList, by simp only [streamCall, hnext, Option.map_some], hr'⟩

theorem graphReceive_row (g : Globals) (id : ℕ) (r : GraphReader) :
    (r.graphReceive g id .row).curRowIdx = r.curRowIdx ∧
      (r.graphReceive g id .row).remainEdge = r.remainEdge ∧
      (r.graphReceive g id .row).gPassCount = r.gPassCount ∧
      (r.graphReceive g id .row).rowEndIdx =
        (advance (g.rowPtr id).length r.rowEndIdx r.rowOverflow).1 ∧
      (r.graphReceive g id .row).rowOverflow =
        (advance (g.rowPtr id).length r.rowEndIdx r.rowOverflow).2.1 := by
  obtain ⟨isOver, heq⟩ := graphReceive_eq g id r .row
  rw [heq]
  exact ⟨rfl, rfl, rfl, rfl, rfl⟩

/-- A second round of row lines leads a reader without a row outside its row pointer. -/
theorem not_indexSafe (hlen : (g.rowPtr id).length = 1) (hbf : 2 ≤ g.archInfo.bf) :
    ¬ IndexSafe g id := by
  intro h
  have hblocks : Window.blocks 16 (g.rowPtr id).length = 1 := by rw [hlen]; rfl
  obtain ⟨r, out, hrun, hsafe⟩ := h [.graphReceive .row, .graphReceive .row]
    ⟨by rw [hblocks]; simpa [arrivals] using hbf, Nat.zero_le _, Nat.zero_le _⟩
  obtain ⟨hcur₁, hrem₁, hpass₁, hend₁, hov₁⟩ := graphReceive_row g id (.init g id)
  obtain ⟨hcur₂, hrem₂, hpass₂, -, hov₂⟩ :=
    graphReceive_row g id ((GraphReader.init g id).graphReceive g id .row)
  have hr : ((GraphReader.init g id).graphReceive g id .row).graphReceive g id .row = r :=
    congrArg Prod.fst (Option.some.inj hrun)
  rw [hr] at hcur₂ hrem₂ hpass₂ hov₂
  have hcur : r.curRowIdx = 1 := hcur₂.trans hcur₁
  have hrem : r.remainEdge = 0 := hrem₂.trans hrem₁
  have hpass : r.gPassCount = 0 := hpass₂.trans hpass₁
  have hov : r.rowOverflow = 1 := by
    rw [hov₂, hend₁, hov₁, hlen]
    rfl
  -- the first pass through the loop goes back to entry 1
  have hread := hsafe.rows (fun hend => by have := hend.2; omega) r
    ⟨.inr (by omega), hrem, .refl⟩ 1 (by simp [rowReads, hcur, hov, hlen])
  rw [hlen] at hread
  omega

theorem indexSafe_iff_length (hv : ValidCsr (g.rowPtr id) (g.colIdx id)) (hbf : 1 ≤ g.archInfo.bf) :
    IndexSafe g id ↔ g.archInfo.bf = 1 ∨ 2 ≤ (g.rowPtr id).length := by
  have hpos := hv.length_pos
  constructor
  · intro h
    by_contra hcon
    push Not at hcon
    exact not_indexSafe (by omega) (by omega) h
  · intro h calls _
    have hrow : 2 ≤ (g.rowPtr id).length ∨ (GraphReader.init g id).Ended g id := by
      by_cases hlen : 2 ≤ (g.rowPtr id).length
      · exact .inl hlen
      · -- without a row there is no edge, and the single fold is over from the start
        have hlast := hv.vget_last
        rw [show (g.rowPtr id).length - 1 = 0 by omega, hv.vget_zero] at hlast
        exact .inr ⟨hlast, by have := h.resolve_right hlen; simp only [GraphReader.init]; omega⟩
    obtain ⟨r, out, hrun, hinv⟩ := safeInv_of_run hv hrow calls
    exact ⟨r, out, hrun, hinv.nextSafe hv⟩

end GraphReader

/-! ## The engines of `LAC` -/

open GraphReader

variable {g : Globals} {id : ℕ}

/-- A row pointer has a second entry exactly when `LAC` deals a vertex to the engine. -/
theorem two_le_length_lac (inp : Input) (id : ℕ) :
    2 ≤ ((lac (readData inp)).rowPtr id).length ↔ ∃ v < inp.graph.rowPtr.length - 1,
      v / (effLacWidth (readData inp)).toNat % inp.nOfEngine = id := by
  rw [(lac_readData inp id).1, length_rowPtrOf, Input.lacRows, lacRows_eq_map_part,
    List.length_map, Nat.succ_le_succ_iff, Nat.one_le_iff_ne_zero, ← Nat.pos_iff_ne_zero,
    List.length_pos_iff_exists_mem]
  simp only [Dealing.mem_part, List.mem_range, Dealing.turn]

/-- A reader of an engine is index-safe exactly when there is a single fold or `LAC` deals a
vertex to the engine. -/
theorem indexSafe_iff (inp : Input) (hptr : g.rowPtr id = (lac (readData inp)).rowPtr id)
    (hcol : g.colIdx id = (lac (readData inp)).colIdx id) (hbf : 1 ≤ g.archInfo.bf) :
    IndexSafe g id ↔ g.archInfo.bf = 1 ∨ ∃ v < inp.graph.rowPtr.length - 1,
      v / (effLacWidth (readData inp)).toNat % inp.nOfEngine = id := by
  have hv : ValidCsr (g.rowPtr id) (g.colIdx id) := by
    rw [hptr, hcol, (lac_readData inp id).1, (lac_readData inp id).2]
    exact validCsr_rowPtrOf _
  rw [indexSafe_iff_length hv hbf, hptr, two_le_length_lac]

/-- Two engines that both get a vertex. -/
theorem indexSafe_threeVertices :
    IndexSafe (lac (readData .threeVertices)) 0 ∧ IndexSafe (lac (readData .threeVertices)) 1 := by
  have hwidth : effLacWidth (readData .threeVertices) = 1 := by
    simp [effLacWidth, readData, Input.threeVertices]
  constructor
  · exact (indexSafe_iff .threeVertices rfl rfl (by decide)).mpr
      (.inr ⟨0, by decide, by rw [hwidth]; decide⟩)
  · exact (indexSafe_iff .threeVertices rfl rfl (by decide)).mpr
      (.inr ⟨1, by decide, by rw [hwidth]; decide⟩)

/-- One engine more than there are vertices. -/
def Input.fourEngines : Input := { Input.threeVertices with nOfEngine := 4 }

/-- The engine that gets no vertex leaves its row pointer in the second fold. -/
theorem not_indexSafe_fourEngines : ¬ IndexSafe (lac (readData .fourEngines)) 3 := by
  refine not_indexSafe ?_ (by decide)
  have hwidth : effLacWidth (readData .fourEngines) = 1 := by
    simp [effLacWidth, readData, Input.fourEngines, Input.threeVertices]
  rw [(lac_readData .fourEngines 3).1, Input.lacRows, hwidth]
  decide

end Sgcn

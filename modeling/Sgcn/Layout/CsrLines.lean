-- SUMMARY: The packed layout that mode `CSR` aims at, and exactly when the running address gives it.
import Sgcn.Layout.FeatureRegion
import Sgcn.Partition.Work

/-!
# The packed layout of `CSR`

Sixteen row pointers, columns or values fill a line, and neighbouring rows are meant
to share the line that one ends and the other starts in. `AddressMapping` gets there
by a step back whenever the running count ends inside a line, with a number of lines
per row that only depends on the row. This comes out right when every row needs as
many lines from where it starts as it would need alone; and since nobody closes an
open line, only when the row pointers and the non-zeros fill their last line.
-/

namespace Sgcn

open Blocks

/-! ## The lines of a row -/

/-- How many lines the elements `p, …, p + z - 1` lie in. -/
def lineSpan (p z : ℕ) : ℕ :=
  if z = 0 then 0 else (p + z - 1) / cacheLineCount - p / cacheLineCount + 1

/-- The lines that the elements `p, …, p + z - 1` lie in. -/
def elementLines (p z : ℕ) : List ℕ := List.range' (p / cacheLineCount) (lineSpan p z)

theorem mem_elementLines {p z q : ℕ} :
    q ∈ elementLines p z ↔ ∃ e, p ≤ e ∧ e < p + z ∧ e / cacheLineCount = q := by
  rw [elementLines, List.mem_range'_1, lineSpan]
  simp only [cacheLineCount]
  constructor
  · rintro ⟨hge, hlt⟩
    split at hlt
    · omega
    · rcases Nat.lt_or_ge (p / 16) q with hq | hq
      · exact ⟨16 * q, by omega, by omega, by omega⟩
      · exact ⟨p, le_rfl, by omega, by omega⟩
  · rintro ⟨e, hge, hlt, rfl⟩
    rw [if_neg (by omega)]
    omega

section

variable {z b : ℕ → ℕ} {xH : ℕ}

/-- Every row needs as many lines from where it starts as are set aside for it, and the
last line of the rows is full. -/
structure RowsFill (z b : ℕ → ℕ) (xH : ℕ) : Prop where
  fits : ∀ i < xH, (start z i % cacheLineCount + z i + 15) / cacheLineCount = b i
  full : cacheLineCount ∣ start z xH

/-- Where every row has a line, the running address never moves below its start. -/
theorem csrLine_nonneg {i : ℕ} (hb : ∀ j < i, 0 < b j) : 0 ≤ csrLine z b i := by
  induction i with
  | zero => simp [csrLine]
  | succ i ih =>
    have hprev := ih fun j hj => hb j (by omega)
    have hpos := hb i i.lt_succ_self
    have hopen := openLine_cases z i
    rw [csrLine]
    omega

theorem csrCellLine_nonneg {r c : ℕ} (hb : ∀ j < xH, 0 < b j) (hr : r < xH) :
    0 ≤ csrCellLine z b xH r c := by
  have hall : 0 ≤ csrLine z b xH := csrLine_nonneg hb
  have hrow : 0 ≤ csrLine z b r := csrLine_nonneg fun j hj => hb j (by omega)
  simp only [csrCellLine, cacheLineCount]
  split
  · omega
  · split <;> omega

/-- As long as the rows fit, the running address is at the line of the next element. -/
theorem csrLine_of_fits {i : ℕ}
    (h : ∀ j < i, (start z j % cacheLineCount + z j + 15) / cacheLineCount = b j) :
    csrLine z b i = (start z i / cacheLineCount : ℕ) := by
  induction i with
  | zero => simp [csrLine]
  | succ i ih =>
    have hrow := h i i.lt_succ_self
    have hopen := openLine_cases z i
    rw [csrLine, ih fun j hj => h j (by omega), start_succ]
    simp only [cacheLineCount] at hrow ⊢
    omega

theorem RowsFill.span (hzb : ∀ i, z i = 0 → b i = 0) (h : RowsFill z b xH) {i : ℕ} (hi : i < xH) :
    b i = lineSpan (start z i) (z i) := by
  have hrow := h.fits i hi
  unfold lineSpan
  simp only [cacheLineCount] at hrow ⊢
  split
  · next hzero => exact hzb i hzero
  · omega

theorem RowsFill.csrLine_eq (h : RowsFill z b xH) {i : ℕ} (hi : i ≤ xH) :
    csrLine z b i = (start z i / cacheLineCount : ℕ) :=
  csrLine_of_fits fun j hj => h.fits j (by omega)

/-- What the addresses of the table say about the lines. An address below zero is taken
modulo `2 ^ 64`, so that a line is only known up to `2 ^ 58`. -/
structure LinesAgree (z b : ℕ → ℕ) (xH : ℕ) : Prop where
  span : ∀ i < xH, b i = lineSpan (start z i) (z i)
  line : ∀ i < xH, 0 < z i → csrLine z b i = (start z i / cacheLineCount : ℕ) ∨
    csrLine z b i + 2 ^ 58 = (start z i / cacheLineCount : ℕ)
  last : csrLine z b xH = ((start z xH + 15) / cacheLineCount : ℕ) ∨
    csrLine z b xH + 2 ^ 57 = ((start z xH + 15) / cacheLineCount : ℕ)

namespace LinesAgree

/-- The running address never leads, and it lags by at most one line per row. -/
theorem lag (h : LinesAgree z b xH) (hxH : xH < 2 ^ 31) {i : ℕ} (hi : i ≤ xH) :
    csrLine z b i ≤ (start z i / cacheLineCount : ℕ) ∧
      (start z i / cacheLineCount : ℕ) ≤ csrLine z b i + i := by
  induction i with
  | zero => simp [csrLine]
  | succ i ih =>
    have hprev := ih (by omega)
    have hspan := h.span i (by omega)
    have hline := h.line i (by omega)
    have hopen := openLine_cases z i
    rw [csrLine, start_succ]
    unfold lineSpan at hspan
    simp only [cacheLineCount] at *
    rcases Nat.eq_zero_or_pos (z i) with hzero | hpos
    · rw [if_pos hzero] at hspan
      omega
    · rw [if_neg (by omega)] at hspan
      have := hline hpos
      omega

/-- A lag is never made up for. -/
theorem lag_mono (h : LinesAgree z b xH) (hxH : xH < 2 ^ 31) {i n : ℕ} (hn : i + n ≤ xH)
    (hlag : csrLine z b i < (start z i / cacheLineCount : ℕ)) :
    csrLine z b (i + n) < (start z (i + n) / cacheLineCount : ℕ) := by
  induction n with
  | zero => exact hlag
  | succ n ih =>
    have hprev := ih (by omega)
    have hspan := h.span (i + n) (by omega)
    have hline := h.line (i + n) (by omega)
    have hbound := h.lag hxH (show i + n ≤ xH by omega)
    rcases Nat.eq_zero_or_pos (z (i + n)) with hzero | hpos
    · rw [lineSpan, if_pos hzero] at hspan
      rw [← Nat.add_assoc, csrLine, start_succ, hzero, hspan, Nat.add_zero]
      omega
    · have := hline hpos
      omega

theorem rowsFill (h : LinesAgree z b xH) (hxH : xH < 2 ^ 31) : RowsFill z b xH := by
  have hbound := h.lag hxH le_rfl
  have hlast := h.last
  have hfull : start z xH % cacheLineCount = 0 ∧
      csrLine z b xH = (start z xH / cacheLineCount : ℕ) := by
    simp only [cacheLineCount] at *
    omega
  refine ⟨fun i hi => ?_, Nat.dvd_of_mod_eq_zero hfull.1⟩
  have hspan := h.span i hi
  unfold lineSpan at hspan
  rcases Nat.eq_zero_or_pos (z i) with hzero | hpos
  · -- an empty row that starts inside a line steps back for good
    rw [if_pos hzero] at hspan
    rw [hzero, hspan]
    by_contra hopen
    have hmod : start z i % cacheLineCount ≠ 0 := by
      intro hmod
      rw [hmod] at hopen
      exact hopen rfl
    have hlag : csrLine z b (i + 1) < (start z (i + 1) / cacheLineCount : ℕ) := by
      rw [csrLine, openLine, start_succ, hzero, hspan, Nat.add_zero, if_pos hmod]
      have := (h.lag hxH hi.le).1
      omega
    have hend := h.lag_mono hxH (n := xH - (i + 1)) (by omega) hlag
    rw [Nat.add_sub_cancel' hi] at hend
    omega
  · rw [if_neg (by omega)] at hspan
    simp only [cacheLineCount] at hspan ⊢
    omega

end LinesAgree

end

/-! ## The intended layout -/

variable {inp : Input} {g : Globals}

/-- Where the column lines are meant to start: behind the row pointers. -/
def colStart (g : Globals) : ℕ :=
  g.archInfo.xwEleAddrStart + cacheLineByte * ((g.dataInfo.xH + 15) / cacheLineCount)

/-- The lines that the non-zeros need. -/
def Input.countLines (inp : Input) : ℕ := (start inp.rowCount inp.aH + 15) / cacheLineCount

/-- Where the value lines are meant to start: behind the columns. -/
def valStart (inp : Input) (g : Globals) : ℕ := colStart g + cacheLineByte * inp.countLines

/-- The lines of a row of the features, as its elements are counted. -/
def Input.rowLineList (inp : Input) (i : ℕ) : List ℕ :=
  elementLines (start inp.rowCount i) (inp.rowCount i)

/-- The cells of the table and the start of the outputs are those of a packed layout. -/
structure CsrLines (inp : Input) (g : Globals) : Prop where
  rowPtr : ∀ i < g.dataInfo.xH, (g.xToAddr i)[0]? =
    some (g.archInfo.xwEleAddrStart + cacheLineByte * (i / cacheLineCount))
  col : ∀ i < g.dataInfo.xH, ∀ j, (g.xToAddr i)[2 * j + 1]? =
    (inp.rowLineList i)[j]?.map fun q => colStart g + cacheLineByte * q
  val : ∀ i < g.dataInfo.xH, ∀ j, (g.xToAddr i)[2 * j + 2]? =
    (inp.rowLineList i)[j]?.map fun q => valStart inp g + cacheLineByte * q
  axw : g.archInfo.axwAddrStart = valStart inp g + cacheLineByte * inp.countLines

/-- A packed layout keeps row pointers, columns, values and outputs apart, and two rows
share a line only when elements of both lie in it. -/
structure PackedCsr (inp : Input) (g : Globals) : Prop extends CsrLines inp g where
  rowPtr_lt : ∀ i < g.dataInfo.xH, ∀ a, (g.xToAddr i)[0]? = some a → a < colStart g
  col_mem : ∀ i < g.dataInfo.xH, ∀ j a, (g.xToAddr i)[2 * j + 1]? = some a →
    colStart g ≤ a ∧ a < valStart inp g
  val_mem : ∀ i < g.dataInfo.xH, ∀ j a, (g.xToAddr i)[2 * j + 2]? = some a →
    valStart inp g ≤ a ∧ a < g.archInfo.axwAddrStart
  shared : ∀ i < g.dataInfo.xH, ∀ k < g.dataInfo.xH, ∀ j l off, off = 1 ∨ off = 2 → ∀ a,
    (g.xToAddr i)[2 * j + off]? = some a → (g.xToAddr k)[2 * l + off]? = some a →
      ∃ e e', (start inp.rowCount i ≤ e ∧ e < start inp.rowCount (i + 1)) ∧
        (start inp.rowCount k ≤ e' ∧ e' < start inp.rowCount (k + 1)) ∧
        e / cacheLineCount = e' / cacheLineCount

theorem mem_rowLineList {i q : ℕ} : q ∈ inp.rowLineList i ↔
    ∃ e, start inp.rowCount i ≤ e ∧ e < start inp.rowCount (i + 1) ∧ e / cacheLineCount = q := by
  rw [Input.rowLineList, mem_elementLines, start_succ]

theorem lt_countLines {i q : ℕ} (hi : i < inp.aH) (hq : q ∈ inp.rowLineList i) :
    q < inp.countLines := by
  obtain ⟨e, -, hlt, rfl⟩ := mem_rowLineList.mp hq
  have hmono : start inp.rowCount (i + 1) ≤ start inp.rowCount inp.aH := start_mono hi
  unfold Input.countLines
  simp only [cacheLineCount]
  omega

/-- The two consequences follow from the addresses. -/
theorem CsrLines.packedCsr (hxH : g.dataInfo.xH = inp.aH) (h : CsrLines inp g) :
    PackedCsr inp g := by
  refine ⟨h, fun i hi a ha => ?_, fun i hi j a ha => ?_, fun i hi j a ha => ?_,
    fun i hi k hk j l off hoff a ha hb => ?_⟩
  · rw [h.rowPtr i hi] at ha
    obtain rfl := Option.some.inj ha
    unfold colStart
    simp only [cacheLineByte, cacheLineCount]
    omega
  · rw [h.col i hi] at ha
    obtain ⟨q, hq, rfl⟩ := Option.map_eq_some_iff.mp ha
    have hlt := lt_countLines (by omega) (List.mem_of_getElem? hq)
    unfold valStart
    simp only [cacheLineByte]
    omega
  · rw [h.val i hi] at ha
    obtain ⟨q, hq, rfl⟩ := Option.map_eq_some_iff.mp ha
    have hlt := lt_countLines (by omega) (List.mem_of_getElem? hq)
    rw [h.axw]
    simp only [cacheLineByte]
    omega
  · -- the columns and the values are numbered by the same lines
    obtain ⟨base, hbase⟩ : ∃ base, ∀ r < g.dataInfo.xH, ∀ j, (g.xToAddr r)[2 * j + off]? =
        (inp.rowLineList r)[j]?.map fun q => base + cacheLineByte * q := by
      rcases hoff with rfl | rfl
      · exact ⟨_, h.col⟩
      · exact ⟨_, h.val⟩
    rw [hbase i hi] at ha
    rw [hbase k hk] at hb
    obtain ⟨q, hq, rfl⟩ := Option.map_eq_some_iff.mp ha
    obtain ⟨q', hq', heq⟩ := Option.map_eq_some_iff.mp hb
    obtain rfl : q' = q := by
      simp only [cacheLineByte] at heq
      omega
    obtain ⟨e, hge, hlt, he⟩ := mem_rowLineList.mp (List.mem_of_getElem? hq)
    obtain ⟨e', hge', hlt', he'⟩ := mem_rowLineList.mp (List.mem_of_getElem? hq')
    exact ⟨e, e', ⟨hge, hlt⟩, ⟨hge', hlt'⟩, he.trans he'.symm⟩

/-! ## When the layout is packed -/

theorem wrapAddr_line {R m : ℕ} {l : ℤ} (h : l = m) :
    wrapAddr (R + cacheLineByte * l) = R + cacheLineByte * m := by
  have hnonneg : 0 ≤ (R : ℤ) + cacheLineByte * (m : ℤ) := by positivity
  rw [h, wrapAddr, if_pos hnonneg]
  omega

/-- An address gives its line up to `2 ^ 58`. -/
theorem line_of_wrapAddr {R m : ℕ} {l : ℤ} (hlow : -2 ^ 58 ≤ l)
    (h : wrapAddr (R + cacheLineByte * l) = R + cacheLineByte * m) :
    l = m ∨ l + 2 ^ 58 = m := by
  rw [wrapAddr] at h
  split at h
  · simp only [cacheLineByte] at *
    omega
  · simp only [cacheLineByte] at *
    omega

theorem rowBlocks_eq_zero {i : ℕ} (h : inp.rowCount i = 0) : inp.rowBlocks i = 0 := by
  rw [Input.rowBlocks, h, ceilDiv_zero]

/-- The column or the value cells of a row, when the row starts at the right line. -/
theorem cell_of_lines {off base r : ℕ} {l : List ℕ} (hoff : off = 1 ∨ off = 2)
    (hlen : l.length = 2 * inp.rowBlocks r + 1)
    (hspan : inp.rowBlocks r = lineSpan (start inp.rowCount r) (inp.rowCount r))
    (hcell : ∀ j < inp.rowBlocks r, l[2 * j + off]? = some
      (base + cacheLineByte * (start inp.rowCount r / cacheLineCount + j))) (j : ℕ) :
    l[2 * j + off]? = (inp.rowLineList r)[j]?.map fun q => base + cacheLineByte * q := by
  rw [Input.rowLineList, elementLines, ← hspan]
  rcases Nat.lt_or_ge j (inp.rowBlocks r) with hj | hj
  · rw [hcell j hj, List.getElem?_range' hj]
    simp
  · rw [List.getElem?_eq_none (by omega), List.getElem?_eq_none (by simpa using hj)]
    rfl

/-- The lines that a full last line leaves no gap behind. -/
theorem colStart_eq (hxH : g.dataInfo.xH = inp.aH) (hrows : cacheLineCount ∣ inp.aH) :
    colStart g = g.archInfo.xwEleAddrStart + cacheLineByte * (inp.aH / cacheLineCount) := by
  rw [colStart, hxH]
  simp only [cacheLineCount] at hrows ⊢
  congr 2
  omega

/-- Rows that fill their lines are packed. -/
theorem csrLines_of_rowsFill (hmode : inp.mode = .csr) (hg : preprocess inp = some g)
    (hrows : cacheLineCount ∣ inp.aH) (h : RowsFill inp.rowCount inp.rowBlocks inp.aH) :
    CsrLines inp g := by
  obtain ⟨haxw, hcells⟩ := csrTable_of_preprocess hmode hg
  have hxH : g.dataInfo.xH = inp.aH := (prepared_of_preprocess hg).xH_eq
  have hcol := colStart_eq hxH hrows
  rw [hxH] at haxw hcells
  have hend : csrLine inp.rowCount inp.rowBlocks inp.aH = inp.countLines := by
    rw [h.csrLine_eq le_rfl, Input.countLines]
    have hfull := h.full
    simp only [cacheLineCount] at hfull ⊢
    omega
  refine ⟨fun i hi => ?_, fun i hi => ?_, fun i hi => ?_, ?_⟩
  · rw [(hcells i (by omega)).2 0 (by omega), csrCellLine, if_pos rfl, wrapAddr_line rfl]
  · obtain ⟨hlen, hget⟩ := hcells i (by omega)
    refine cell_of_lines (.inl rfl) hlen (h.span (fun _ => rowBlocks_eq_zero) (by omega))
      fun j hj => ?_
    rw [hget _ (by omega), csrCellLine, if_neg (by omega), if_pos (by omega),
      h.csrLine_eq (by omega), hcol, show (2 * j + 1) / 2 = j by omega, add_assoc _ (_ * _),
      ← mul_add]
    exact congrArg some (wrapAddr_line (by push_cast; ring))
  · obtain ⟨hlen, hget⟩ := hcells i (by omega)
    refine cell_of_lines (.inr rfl) hlen (h.span (fun _ => rowBlocks_eq_zero) (by omega))
      fun j hj => ?_
    rw [hget _ (by omega), csrCellLine, if_neg (by omega), if_neg (by omega), hend,
      h.csrLine_eq (by omega), valStart, hcol, show (2 * j + 2) / 2 - 1 = j by omega,
      add_assoc _ (_ * _), ← mul_add, add_assoc _ (_ * _), ← mul_add]
    exact congrArg some (wrapAddr_line (by push_cast; ring))
  · rw [haxw, csrEndLine, hend, valStart, hcol, add_assoc _ (_ * _), ← mul_add,
      add_assoc _ (_ * _), ← mul_add]
    exact wrapAddr_line (by push_cast; ring)

/-- The number of cells and their addresses say where the lines are. -/
theorem CsrLines.linesAgree (hmode : inp.mode = .csr) (hg : preprocess inp = some g)
    (haH : inp.aH < 2 ^ 31) (h : CsrLines inp g) :
    cacheLineCount ∣ inp.aH ∧ LinesAgree inp.rowCount inp.rowBlocks inp.aH := by
  obtain ⟨haxw, hcells⟩ := csrTable_of_preprocess hmode hg
  have hxH : g.dataInfo.xH = inp.aH := (prepared_of_preprocess hg).xH_eq
  have hlow (i : ℕ) := csrLine_bounds inp.rowCount inp.rowBlocks i
  have hend := h.axw
  rw [haxw, csrEndLine, valStart, colStart, hxH, add_assoc _ (_ * _), ← mul_add,
    add_assoc _ (_ * _), ← mul_add] at hend
  have hlast := line_of_wrapAddr (by have := hlow inp.aH; simp only [cacheLineCount]; omega) hend
  -- an open line of row pointers would be half a step
  have hrows : cacheLineCount ∣ inp.aH := by
    simp only [cacheLineCount] at hlast ⊢
    omega
  have hcol := colStart_eq hxH hrows
  rw [hxH] at hcells
  refine ⟨hrows, fun i hi => ?_, fun i hi hpos => ?_, ?_⟩
  · obtain ⟨hlen, -⟩ := hcells i hi
    have hiff (j : ℕ) : j < inp.rowBlocks i ↔
        j < lineSpan (start inp.rowCount i) (inp.rowCount i) := by
      have hnone := congrArg (· = none) (h.col i (by omega) j)
      simp only [Option.map_eq_none_iff, List.getElem?_eq_none_iff, Input.rowLineList, elementLines,
        List.length_range', hlen, eq_iff_iff] at hnone
      omega
    have hle := hiff (lineSpan (start inp.rowCount i) (inp.rowCount i))
    have hge := hiff (inp.rowBlocks i)
    omega
  · obtain ⟨-, hget⟩ := hcells i hi
    have hblocks : 0 < inp.rowBlocks i := ceilDiv_pos hpos (by decide)
    have hfirst := h.col i (by omega) 0
    have hline : (inp.rowLineList i)[0]? = some (start inp.rowCount i / cacheLineCount) := by
      rw [Input.rowLineList, elementLines, List.getElem?_range' (by rw [lineSpan]; split <;> omega)]
      rfl
    rw [hget _ (by omega), hline, Option.map_some, Option.some.injEq, csrCellLine,
      if_neg (by omega), if_pos (by omega), hcol, add_assoc _ (_ * _), ← mul_add] at hfirst
    have := line_of_wrapAddr (by have := hlow i; simp only [cacheLineCount]; omega) hfirst
    omega
  · simp only [Input.countLines, cacheLineCount] at hlast hrows ⊢
    omega

/-- The layout of mode `CSR` is packed exactly when the row pointers and the non-zeros
fill their last lines and every row needs, from where it starts, the lines set aside
for it. -/
theorem packedCsr_iff (hmode : inp.mode = .csr) (haH : inp.aH < 2 ^ 31)
    (hg : preprocess inp = some g) : PackedCsr inp g ↔
      cacheLineCount ∣ inp.aH ∧ RowsFill inp.rowCount inp.rowBlocks inp.aH := by
  constructor
  · intro h
    obtain ⟨hrows, hlines⟩ := h.toCsrLines.linesAgree hmode hg haH
    exact ⟨hrows, hlines.rowsFill haH⟩
  · rintro ⟨hrows, hfill⟩
    exact (csrLines_of_rowsFill hmode hg hrows hfill).packedCsr (prepared_of_preprocess hg).xH_eq

/-- Sixteen vertices without an edge. -/
def Graph.sixteenVertices : Graph where
  rowPtr := List.replicate 17 0
  colIdx := []
  valid := ⟨rfl, by decide, rfl⟩
  col_lt := by decide

/-- One feature for each of them. -/
def Input.sixteenFeatures : Input := { Input.oneFeature with graph := .sixteenVertices }

/-- Sixteen rows of one element share a line. -/
theorem packedCsr_sixteenFeatures : ∃ g, preprocess .sixteenFeatures = some g ∧
    PackedCsr .sixteenFeatures g := by
  obtain ⟨g₁, hgraph⟩ := mapGraph_input_isSome .sixteenFeatures fun i hi => by
    have hcases : i = 0 ∨ i = 1 := by
      have : i < 2 := hi
      omega
    rcases hcases with rfl | rfl <;> decide
  obtain ⟨g, hg⟩ := preprocess_csr_isSome rfl hgraph
  have hcount : Input.sixteenFeatures.rowCount = fun _ => 1 := rfl
  have hstart (i : ℕ) : start Input.sixteenFeatures.rowCount i = i := by simp [hcount, start]
  have hblocks (i : ℕ) : Input.sixteenFeatures.rowBlocks i = 1 := (oneFeature_rows i).2
  refine ⟨g, hg, (packedCsr_iff rfl (by decide) hg).mpr ⟨by decide, fun i hi => ?_, ?_⟩⟩
  · rw [hstart, hblocks, hcount]
    simp only [cacheLineCount]
    omega
  · rw [hstart]
    decide

/-- Three rows do not fill the line of their row pointers, and the columns start in it. -/
theorem not_packedCsr_oneFeature : ∃ g, preprocess .oneFeature = some g ∧
    ¬ PackedCsr .oneFeature g := by
  obtain ⟨g, hg⟩ := preprocess_oneFeature
  refine ⟨g, hg, fun h => ?_⟩
  obtain ⟨hrows, -⟩ := h.toCsrLines.linesAgree rfl hg (by decide)
  revert hrows
  decide

end Sgcn

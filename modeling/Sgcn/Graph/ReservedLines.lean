-- SUMMARY: When the lines reserved for the graph arrays are as many as the arrays fill, so that a round of requests ends with the round of messages.
import Sgcn.Base.Window
import Sgcn.Graph.Prefetch
import Mathlib.Order.Bounds.Basic
import Mathlib.Tactic.IntervalCases

/-!
# Reserved lines

`AddressMapping` computes the number of lines of an array in single precision, whereas
the graph reader counts the elements that have arrived. The size is rounded to 24 bits
before it is divided. Up to `2 ^ 28` elements the rounding matters only when it drops a
short last line; from there on the size becomes a multiple of two lines.
-/

namespace Sgcn

open Window

variable {g g' : Globals} {i n : ℕ}

/-! ## Rounded sizes -/

/-- The lines computed for `n` elements are those that they fill, and their bytes fit in an
`int`: a last line that is not full survives the rounding of `n`, or, from `2 ^ 28` elements
on, the number of lines is even. -/
def LinesExact (n : ℕ) : Prop :=
  if n < 2 ^ 28 then
    n % cacheLineCount = 0 ∨ Fp.gap 24 n < 2 * (n % cacheLineCount) ∨
      Fp.gap 24 n = 2 * (n % cacheLineCount) ∧ n / Fp.gap 24 n % 2 = 1
  else blocks cacheLineCount n % 2 = 0 ∧ n ≤ 2 ^ 29 - cacheLineCount

instance : DecidablePred LinesExact := fun n => by
  unfold LinesExact
  infer_instance

theorem ceilDiv_cacheLineCount (n : ℕ) :
    ceilDiv n cacheLineCount = (Fp.roundNat 24 n + 15) / 16 :=
  ceilDiv_two_pow (k := 4) n (by decide)

theorem gap_of_lt (h : n < 2 ^ 28) : ∃ e ≤ 4, Fp.gap 24 n = 2 ^ e := by
  refine ⟨Nat.log 2 n + 1 - 24, ?_, rfl⟩
  have hlog : Nat.log 2 n < 28 := Nat.log_lt_of_lt_pow' (by decide) h
  omega

theorem gap_of_lt_of_le (hle : 2 ^ 28 ≤ n) (hlt : n < 2 ^ 29) : Fp.gap 24 n = 32 := by
  have hlog : Nat.log 2 n = 28 := (Nat.log_eq_iff (.inl (by decide))).mpr ⟨hle, hlt⟩
  rw [Fp.gap, hlog]
  rfl

/-- From `2 ^ 29` elements on the bytes of the lines do not fit in an `int`. -/
theorem le_roundNat_of_le (h : 2 ^ 29 ≤ n) : 2 ^ 29 ≤ Fp.roundNat 24 n := by
  have hne : n ≠ 0 := by omega
  have hlog : 29 ≤ Nat.log 2 n := (Nat.le_log_iff_pow_le (by decide) hne).mpr h
  have hself := Nat.pow_log_le_self 2 hne
  have hgap : 2 ^ 6 ≤ Fp.gap 24 n := Nat.pow_le_pow_right two_pos (by omega)
  have hquot : 2 ^ 23 ≤ n / Fp.gap 24 n := by
    rw [Nat.le_div_iff_mul_le (Fp.gap_pos 24 n), Fp.gap, ← pow_add]
    exact (Nat.pow_le_pow_right two_pos (by omega)).trans hself
  calc 2 ^ 29 = 2 ^ 23 * 2 ^ 6 := by norm_num
    _ ≤ (if Fp.RoundsDown (Fp.gap 24 n) n then n / Fp.gap 24 n else n / Fp.gap 24 n + 1) *
          Fp.gap 24 n := by
      refine Nat.mul_le_mul ?_ hgap
      split <;> omega

theorem linesExact_iff (n : ℕ) :
    ceilDiv n cacheLineCount = blocks cacheLineCount n ∧ lineBytes n < 2 ^ 31 ↔ LinesExact n := by
  rw [lineBytes, ceilDiv_cacheLineCount, LinesExact, blocks]
  simp only [cacheLineCount, cacheLineByte]
  rcases Nat.lt_or_ge n (2 ^ 28) with hlt | hge
  · rw [if_pos hlt]
    obtain ⟨e, he, hgap⟩ := gap_of_lt hlt
    -- the gap divides a line
    rw [Fp.roundNat, hgap]
    by_cases hdown : Fp.RoundsDown (2 ^ e) n
    · rw [if_pos hdown]
      unfold Fp.RoundsDown at hdown
      interval_cases e <;> omega
    · rw [if_neg hdown]
      unfold Fp.RoundsDown at hdown
      interval_cases e <;> omega
  · rw [if_neg (by omega)]
    rcases Nat.lt_or_ge n (2 ^ 29) with hlt | hge'
    · -- the gap is two lines
      rw [Fp.roundNat, gap_of_lt_of_le hge hlt]
      by_cases hdown : Fp.RoundsDown 32 n
      · rw [if_pos hdown]
        unfold Fp.RoundsDown at hdown
        omega
      · rw [if_neg hdown]
        unfold Fp.RoundsDown at hdown
        omega
    · have hround := le_roundNat_of_le hge'
      omega

/-! ## A round -/

/-- An address that goes up by lines and starts over at `hi`, and the number of times it
has. -/
structure GoesRound (lo hi : ℕ) (addr count : ℕ → ℕ) : Prop where
  addr_zero : addr 0 = lo
  count_zero : count 0 = 0
  addr_succ : ∀ k, addr (k + 1) = if addr k + cacheLineByte = hi then lo else addr k + cacheLineByte
  count_succ : ∀ k, count (k + 1) = if addr k + cacheLineByte = hi then count k + 1 else count k

namespace GoesRound

variable {lo hi lines k : ℕ} {addr count : ℕ → ℕ}

/-- Before the end of the first round. In an empty region that is always. -/
theorem before (h : GoesRound lo (lo + cacheLineByte * lines) addr count)
    (hk : k < lines ∨ lines = 0) : addr k = lo + cacheLineByte * k ∧ count k = 0 := by
  induction k with
  | zero => exact ⟨by rw [h.addr_zero, Nat.mul_zero, Nat.add_zero], h.count_zero⟩
  | succ k ih =>
    obtain ⟨haddr, hcount⟩ := ih (hk.imp_left fun hlt => by omega)
    have hgo : addr k + cacheLineByte ≠ lo + cacheLineByte * lines := by
      rw [haddr]
      simp only [cacheLineByte]
      omega
    rw [h.addr_succ, h.count_succ, if_neg hgo, if_neg hgo, haddr]
    exact ⟨by rw [Nat.mul_succ, Nat.add_assoc], hcount⟩

/-- The first round ends after as many calls as the region has lines. -/
theorem isLeast (h : GoesRound lo (lo + cacheLineByte * lines) addr count) (hpos : 0 < lines) :
    IsLeast {k | count k = 1} lines := by
  constructor
  · obtain ⟨k, rfl⟩ := Nat.exists_eq_succ_of_ne_zero hpos.ne'
    obtain ⟨haddr, hcount⟩ := h.before (.inl (Nat.lt_succ_self k))
    have hend : addr k + cacheLineByte = lo + cacheLineByte * (k + 1) := by
      rw [haddr, Nat.mul_succ, Nat.add_assoc]
    change count (k + 1) = 1
    rw [h.count_succ, if_pos hend, hcount]
  · intro k hk
    by_contra hlt
    have hzero := (h.before (.inl (Nat.lt_of_not_le hlt))).2
    exact absurd (hk.symm.trans hzero) (by decide)

/-- A round through an empty region never ends. -/
theorem pos_of_count (h : GoesRound lo (lo + cacheLineByte * lines) addr count)
    (hk : count k = 1) : 0 < lines := by
  by_contra hzero
  have hcount := (h.before (k := k) (.inr (by omega))).2
  omega

end GoesRound

namespace GraphReader

/-- The reader after `k` calls of `VertexRequest` that the memory takes. -/
def vertexRequests (g : Globals) (i : ℕ) : ℕ → GraphReader
  | 0 => .init g i
  | k + 1 => ((vertexRequests g i k).vertexRequest g i .init).1

/-- The reader after `k` calls of `EdgeRequest` that the memory takes. -/
def edgeRequests (g : Globals) (i : ℕ) : ℕ → GraphReader
  | 0 => .init g i
  | k + 1 => ((edgeRequests g i k).edgeRequest g i .init).1

/-- The reader after `k` calls of `GraphReceive` on messages of one kind. -/
def received (g : Globals) (i : ℕ) (reci : RType) : ℕ → GraphReader
  | 0 => .init g i
  | k + 1 => (received g i reci k).graphReceive g i reci

theorem willAccept_init : Memory.willAcceptTransaction .init = true := rfl

theorem goesRound_vertexRequests (g : Globals) (i : ℕ) :
    GoesRound (g.dataIndex i).rowAddrStart (g.dataIndex i).rowAddrEnd
      (fun k => (vertexRequests g i k).nextVAddr) (fun k => (vertexRequests g i k).vReqCount) where
  addr_zero := rfl
  count_zero := rfl
  addr_succ := fun k => by
    rw [vertexRequests, vertexRequest_eq, if_pos willAccept_init]
    simp only [afterVertexRequest, decide_eq_true_eq]
  count_succ := fun k => by
    rw [vertexRequests, vertexRequest_eq, if_pos willAccept_init]
    simp only [afterVertexRequest, decide_eq_true_eq]

theorem goesRound_edgeRequests (g : Globals) (i : ℕ) :
    GoesRound (g.dataIndex i).colAddrStart (g.dataIndex i).colAddrEnd
      (fun k => (edgeRequests g i k).nextEAddr) (fun k => (edgeRequests g i k).eReqCount) where
  addr_zero := rfl
  count_zero := rfl
  addr_succ := fun k => by
    rw [edgeRequests, edgeRequest_eq, if_pos willAccept_init]
    simp only [afterEdgeRequest, decide_eq_true_eq]
  count_succ := fun k => by
    rw [edgeRequests, edgeRequest_eq, if_pos willAccept_init]
    simp only [afterEdgeRequest, decide_eq_true_eq]

/-- A window is full for the first time after as many lines as the array fills. -/
theorem isLeast_window {size : ℕ} {endIdx : ℕ → ℕ} (hzero : endIdx 0 = 0)
    (hsucc : ∀ k, ∃ overflow, endIdx (k + 1) = (advance size (endIdx k) overflow).1) :
    IsLeast {k | endIdx k = size} (blocks cacheLineCount size) := by
  have hbefore : ∀ k ≤ blocks cacheLineCount size, endIdx k = min (cacheLineCount * k) size := by
    intro k hk
    induction k with
    | zero => simp [hzero]
    | succ k ih =>
      have hlt := (lt_blocks_iff (by decide)).mp (Nat.lt_of_succ_le hk)
      obtain ⟨overflow, hk'⟩ := hsucc k
      rw [hk', ih (by omega), min_eq_left hlt.le, advance, if_neg hlt.ne]
      split
      · next hfull => rw [min_eq_right (by rwa [Nat.mul_succ])]
      · next hfull => rw [min_eq_left (by rw [Nat.mul_succ]; omega), Nat.mul_succ]
  constructor
  · have hle := le_mul_blocks (b := cacheLineCount) (n := size) (by decide)
    change endIdx _ = size
    rw [hbefore _ le_rfl, min_eq_right hle]
  · intro k hk
    by_contra hlt
    have hlt' := (lt_blocks_iff (by decide)).mp (Nat.lt_of_not_le hlt)
    have heq := hbefore k (Nat.lt_of_not_le hlt).le
    rw [min_eq_left hlt'.le] at heq
    exact hlt'.ne (heq.symm.trans hk)

theorem isLeast_received_row (g : Globals) (i : ℕ) :
    IsLeast {k | (received g i .row k).rowEndIdx = (g.rowPtr i).length}
      (blocks cacheLineCount (g.rowPtr i).length) := by
  refine isLeast_window rfl fun k => ⟨(received g i .row k).rowOverflow, ?_⟩
  obtain ⟨isOver, heq⟩ := graphReceive_eq g i (received g i .row k) .row
  rw [received, heq]
  rfl

theorem isLeast_received_column (g : Globals) (i : ℕ) :
    IsLeast {k | (received g i .column k).colEndIdx = (g.colIdx i).length}
      (blocks cacheLineCount (g.colIdx i).length) := by
  refine isLeast_window rfl fun k => ⟨(received g i .column k).colOverflow, ?_⟩
  obtain ⟨isOver, heq⟩ := graphReceive_eq g i (received g i .column k) .column
  rw [received, heq]
  rfl

end GraphReader

/-! ## The graph part of `AddressMapping` -/

open GraphReader

/-- The regions of engine `i` have as many lines as its arrays fill. -/
structure RegionsFit (g : Globals) (i : ℕ) : Prop where
  row : ((g.dataIndex i).rowAddrEnd - (g.dataIndex i).rowAddrStart) / cacheLineByte =
    blocks cacheLineCount (g.rowPtr i).length
  col : ((g.dataIndex i).colAddrEnd - (g.dataIndex i).colAddrStart) / cacheLineByte =
    blocks cacheLineCount (g.colIdx i).length
  value : ((g.dataIndex i).valueAddrEnd - (g.dataIndex i).valueAddrStart) / cacheLineByte =
    blocks cacheLineCount (g.colIdx i).length

/-- One round of requests is as many calls as it takes messages to fill the window. -/
structure RoundsFit (g : Globals) (i : ℕ) : Prop where
  row : ∃ k, IsLeast {k | (vertexRequests g i k).vReqCount = 1} k ∧
    IsLeast {k | (received g i .row k).rowEndIdx = (g.rowPtr i).length} k
  col : ∃ k, IsLeast {k | (edgeRequests g i k).eReqCount = 1} k ∧
    IsLeast {k | (received g i .column k).colEndIdx = (g.colIdx i).length} k

theorem regionsFit_iff (hl : GraphLayout g) (hi : i < g.archInfo.nOfEngine) :
    RegionsFit g i ↔ rowLines g i = blocks cacheLineCount (g.rowPtr i).length ∧
      colLines g i = blocks cacheLineCount (g.colIdx i).length := by
  obtain ⟨hrow, hcol, hval⟩ := regionEnds_of_layout hl hi
  have hlines : ∀ lo lines, (lo + cacheLineByte * lines - lo) / cacheLineByte = lines := by
    intro lo lines
    rw [Nat.add_sub_cancel_left, Nat.mul_div_cancel_left _ (by decide)]
  constructor
  · rintro ⟨hrow', hcol', -⟩
    rw [hrow, hlines] at hrow'
    rw [hcol, hlines] at hcol'
    exact ⟨hrow', hcol'⟩
  · rintro ⟨hrow', hcol'⟩
    exact ⟨by rw [hrow, hlines, hrow'], by rw [hcol, hlines, hcol'], by rw [hval, hlines, hcol']⟩

/-- With the right number of lines the rounds fit, unless a region is empty. -/
theorem roundsFit_iff (hl : GraphLayout g) (hi : i < g.archInfo.nOfEngine)
    (hfit : RegionsFit g i) : RoundsFit g i ↔ g.rowPtr i ≠ [] ∧ g.colIdx i ≠ [] := by
  obtain ⟨hrow, hcol, -⟩ := regionEnds_of_layout hl hi
  obtain ⟨hrow', hcol'⟩ := (regionsFit_iff hl hi).mp hfit
  have hrows := goesRound_vertexRequests g i
  have hcols := goesRound_edgeRequests g i
  rw [hrow, hrow'] at hrows
  rw [hcol, hcol'] at hcols
  constructor
  · rintro ⟨⟨k, hk, -⟩, ⟨l, hl, -⟩⟩
    have hpos := hrows.pos_of_count hk.1
    have hpos' := hcols.pos_of_count hl.1
    refine ⟨fun hnil => ?_, fun hnil => ?_⟩
    · rw [hnil] at hpos
      exact absurd hpos (by decide)
    · rw [hnil] at hpos'
      exact absurd hpos' (by decide)
  · rintro ⟨hne, hne'⟩
    have hpos := blocks_pos (b := cacheLineCount) (by decide) (List.length_pos_iff.mpr hne)
    have hpos' := blocks_pos (b := cacheLineCount) (by decide) (List.length_pos_iff.mpr hne')
    exact ⟨⟨_, hrows.isLeast hpos, isLeast_received_row g i⟩,
      ⟨_, hcols.isLeast hpos', isLeast_received_column g i⟩⟩

/-- The mapping is defined and the regions of engine `i` fit if and only if the sizes of its
arrays survive the rounding. -/
theorem mapped_regionsFit_iff (g : Globals) :
    (∃ g', mapGraph g = some g' ∧ ∀ i < g.archInfo.nOfEngine, RegionsFit g' i) ↔
      ∀ i < g.archInfo.nOfEngine,
        LinesExact (g.rowPtr i).length ∧ LinesExact (g.colIdx i).length := by
  constructor
  · rintro ⟨g', hmap, hfit⟩ i hi
    obtain ⟨hl, -, hrow, hcol, -, -, harch, -⟩ := mapGraph_spec hmap
    have hi' : i < g'.archInfo.nOfEngine := by
      rw [harch]
      exact hi
    obtain ⟨hrow', hcol'⟩ := (regionsFit_iff hl hi').mp (hfit i hi)
    rw [rowLines, hrow] at hrow'
    rw [colLines, hcol] at hcol'
    have hbytes := mapGraph_isSome_iff.mp ⟨g', hmap⟩
    exact ⟨(linesExact_iff _).mp ⟨hrow', (hbytes i hi).1⟩,
      (linesExact_iff _).mp ⟨hcol', (hbytes i hi).2⟩⟩
  · intro h
    obtain ⟨g', hmap⟩ := mapGraph_isSome_iff.mpr fun i hi =>
      ⟨((linesExact_iff _).mpr (h i hi).1).2, ((linesExact_iff _).mpr (h i hi).2).2⟩
    refine ⟨g', hmap, fun i hi => ?_⟩
    obtain ⟨hl, -, hrow, hcol, -, -, harch, -⟩ := mapGraph_spec hmap
    have hi' : i < g'.archInfo.nOfEngine := by
      rw [harch]
      exact hi
    refine (regionsFit_iff hl hi').mpr ⟨?_, ?_⟩
    · rw [rowLines, hrow]
      exact ((linesExact_iff _).mpr (h i hi).1).1
    · rw [colLines, hcol]
      exact ((linesExact_iff _).mpr (h i hi).2).1

/-- The lines reserved for every engine are as many as its arrays fill if and only if all
sizes survive the rounding; rounds of requests and of messages then have the same length if
and only if no array is empty. -/
theorem reservedLines_iff (g : Globals) :
    ((∃ g', mapGraph g = some g' ∧ ∀ i < g.archInfo.nOfEngine, RegionsFit g' i) ↔
        ∀ i < g.archInfo.nOfEngine,
          LinesExact (g.rowPtr i).length ∧ LinesExact (g.colIdx i).length) ∧
      ((∃ g', mapGraph g = some g' ∧
          ∀ i < g.archInfo.nOfEngine, RegionsFit g' i ∧ RoundsFit g' i) ↔
        ∀ i < g.archInfo.nOfEngine,
          (LinesExact (g.rowPtr i).length ∧ LinesExact (g.colIdx i).length) ∧
            g.rowPtr i ≠ [] ∧ g.colIdx i ≠ []) := by
  refine ⟨mapped_regionsFit_iff g, ?_⟩
  have hrounds : ∀ g', mapGraph g = some g' → ∀ i < g.archInfo.nOfEngine, RegionsFit g' i →
      (RoundsFit g' i ↔ g.rowPtr i ≠ [] ∧ g.colIdx i ≠ []) := by
    intro g' hmap i hi hfit
    obtain ⟨hl, -, hrow, hcol, -, -, harch, -⟩ := mapGraph_spec hmap
    rw [roundsFit_iff hl (by rw [harch]; exact hi) hfit, hrow, hcol]
  constructor
  · rintro ⟨g', hmap, hfit⟩ i hi
    refine ⟨(mapped_regionsFit_iff g).mp ⟨g', hmap, fun j hj => (hfit j hj).1⟩ i hi, ?_⟩
    exact (hrounds g' hmap i hi (hfit i hi).1).mp (hfit i hi).2
  · intro h
    obtain ⟨g', hmap, hfit⟩ := (mapped_regionsFit_iff g).mpr fun i hi => (h i hi).1
    exact ⟨g', hmap, fun i hi => ⟨hfit i hi, (hrounds g' hmap i hi (hfit i hi)).mpr (h i hi).2⟩⟩

/-! ## One row too many -/

/-- `n` vertices, each with an edge to the first. -/
def Graph.star (n : ℕ) (hn : 0 < n) : Graph where
  rowPtr := rowPtrOf (List.replicate n [0])
  colIdx := (List.replicate n [0]).flatten
  valid := validCsr_rowPtrOf _
  col_lt := by
    intro c hc
    obtain ⟨row, hrow, hmem⟩ := List.mem_flatten.mp hc
    rw [List.eq_of_mem_replicate hrow, List.mem_singleton] at hmem
    rw [hmem, length_rowPtrOf, List.length_replicate]
    exact hn

/-- The star on a single engine. -/
def Input.star (n : ℕ) (hn : 0 < n) : Input :=
  { Input.threeVertices with graph := .star n hn, nOfEngine := 1 }

/-- A single engine gets all rows. -/
theorem engineRows_star {hn : 0 < n} : (Input.star n hn).engineRows 0 = List.replicate n [0] := by
  have hall : (Input.star n hn).lacRows 0 =
      csrRows (Input.star n hn).graph.rowPtr (Input.star n hn).graph.colIdx := by
    rw [Input.lacRows, Sgcn.lacRows, csrRows]
    refine congrArg (List.map _) (List.filter_eq_self.mpr fun v _ => ?_)
    exact decide_eq_true (Nat.mod_one _)
  have htiles : ¬ 1 < (Input.star n hn).nTiles := lt_irrefl 1
  rw [Input.engineRows, if_neg htiles, hall]
  exact csrRows_rowPtrOf _

/-- The sizes of its arrays. -/
theorem length_star (hn : 0 < n) :
    ((transXW (Input.star n hn).xw (distribute (.star n hn))).rowPtr 0).length = n + 1 ∧
      ((transXW (Input.star n hn).xw (distribute (.star n hn))).colIdx 0).length = n ∧
      (transXW (Input.star n hn).xw (distribute (.star n hn))).archInfo.nOfEngine = 1 := by
  obtain ⟨hrow, hcol, hengines, -⟩ :=
    transXW_graph (Input.star n hn).xw (distribute (.star n hn))
  obtain ⟨hptr, hidx, -⟩ := distribute_engine (.star n hn) 0
  rw [hrow, hcol, hengines, hptr, hidx, engineRows_star, length_rowPtrOf, List.length_replicate,
    (distribute_info _).2]
  exact ⟨rfl, by simp, rfl⟩

theorem ceilDiv_star : ceilDiv (2 ^ 24 + 1) cacheLineCount = 2 ^ 20 := by
  have hround : Fp.roundNat 24 (2 ^ 24 + 1) = 2 ^ 24 := by
    have h := Fp.ofNat_two_pow_add_one (p := 24) (by decide)
    rw [Fp.ofNat_eq_roundNat (by decide)] at h
    exact_mod_cast h
  rw [ceilDiv_cacheLineCount, hround]
  norm_num

/-- With `2 ^ 24` vertices the rows fill one line more than there are. -/
theorem not_regionsFit_star :
    ∃ g', mapGraph (transXW (Input.star (2 ^ 24) (by decide)).xw
        (distribute (.star (2 ^ 24) (by decide)))) = some g' ∧
      0 < g'.archInfo.nOfEngine ∧ (g'.rowPtr 0).length = 2 ^ 24 + 1 ∧
      ((g'.dataIndex 0).rowAddrEnd - (g'.dataIndex 0).rowAddrStart) / cacheLineByte = 2 ^ 20 ∧
      ¬ RegionsFit g' 0 := by
  obtain ⟨hrows, hcols, hn⟩ := length_star (n := 2 ^ 24) (by decide)
  generalize transXW (Input.star (2 ^ 24) (by decide)).xw
    (distribute (.star (2 ^ 24) (by decide))) = g at *
  obtain ⟨g', hmap⟩ : ∃ g', mapGraph g = some g' := by
    refine mapGraph_isSome_iff.mpr fun i hi => ?_
    rw [hn] at hi
    obtain rfl : i = 0 := Nat.lt_one_iff.mp hi
    rw [hrows, hcols, lineBytes, lineBytes, ceilDiv_star, ceilDiv_eq le_rfl (by decide)]
    decide
  obtain ⟨hl, -, hrow, -, -, -, harch, -⟩ := mapGraph_spec hmap
  have hi : 0 < g'.archInfo.nOfEngine := by
    rw [harch]
    exact hn.ge
  have hlines : rowLines g' 0 = 2 ^ 20 := by
    rw [rowLines, hrow, hrows, ceilDiv_star]
  refine ⟨g', hmap, hi, by rw [hrow, hrows], ?_, fun hfit => ?_⟩
  · rw [(regionEnds_of_layout hl hi).1, Nat.add_sub_cancel_left,
      Nat.mul_div_cancel_left _ (by decide), hlines]
  · have heq := ((regionsFit_iff hl hi).mp hfit).1
    rw [hlines, hrow, hrows] at heq
    exact absurd heq (by decide)

end Sgcn

-- SUMMARY: In every run the graph lines an engine has asked for are those it has counted and those still on their way.
import Sgcn.System.Pipeline

/-!
# Graph lines in a run

A graph reader counts the lines it asks for and the lines it receives. In between a line
is in the transaction queue, inside DRAMsim3 or in the reply queue of its engine, and
nowhere else: no line is lost, and none is delivered to another engine or as another kind.
-/

namespace Sgcn

open FeatureReader

variable {inp : Input} {g : Globals} {c c' : Controller} {i j : ℕ} {kind : RType}

/-! ## Lines under way -/

/-- A read of a line of kind `kind` of engine `i`. -/
def IsGraphRead (g : Globals) (i : ℕ) (kind : RType) (t : Transaction) : Prop :=
  t.isWrite = false ∧ Memory.inRegion (g.dataIndex i) kind t.address = true

instance (g : Globals) (i : ℕ) (kind : RType) : DecidablePred (IsGraphRead g i kind) :=
  fun _ => inferInstanceAs (Decidable (_ ∧ _))

/-- The lines of kind `kind` on their way to engine `i`: in the transaction queue, inside
DRAMsim3, or answered and not yet taken. -/
def underWay (g : Globals) (i : ℕ) (kind : RType) (c : Controller) : ℕ :=
  c.fr.mem.tq.countP (IsGraphRead g i kind) + c.dram.countP (IsGraphRead g i kind) +
    (c.fr.mem.rq i).count kind

/-- A change that sorts no reply adds what it asks for. -/
theorem underWay_of_append {l : List Transaction} (htq : c'.fr.mem.tq = c.fr.mem.tq ++ l)
    (hdram : c'.dram = c.dram) (hrq : c'.fr.mem.rq i = c.fr.mem.rq i) :
    underWay g i kind c' = underWay g i kind c + l.countP (IsGraphRead g i kind) := by
  unfold underWay
  rw [htq, hdram, hrq, List.countP_append]
  omega

theorem underWay_of_addReads {l : List ℕ} (hmem : c'.fr.mem = c.fr.mem.addReads l)
    (hdram : c'.dram = c.dram) : underWay g i kind c' = underWay g i kind c +
      l.countP fun a => Memory.inRegion (g.dataIndex i) kind a := by
  rw [underWay_of_append (l := l.map fun a => ⟨a, false⟩) (by rw [hmem]; rfl) hdram
    (by rw [hmem]; rfl), List.countP_map]
  simp [Function.comp_def, IsGraphRead]

theorem underWay_setGr (c : Controller) (i : ℕ) (r : GraphReader) (l : List ℕ) :
    underWay g j kind (c.setGr i r (c.fr.mem.addReads l)) = underWay g j kind c +
      l.countP fun a => Memory.inRegion (g.dataIndex j) kind a := by
  apply underWay_of_addReads
  · rfl
  · rfl

/-- A feature line belongs to no region of the graph. -/
theorem not_inRegion_of_isCell (hlayout : GraphLayout g) (hi : i < g.archInfo.nOfEngine) {a : ℕ}
    (ha : IsCell g.archInfo a) : Memory.inRegion (g.dataIndex i) kind a = false := by
  refine Bool.eq_false_iff.mpr fun hreg => ?_
  exact absurd (hlayout.graphType_of_inRegion hi hreg).2 (Nat.not_lt.mpr ha.ge)

namespace GraphReader.OwnRegions

/-- What a reader asks for lies in its own regions. -/
theorem inRegion_row (ho : OwnRegions g i) (k : ℕ) : Memory.inRegion (g.dataIndex i) .row
    (lineAt (g.dataIndex i).rowAddrStart (rowLines g i) k) = true := by
  refine decide_eq_true ?_
  rw [ho.rowEnd_eq]
  exact lineAt_mem _ k ho.rowLines_pos

theorem inRegion_column (ho : OwnRegions g i) (k : ℕ) : Memory.inRegion (g.dataIndex i) .column
    (lineAt (g.dataIndex i).colAddrStart (colLines g i) k) = true := by
  refine decide_eq_true ?_
  rw [ho.colEnd_eq]
  exact lineAt_mem _ k ho.colLines_pos

theorem inRegion_value (ho : OwnRegions g i) (k : ℕ) : Memory.inRegion (g.dataIndex i) .value
    (lineAt (g.dataIndex i).valueAddrStart (colLines g i) k) = true := by
  refine decide_eq_true ?_
  rw [ho.valueEnd_eq]
  exact lineAt_mem _ k ho.colLines_pos

end GraphReader.OwnRegions

/-- A line of one engine and kind is none of another. -/
theorem inRegion_iff (hlayout : GraphLayout g) (hi : i < g.archInfo.nOfEngine)
    (hj : j < g.archInfo.nOfEngine) {kind' : RType} {a : ℕ}
    (ha : Memory.inRegion (g.dataIndex j) kind' a = true) :
    Memory.inRegion (g.dataIndex i) kind a = true ↔ i = j ∧ kind = kind' := by
  constructor
  · intro h
    obtain rfl : kind = kind' := (hlayout.graphType_of_inRegion hi h).1.symm.trans
      (hlayout.graphType_of_inRegion hj ha).1
    exact ⟨hlayout.engine_unique hi hj h ha, rfl⟩
  · rintro ⟨rfl, rfl⟩
    exact ha

/-! ## Counted lines -/

/-- `n` lines of an array of `size` elements have been counted: `count` complete rounds, and
the flag is raised after `bf` of them. -/
structure Counted (size bf n count : ℕ) (isOver : Bool) : Prop where
  count_eq : count = n / Window.blocks 16 size
  over_iff : isOver = true ↔ bf * Window.blocks 16 size ≤ n

theorem Counted.init {size bf : ℕ} (hbf : 0 < bf) (hsize : 0 < size) :
    Counted size bf 0 0 false where
  count_eq := (Nat.zero_div _).symm
  over_iff := by
    have := Nat.mul_pos hbf (Window.blocks_pos (b := 16) (by decide) hsize)
    simp only [Bool.false_eq_true, false_iff]
    omega

/-- The window is full exactly when a round is complete. -/
theorem advance_full_iff {size n : ℕ} (hsize : 0 < size) (overflow : ℤ) :
    (GraphReader.advance size (Window.endAt 16 size n) overflow).2.2 = true ↔
      n % Window.blocks 16 size + 1 = Window.blocks 16 size := by
  have hL := Window.blocks_pos (b := 16) (by decide) hsize
  have hmod := Nat.mod_lt n hL
  have hlt := Window.lt_blocks_iff (b := 16) (n := size) (by decide)
    (j := n % Window.blocks 16 size + 1)
  have hend : (GraphReader.advance size (Window.endAt 16 size n) overflow).2.2 = true ↔
      size ≤ (if Window.endAt 16 size n = size then 0 else Window.endAt 16 size n) + 16 := by
    simp only [GraphReader.advance, cacheLineCount]
    by_cases hge : size ≤ (if Window.endAt 16 size n = size then 0 else Window.endAt 16 size n) + 16
    · simp [hge]
    · simp [hge]
  have hnext : Window.endAt 16 size (n + 1) =
      min (16 * (n % Window.blocks 16 size + 1)) size := by
    simp [Window.endAt]
  rw [hend]
  by_cases hfull : Window.endAt 16 size n = size
  · have := (Window.next_of_full (by decide) hsize hfull).1
    rw [if_pos hfull]
    omega
  · have := (Window.next_of_not_full (by decide) hsize hfull).1
    have hle := Window.endAt_le (b := 16) (n := size) n
    rw [if_neg hfull]
    omega

theorem Counted.receive {size bf n count : ℕ} {isOver : Bool} (h : Counted size bf n count isOver)
    (hsize : 0 < size) (overflow : ℤ) :
    let full := (GraphReader.advance size (Window.endAt 16 size n) overflow).2.2
    let count' := if full then count + 1 else count
    Counted size bf (n + 1) count' (isOver || (full && decide (count' = bf))) := by
  have hL := Window.blocks_pos (b := 16) (by decide) hsize
  have hfull := advance_full_iff (n := n) hsize overflow
  have hover : bf * Window.blocks 16 size ≤ n ↔ bf ≤ count := by
    rw [h.count_eq, Nat.le_div_iff_mul_le hL]
  have hover' : bf * Window.blocks 16 size ≤ n + 1 ↔ bf ≤ (n + 1) / Window.blocks 16 size := by
    rw [Nat.le_div_iff_mul_le hL]
  have hcount := h.count_eq
  dsimp only
  rcases Rounds.succ_cases hL n with ⟨hlt, hdiv, -⟩ | ⟨heq, hdiv, -⟩
  · have hno := Bool.eq_false_iff.mpr (mt hfull.mp hlt.ne)
    rw [hno]
    refine ⟨by simp [hcount, hdiv], ?_⟩
    rw [hover', hdiv, ← hcount, ← hover, ← h.over_iff]
    simp
  · rw [hfull.mpr heq]
    refine ⟨by simp [hcount, hdiv], ?_⟩
    rw [hover', hdiv, ← hcount]
    simp only [Bool.or_eq_true, Bool.true_and, decide_eq_true_eq, if_true, h.over_iff, hover]
    omega

namespace GraphReader

variable {R C V k : ℕ} {r : GraphReader}

/-- The flags of a reader that has counted `R` row, `C` column and `V` value lines. Without
edge values the flag of these is up from the start. -/
structure Flags (g : Globals) (i R C V : ℕ) (r : GraphReader) : Prop where
  row : Counted (g.rowPtr i).length g.archInfo.bf R r.vReciCount r.vReciOver
  column : Counted (g.colIdx i).length g.archInfo.bf C r.eReciCount r.eReciOver
  value : g.archInfo.gnnMode = .gcn →
    Counted (g.colIdx i).length g.archInfo.bf V r.valReciCount r.valReciOver
  noValue : g.archInfo.gnnMode = .other → r.valReciOver = true
  reciOver_eq : r.reciOver = (r.vReciOver && r.eReciOver && r.valReciOver)

theorem Flags.init (hv : ValidCsr (g.rowPtr i) (g.colIdx i)) (hedge : 0 < (g.colIdx i).length)
    (hbf : 0 < g.archInfo.bf) : Flags g i 0 0 0 (.init g i) where
  row := .init hbf hv.length_pos
  column := .init hbf hedge
  value := fun hgcn => by
    simp only [GraphReader.init, hgcn, reduceCtorEq, decide_false]
    exact .init hbf hedge
  noValue := fun hother => decide_eq_true hother
  reciOver_eq := rfl

/-- What the reply flags of a reader depend on. -/
def flagsOf (r : GraphReader) : ℕ × ℕ × ℕ × Bool × Bool × Bool × Bool :=
  (r.vReciCount, r.eReciCount, r.valReciCount, r.vReciOver, r.eReciOver, r.valReciOver, r.reciOver)

theorem Flags.congr {r' : GraphReader} (h : Flags g i R C V r) (heq : r'.flagsOf = r.flagsOf) :
    Flags g i R C V r' := by
  simp only [flagsOf, Prod.mk.injEq] at heq
  obtain ⟨hvc, hec, hvalc, hv, he, hval, hover⟩ := heq
  refine ⟨?_, ?_, ?_, ?_, ?_⟩
  · rw [hvc, hv]; exact h.row
  · rw [hec, he]; exact h.column
  · rw [hvalc, hval]; exact h.value
  · rw [hval]; exact h.noValue
  · rw [hv, he, hval, hover]; exact h.reciOver_eq

/-- The flag of a reader is raised when those of the three kinds are. -/
theorem over_graphReceive (g : Globals) (i : ℕ) (reci : RType) {r : GraphReader}
    (h : r.reciOver = (r.vReciOver && r.eReciOver && r.valReciOver)) :
    (r.graphReceive g i reci).reciOver = ((r.graphReceive g i reci).vReciOver &&
      (r.graphReceive g i reci).eReciOver && (r.graphReceive g i reci).valReciOver) := by
  have hkeep : (r.receive g i reci).reciOver = r.reciOver ∧
      (r.vReciOver = true → (r.receive g i reci).vReciOver = true) ∧
      (r.eReciOver = true → (r.receive g i reci).eReciOver = true) ∧
      (r.valReciOver = true → (r.receive g i reci).valReciOver = true) := by
    cases reci <;> simp +contextual [receive]
  obtain ⟨hover, hv, he, hval⟩ := hkeep
  unfold graphReceive
  dsimp only
  split
  · next hall => exact hall.symm
  · next hall =>
    rw [hover, h, Bool.eq_false_iff.mpr hall, Bool.eq_false_iff]
    intro hold
    simp only [Bool.and_eq_true] at hold hall
    exact hall ⟨⟨hv hold.1.1, he hold.1.2⟩, hval hold.2⟩

theorem Flags.graphReceive (hv : ValidCsr (g.rowPtr i) (g.colIdx i))
    (hedge : 0 < (g.colIdx i).length) (hstream : StreamInv g i R C V k r)
    (h : Flags g i R C V r) (reci : RType) :
    Flags g i (bump reci .row R) (bump reci .column C) (bump reci .value V)
      (r.graphReceive g i reci) := by
  have hover := over_graphReceive g i reci h.reciOver_eq
  obtain ⟨isOver, heq⟩ := graphReceive_eq g i r reci
  rw [heq] at hover ⊢
  obtain ⟨w, hrows⟩ := hstream.rows
  cases reci with
  | row =>
    refine ⟨?_, h.column, h.value, h.noValue, hover⟩
    have := h.row.receive hv.length_pos r.rowOverflow
    rwa [← hrows.end_eq] at this
  | column =>
    refine ⟨h.row, ?_, h.value, h.noValue, hover⟩
    have := h.column.receive hedge r.colOverflow
    rwa [← hstream.colEnd_eq] at this
  | value =>
    refine ⟨h.row, h.column, fun hgcn => ?_, fun hother => ?_, hover⟩
    · have hvals := hstream.vals
      simp only [ValWindow, hgcn] at hvals
      have := (h.value hgcn).receive hedge r.valOverflow
      rwa [← hvals.1] at this
    · simp only [receive, h.noValue hother, Bool.true_or]
  | empty => exact ⟨h.row, h.column, h.value, h.noValue, hover⟩

theorem flagsOf_vertexRequest (g : Globals) (i : ℕ) (r : GraphReader) (m : Memory) :
    (r.vertexRequest g i m).1.flagsOf = r.flagsOf := by
  rw [vertexRequest_eq]
  split <;> rfl

theorem passOver_vertexRequest (g : Globals) (i : ℕ) (r : GraphReader) (m : Memory) :
    (r.vertexRequest g i m).1.passOver = r.passOver := by
  rw [vertexRequest_eq]
  split <;> rfl

theorem passOver_edgeRequest (g : Globals) (i : ℕ) (r : GraphReader) (m : Memory) :
    (r.edgeRequest g i m).1.passOver = r.passOver := by
  rw [edgeRequest_eq]
  split <;> rfl

theorem flagsOf_edgeRequest (g : Globals) (i : ℕ) (r : GraphReader) (m : Memory) :
    (r.edgeRequest g i m).1.flagsOf = r.flagsOf := by
  rw [edgeRequest_eq]
  split <;> rfl

theorem flagsOf_nextFeature {r' : GraphReader} {out : Option EdgeInfo}
    (h : r.nextFeature g i = some (r', out)) : r'.flagsOf = r.flagsOf := by
  unfold nextFeature at h
  split at h
  · cases h
    rfl
  · obtain ⟨t, ht, hpass⟩ := Option.bind_eq_some_iff.mp h
    have hframe : t.flagsOf = r.flagsOf := by
      rw [enterRows_frame ht]
      rfl
    have hwrap : ∀ size, (t.wrapCols size).flagsOf = t.flagsOf := by
      intro size
      unfold wrapCols
      split <;> rfl
    rw [← hframe]
    split at hpass
    · simp only [passEdge] at hpass
      split at hpass
      · cases hpass
        exact hwrap _
      · obtain ⟨dst, -, heq⟩ := Option.map_eq_some_iff.mp hpass
        cases heq
        exact hwrap _
    · cases hpass
      rfl

/-- A request moves no window and no cursor. -/
theorem StreamInv.vertexRequest (h : StreamInv g i R C V k r) (m : Memory) :
    StreamInv g i R C V k (r.vertexRequest g i m).1 := by
  obtain ⟨w, hrows⟩ := h.rows
  obtain ⟨⟨w', hrow⟩, hle, hpos, hcur, hlt⟩ := h.cursor
  rw [vertexRequest_eq]
  split
  · exact ⟨⟨⟨w', hrow.congr rfl rfl⟩, hle, hpos, hcur, hlt⟩, ⟨w, hrows.congr rfl rfl rfl rfl⟩,
      h.3, h.4, h.5, h.6, h.7⟩
  · exact h

theorem StreamInv.edgeRequest (h : StreamInv g i R C V k r) (m : Memory) :
    StreamInv g i R C V k (r.edgeRequest g i m).1 := by
  obtain ⟨w, hrows⟩ := h.rows
  obtain ⟨⟨w', hrow⟩, hle, hpos, hcur, hlt⟩ := h.cursor
  rw [edgeRequest_eq]
  split
  · exact ⟨⟨⟨w', hrow.congr rfl rfl⟩, hle, hpos, hcur, hlt⟩, ⟨w, hrows.congr rfl rfl rfl rfl⟩,
      h.3, h.4, h.5, h.6, h.7⟩
  · exact h

end GraphReader

/-! ## The invariant of an engine -/

/-- The value lines asked for beside `ke` column lines. -/
def valuesAsked (g : Globals) (ke : ℕ) : ℕ := if g.archInfo.gnnMode = .gcn then ke else 0

/-- Engine `i` has asked for `kv` row lines and `ke` column lines, has counted `R` row, `C`
column and `V` value lines, and has passed on `k` edges. What was asked for and is not counted
is under way, and the last edge was there when it was passed on. -/
structure EngineArrivals (g : Globals) (i kv ke R C V k : ℕ) (c : Controller) : Prop where
  asked : GraphReader.RequestInv g i kv ke (c.gr i)
  stream : GraphReader.StreamInv g i R C V k (c.gr i)
  flags : GraphReader.Flags g i R C V (c.gr i)
  row : kv = R + underWay g i .row c
  column : ke = C + underWay g i .column c
  value : valuesAsked g ke = V + underWay g i .value c
  kinds : .empty ∉ c.fr.mem.rq i
  passed : (c.gr i).passOver = true → k = g.archInfo.bf * (g.colIdx i).length
  last : 0 < k → GraphReader.Arrived g i R C V (k - 1)

/-- Every engine is in such a state. -/
def ArrivalInv (g : Globals) (c : Controller) : Prop :=
  ∀ i < g.archInfo.nOfEngine, ∃ kv ke R C V k, EngineArrivals g i kv ke R C V k c

variable {kv ke R C V k : ℕ}

theorem ArrivalInv.init (hp : Prepared inp g) (hbf : 0 < g.archInfo.bf)
    (hedge : ∀ i < g.archInfo.nOfEngine, 0 < (g.colIdx i).length) :
    ArrivalInv g (.init g) := by
  intro i hi
  have ho := GraphReader.OwnRegions.of_layout hp.layout hi (hp.valid i).length_pos (hedge i hi)
  exact ⟨0, 0, 0, 0, 0, 0, .init ho hbf, .init (hp.valid i) hbf,
    .init (hp.valid i) (hedge i hi) hbf, rfl, rfl, ite_self 0, List.not_mem_nil,
    fun h => (by cases h), fun h => absurd h (lt_irrefl 0)⟩

/-- What an engine's graph reader does not take part in. -/
theorem EngineArrivals.congr (h : EngineArrivals g i kv ke R C V k c) (hgr : c'.gr i = c.gr i)
    (hway : ∀ kind, underWay g i kind c' = underWay g i kind c)
    (hkinds : .empty ∉ c'.fr.mem.rq i) : EngineArrivals g i kv ke R C V k c' :=
  ⟨by rw [hgr]; exact h.asked, by rw [hgr]; exact h.stream, by rw [hgr]; exact h.flags,
    by rw [hway]; exact h.row, by rw [hway]; exact h.column, by rw [hway]; exact h.value, hkinds,
    by rw [hgr]; exact h.passed, h.last⟩

theorem ArrivalInv.congr (h : ArrivalInv g c) (hgr : c'.gr = c.gr)
    (hway : ∀ i < g.archInfo.nOfEngine, ∀ kind, underWay g i kind c' = underWay g i kind c)
    (hrq : ∀ i, .empty ∉ c.fr.mem.rq i → .empty ∉ c'.fr.mem.rq i) : ArrivalInv g c' := by
  intro i hi
  obtain ⟨kv, ke, R, C, V, k, hinv⟩ := h i hi
  exact ⟨kv, ke, R, C, V, k, hinv.congr (congrFun hgr i) (hway i hi) (hrq i hinv.kinds)⟩

/-- Reads of feature lines do not count. -/
theorem underWay_of_cells (hlayout : GraphLayout g) (hi : i < g.archInfo.nOfEngine) {l : List ℕ}
    (hmem : c'.fr.mem = c.fr.mem.addReads l) (hdram : c'.dram = c.dram)
    (hl : ∀ a ∈ l, IsCell g.archInfo a) : underWay g i kind c' = underWay g i kind c := by
  rw [underWay_of_addReads hmem hdram, Nat.add_eq_left, List.countP_eq_zero]
  intro a ha
  rw [not_inRegion_of_isCell hlayout hi (hl a ha)]
  decide

/-! ## Calls -/

namespace FeatureReader

variable {s s' : FeatureReader} {edges : List EdgeInfo} {out : List ℤ}

theorem request_cells {a : ℕ} (ha : IsCell g.archInfo a) :
    ∃ l, (s.request a).mem = s.mem.addReads l ∧ ∀ b ∈ l, IsCell g.archInfo b := by
  refine ⟨_, request_mem s a, fun b hb => ?_⟩
  split at hb
  · cases hb
  · rwa [List.mem_singleton.mp hb]

theorem Fetched.cells {a : ℕ} (h : Fetched a s s') (ha : IsCell g.archInfo a) :
    ∃ l, s'.mem = s.mem.addReads l ∧ ∀ b ∈ l, IsCell g.archInfo b := by
  obtain ⟨-, -, hmem⟩ | ⟨-, -, hmem⟩ := h.asks
  · exact ⟨[], hmem.trans (s.mem.addReads_nil).symm, by simp⟩
  · rw [hmem]
    exact request_cells ha

theorem begun_mem {t : FeatureReader} (h : s.begun i = some t) : t.mem = s.mem := by
  obtain ⟨-, rfl⟩ | ⟨ei, rest, -, -, rfl⟩ := begun_cases h <;> rfl

/-- `ReadNext` asks for cells of the table only. -/
theorem ReadEffect.cells (ht : PlanTable g) (hplan : PlanInv g edges out i s)
    (h : ReadEffect g i s s') :
    ∃ l, s'.mem = s.mem.addReads l ∧ ∀ a ∈ l, IsCell g.archInfo a := by
  cases h with
  | idle => exact ⟨[], (s.mem.addReads_nil).symm, by simp⟩
  | @await t b hbegun hwait =>
    have hcur := (begun_onPlan ht hplan.current hplan.pending hbegun).2
    obtain ⟨b', hb', hcell⟩ := ht.header hwait.headed _ hcur.dst_lt
    obtain rfl : b' = b := Option.some.inj (hb'.symm.trans hwait.header)
    rw [← begun_mem hbegun]
    exact request_cells hcell
  | line hbegun hread =>
    have hcur := (begun_onPlan ht hplan.current hplan.pending hbegun).2
    rw [← begun_mem hbegun]
    exact hread.fetched.cells
      (ht.cell _ hcur.dst_lt _ hcur.vFold_lt _ (List.mem_of_getElem? hread.line))

end FeatureReader

/-- So does `PassFtoSIMD`. -/
theorem PassEffect.cells {s s' : FeatureReader} {pass : ℤ} (h : PassEffect g i s pass s') :
    ∃ l, s'.mem = s.mem.addReads l ∧ ∀ a ∈ l, IsCell g.archInfo a := by
  cases h with
  | empty => exact ⟨[], (s.mem.addReads_nil).symm, by simp⟩
  | stall _ hcell => exact request_cells hcell
  | pass => exact ⟨[], (s.mem.addReads_nil).symm, by simp⟩

/-- The feature reader asks for cells only, in any call. -/
theorem EnginePipe.cells (he : Equipped inp g) {k : ℕ} {out : List ℤ} (h : EnginePipe g i k out c)
    (hreq : Outstanding g c.dram c.fr) :
    (∀ fr, c.fr.readNext g i = some fr →
      ∃ l, fr.mem = c.fr.mem.addReads l ∧ ∀ a ∈ l, IsCell g.archInfo a) ∧
    ∃ l, (c.fr.passFtoSIMD g i).2.mem = c.fr.mem.addReads l ∧ ∀ a ∈ l, IsCell g.archInfo a := by
  refine ⟨fun fr hfr => ?_, (h.lines.passFtoSIMD hreq.cache).1.cells⟩
  obtain ⟨fr', hfr', heffect⟩ := readNext_effect he.table hreq.cache h.lines.current h.lines.pending
  rw [hfr] at hfr'
  cases hfr'
  exact heffect.cells he.table h.lines

theorem countP_inRegion (hlayout : GraphLayout g) (hi : i < g.archInfo.nOfEngine)
    (hj : j < g.archInfo.nOfEngine) {kind' : RType} {a : ℕ}
    (ha : Memory.inRegion (g.dataIndex j) kind' a = true) :
    ([a].countP fun b => Memory.inRegion (g.dataIndex i) kind b) =
      if i = j ∧ kind = kind' then 1 else 0 := by
  rw [List.countP_singleton]
  exact if_congr (inRegion_iff hlayout hi hj ha) rfl rfl

/-- A reply that is taken leaves the reply queue. -/
theorem count_getGraph (m : Memory) (i : ℕ) (hkind : kind ≠ .empty) :
    (m.rq i).count kind =
      ((m.getGraph i).2.rq i).count kind + if (m.getGraph i).1 = kind then 1 else 0 := by
  unfold Memory.getGraph
  split
  · next hrq => rw [if_neg (Ne.symm hkind), Nat.add_zero]
  · next ret rest hrq =>
    simp only [hrq, List.count_cons, Function.update_self, beq_iff_eq]

/-- A call for engine `i` concerns the other engines when it sorts a reply or asks for a line
of theirs, which it never does. -/
theorem ArrivalInv.ofCall (h : ArrivalInv g c) (hgr : ∀ j, j ≠ i → c'.gr j = c.gr j)
    (hway : ∀ j < g.archInfo.nOfEngine, j ≠ i → ∀ kind,
      underWay g j kind c' = underWay g j kind c)
    (hrq : ∀ j, j ≠ i → c'.fr.mem.rq j = c.fr.mem.rq j)
    (hown : ∃ kv ke R C V k, EngineArrivals g i kv ke R C V k c') : ArrivalInv g c' := by
  intro j hj
  by_cases hji : j = i
  · subst hji
    exact hown
  · obtain ⟨kv, ke, R, C, V, k, hinv⟩ := h j hj
    exact ⟨kv, ke, R, C, V, k, hinv.congr (hgr j hji) (hway j hj hji)
      (by rw [hrq j hji]; exact hinv.kinds)⟩

@[simp] theorem setGr_gr_self (c : Controller) (i : ℕ) (r : GraphReader) (m : Memory) :
    (c.setGr i r m).gr i = r := Function.update_self _ _ _

theorem setGr_gr_of_ne (c : Controller) (r : GraphReader) (m : Memory) (h : j ≠ i) :
    (c.setGr i r m).gr j = c.gr j := Function.update_of_ne h _ _

theorem ArrivalInv.vertexRequest (hlayout : GraphLayout g) (hi : i < g.archInfo.nOfEngine)
    (ho : GraphReader.OwnRegions g i) (h : ArrivalInv g c) (hover : (c.gr i).vReqOver = false) :
    ArrivalInv g (c.setGr i ((c.gr i).vertexRequest g i c.fr.mem).1
      ((c.gr i).vertexRequest g i c.fr.mem).2) := by
  obtain ⟨kv, ke, R, C, V, k, hinv⟩ := h i hi
  have hstream := hinv.stream.vertexRequest c.fr.mem
  have hflags := hinv.flags.congr (GraphReader.flagsOf_vertexRequest g i (c.gr i) c.fr.mem)
  rcases hinv.asked.vertexRequest (m := c.fr.mem) ho hover with hsame | ⟨r, hreq, hasked⟩
  · rw [hsame]
    exact h.ofCall (i := i) (fun j hj => setGr_gr_of_ne _ _ _ hj) (fun _ _ _ _ => rfl)
      (fun _ _ => rfl)
      ⟨kv, ke, R, C, V, k, hinv.congr (setGr_gr_self _ _ _ _) (fun _ => rfl) hinv.kinds⟩
  · rw [hreq] at hstream hflags ⊢
    have hway : ∀ j < g.archInfo.nOfEngine, ∀ kind, underWay g j kind (c.setGr i r (c.fr.mem.addReads
        [GraphReader.lineAt (g.dataIndex i).rowAddrStart (GraphReader.rowLines g i) kv])) =
          underWay g j kind c + if j = i ∧ kind = .row then 1 else 0 := by
      intro j hj kind
      rw [underWay_setGr, countP_inRegion hlayout hj hi (ho.inRegion_row kv)]
    refine h.ofCall (i := i) (fun j hj => setGr_gr_of_ne _ _ _ hj) (fun j hj hji kind => ?_)
      (fun _ _ => rfl) ⟨kv + 1, ke, R, C, V, k, ?_, ?_, ?_, ?_, ?_, ?_, hinv.kinds, ?_, hinv.last⟩
    · rw [hway j hj, if_neg (fun h => hji h.1), Nat.add_zero]
    · rw [setGr_gr_self]
      exact hasked
    · rw [setGr_gr_self]
      exact hstream
    · rw [setGr_gr_self]
      exact hflags
    · rw [hway i hi, if_pos ⟨rfl, rfl⟩, hinv.row, Nat.add_assoc]
    · rw [hway i hi, if_neg (fun h => by cases h.2), Nat.add_zero, ← hinv.column]
    · rw [hway i hi, if_neg (fun h => by cases h.2), Nat.add_zero, ← hinv.value]
    · have hpass := GraphReader.passOver_vertexRequest g i (c.gr i) c.fr.mem
      rw [hreq] at hpass
      rw [setGr_gr_self, hpass]
      exact hinv.passed

theorem ArrivalInv.edgeRequest (hlayout : GraphLayout g) (hi : i < g.archInfo.nOfEngine)
    (ho : GraphReader.OwnRegions g i) (h : ArrivalInv g c) (hover : (c.gr i).eReqOver = false) :
    ArrivalInv g (c.setGr i ((c.gr i).edgeRequest g i c.fr.mem).1
      ((c.gr i).edgeRequest g i c.fr.mem).2) := by
  obtain ⟨kv, ke, R, C, V, k, hinv⟩ := h i hi
  have hstream := hinv.stream.edgeRequest c.fr.mem
  have hflags := hinv.flags.congr (GraphReader.flagsOf_edgeRequest g i (c.gr i) c.fr.mem)
  rcases hinv.asked.edgeRequest (m := c.fr.mem) ho hover with hsame | ⟨r, hreq, hasked⟩
  · rw [hsame]
    exact h.ofCall (i := i) (fun j hj => setGr_gr_of_ne _ _ _ hj) (fun _ _ _ _ => rfl)
      (fun _ _ => rfl)
      ⟨kv, ke, R, C, V, k, hinv.congr (setGr_gr_self _ _ _ _) (fun _ => rfl) hinv.kinds⟩
  · rw [hreq] at hstream hflags ⊢
    have hway : ∀ j < g.archInfo.nOfEngine, ∀ kind,
        underWay g j kind (c.setGr i r (c.fr.mem.addReads (GraphReader.edgeLines g i ke))) =
          underWay g j kind c + ((if j = i ∧ kind = .column then 1 else 0) +
            if g.archInfo.gnnMode = .gcn then if j = i ∧ kind = .value then 1 else 0 else 0) := by
      intro j hj kind
      rw [underWay_setGr, GraphReader.edgeLines, ← List.singleton_append, List.countP_append,
        countP_inRegion hlayout hj hi (ho.inRegion_column ke)]
      by_cases hgcn : g.archInfo.gnnMode = .gcn
      · rw [if_pos hgcn, if_pos hgcn, countP_inRegion hlayout hj hi (ho.inRegion_value ke)]
      · rw [if_neg hgcn, if_neg hgcn, List.countP_nil]
    refine h.ofCall (i := i) (fun j hj => setGr_gr_of_ne _ _ _ hj) (fun j hj hji kind => ?_)
      (fun _ _ => rfl) ⟨kv, ke + 1, R, C, V, k, ?_, ?_, ?_, ?_, ?_, ?_, hinv.kinds, ?_, hinv.last⟩
    · simp [hway j hj, hji]
    · rw [setGr_gr_self]
      exact hasked
    · rw [setGr_gr_self]
      exact hstream
    · rw [setGr_gr_self]
      exact hflags
    · simpa [hway i hi] using hinv.row
    · have hcolumn := hinv.column
      simp only [hway i hi, reduceCtorEq, and_false, if_false, and_self, if_true, ite_self]
      omega
    · have hvalue := hinv.value
      unfold valuesAsked at hvalue ⊢
      simp only [hway i hi, reduceCtorEq, and_false, if_false, and_self, if_true]
      by_cases hgcn : g.archInfo.gnnMode = .gcn
      · simp only [hgcn, if_true] at hvalue ⊢
        omega
      · simp only [hgcn, if_false] at hvalue ⊢
        omega
    · have hpass := GraphReader.passOver_edgeRequest g i (c.gr i) c.fr.mem
      rw [hreq] at hpass
      rw [setGr_gr_self, hpass]
      exact hinv.passed

theorem bump_eq (reci kind : RType) (n : ℕ) :
    GraphReader.bump reci kind n = n + if reci = kind then 1 else 0 := by
  unfold GraphReader.bump
  split <;> rfl

theorem le_bump (reci kind : RType) (n : ℕ) : n ≤ GraphReader.bump reci kind n := by
  rw [bump_eq]
  exact Nat.le_add_right n _

/-- More lines do no harm. -/
theorem GraphReader.Arrived.mono {R' C' V' : ℕ} (h : Arrived g i R C V k) (hR : R ≤ R')
    (hC : C ≤ C') (hV : V ≤ V') : Arrived g i R' C' V' k := by
  obtain ⟨⟨row, hrow, hlo, hhi, hreceived⟩, hcol, hval⟩ := h
  exact ⟨⟨row, hrow, hlo, hhi, hreceived.trans_le hR⟩, hcol.trans_le hC,
    fun hgcn => (hval hgcn).trans_le hV⟩

theorem ArrivalInv.graphReceive (hp : Prepared inp g) (hi : i < g.archInfo.nOfEngine)
    (hedge : 0 < (g.colIdx i).length) (h : ArrivalInv g c) :
    ArrivalInv g (c.setGr i ((c.gr i).graphReceive g i (c.fr.mem.getGraph i).1)
      (c.fr.mem.getGraph i).2) := by
  obtain ⟨kv, ke, R, C, V, k, hinv⟩ := h i hi
  have htq : (c.fr.mem.getGraph i).2.tq = c.fr.mem.tq := by
    unfold Memory.getGraph
    split <;> rfl
  have hrq : ∀ j, j ≠ i → (c.fr.mem.getGraph i).2.rq j = c.fr.mem.rq j := by
    intro j hj
    unfold Memory.getGraph
    split
    · rfl
    · exact Function.update_of_ne hj _ _
  have hway : ∀ kind, kind ≠ .empty →
      underWay g i kind (c.setGr i ((c.gr i).graphReceive g i (c.fr.mem.getGraph i).1)
        (c.fr.mem.getGraph i).2) + (if (c.fr.mem.getGraph i).1 = kind then 1 else 0) =
        underWay g i kind c := by
    intro kind hkind
    have hcount := count_getGraph c.fr.mem i hkind
    simp only [underWay, Controller.setGr, htq]
    omega
  have hkinds : .empty ∉ (c.fr.mem.getGraph i).2.rq i := by
    have hold := hinv.kinds
    unfold Memory.getGraph
    split
    · exact hold
    · next hrq' =>
      rw [hrq'] at hold
      simp only [Function.update_self]
      exact fun hmem => hold (List.mem_cons_of_mem _ hmem)
  refine h.ofCall (i := i) (fun j hj => setGr_gr_of_ne _ _ _ hj) (fun j hj hji kind => ?_) hrq
    ⟨kv, ke, GraphReader.bump (c.fr.mem.getGraph i).1 .row R,
      GraphReader.bump (c.fr.mem.getGraph i).1 .column C,
      GraphReader.bump (c.fr.mem.getGraph i).1 .value V, k, ?_, ?_, ?_, ?_, ?_, ?_, hkinds, ?_,
      fun hk => (hinv.last hk).mono (le_bump _ _ _) (le_bump _ _ _) (le_bump _ _ _)⟩
  · simp only [underWay, Controller.setGr, htq, hrq j hji]
  · rw [setGr_gr_self]
    exact hinv.asked.congr (GraphReader.requests_graphReceive _)
  · rw [setGr_gr_self]
    exact hinv.stream.graphReceive (hp.valid i) hedge _
  · rw [setGr_gr_self]
    exact hinv.flags.graphReceive (hp.valid i) hedge hinv.stream _
  · rw [hinv.row, ← hway .row (by decide), bump_eq, Nat.add_assoc, Nat.add_comm (ite _ _ _)]
  · rw [hinv.column, ← hway .column (by decide), bump_eq, Nat.add_assoc, Nat.add_comm (ite _ _ _)]
  · rw [hinv.value, ← hway .value (by decide), bump_eq, Nat.add_assoc, Nat.add_comm (ite _ _ _)]
  · obtain ⟨isOver, heq⟩ := GraphReader.graphReceive_eq g i (c.gr i) (c.fr.mem.getGraph i).1
    have hpass := (GraphReader.receive_frame g i (c.gr i) (c.fr.mem.getGraph i).1).2.2.2.2.2
    rw [setGr_gr_self, heq]
    simp only [hpass]
    exact hinv.passed

theorem ArrivalInv.nextFeature (hp : Prepared inp g) (hi : i < g.archInfo.nOfEngine)
    (hedge : 0 < (g.colIdx i).length) (h : ArrivalInv g c) (hpass : (c.gr i).passOver = false)
    {r : GraphReader} {next : Option EdgeInfo}
    (hnext : (c.gr i).nextFeature g i = some (r, next)) :
    ArrivalInv g (c.setGr i r c.fr.mem) := by
  obtain ⟨kv, ke, R, C, V, k, hinv⟩ := h i hi
  obtain ⟨r', next', hnext', hcases⟩ := hinv.stream.nextFeature (hp.valid i) hedge
  rw [hnext] at hnext'
  cases hnext'
  -- the flag is raised at the end of the stream only
  obtain ⟨k', hstream, hpassed, hlast⟩ : ∃ k', GraphReader.StreamInv g i R C V k' r ∧
      (r.passOver = true → k' = g.archInfo.bf * (g.colIdx i).length) ∧
      (0 < k' → GraphReader.Arrived g i R C V (k' - 1)) := by
    rcases hcases with ⟨hend, -, hstream, -⟩ | ⟨-, -, -, hstream, hflag⟩ |
      ⟨-, harrived, -, hstream, hflag⟩
    · exact ⟨k, hstream, fun _ => hend, hinv.last⟩
    · exact ⟨k, hstream, fun hr => absurd (hflag.symm.trans hr) (by simp [hpass]), hinv.last⟩
    · exact ⟨k + 1, hstream, fun hr => absurd (hflag.symm.trans hr) (by simp [hpass]),
        fun _ => harrived⟩
  refine h.ofCall (i := i) (fun j hj => setGr_gr_of_ne _ _ _ hj) (fun _ _ _ _ => rfl)
    (fun _ _ => rfl)
    ⟨kv, ke, R, C, V, k', ?_, ?_, ?_, hinv.row, hinv.column, hinv.value, hinv.kinds, ?_, hlast⟩
  · rw [setGr_gr_self]
    exact hinv.asked.congr (GraphReader.requests_nextFeature hnext)
  · rw [setGr_gr_self]
    exact hstream
  · rw [setGr_gr_self]
    exact hinv.flags.congr (GraphReader.flagsOf_nextFeature hnext)
  · rw [setGr_gr_self]
    exact hpassed

theorem ArrivalInv.call (he : Equipped inp g) (hi : i < g.archInfo.nOfEngine)
    (hpipe : Pipeline g c) (h : ArrivalInv g c)
    {call : EngineCall} (hcall : c.call g i call = some c') : ArrivalInv g c' := by
  have ho := he.ownRegions hi
  have hedge := he.edge_pos i hi
  obtain ⟨n, out, hengine⟩ := hpipe.engines i
  have hcells := hengine.cells he hpipe.requests
  cases call with
  | vertexRequest =>
    simp only [Controller.call] at hcall
    split at hcall <;> cases hcall
    · exact h
    · next hover => exact h.vertexRequest he.layout hi ho (by simpa using hover)
  | edgeRequest =>
    simp only [Controller.call] at hcall
    split at hcall <;> cases hcall
    · exact h
    · next hover => exact h.edgeRequest he.layout hi ho (by simpa using hover)
  | graphReceive =>
    cases call_effect hcall with
    | skip => exact h
    | graphReceive => exact h.graphReceive he.toPrepared hi hedge
  | nextFeature =>
    cases hpass : (c.gr i).passOver with
    | true =>
      simp only [Controller.call, hpass, if_true] at hcall
      cases hcall
      exact h
    | false =>
      cases call_effect hcall with
      | skip => exact h
      | noFeature hnext => exact h.nextFeature he.toPrepared hi hedge hpass hnext
      | nextFeature hnext =>
        exact (h.nextFeature he.toPrepared hi hedge hpass hnext).congr rfl (fun _ _ _ => rfl)
          fun _ => id
  | readNext =>
    cases call_effect hcall with
    | skip => exact h
    | readNext hfr =>
      obtain ⟨l, hmem, hl⟩ := hcells.1 _ hfr
      refine h.congr rfl (fun j hj kind => underWay_of_cells he.layout hj hmem rfl hl) fun j => ?_
      rw [hmem]
      exact id
  | passFtoSIMD =>
    cases call_effect hcall with
    | skip => exact h
    | passFtoSIMD =>
      obtain ⟨l, hmem, hl⟩ := hcells.2
      refine h.congr rfl (fun j hj kind => underWay_of_cells he.layout hj hmem rfl hl) fun j => ?_
      rw [hmem]
      exact id
  | write =>
    cases call_effect hcall with
    | skip => exact h
    | write =>
      refine h.congr rfl (fun j hj kind => ?_) fun _ => id
      simp [underWay, Memory.addTransaction, IsGraphRead]

/-! ## Every run -/

/-- The reply to a read moves a line of the graph from DRAMsim3 to its reply queue, and
leaves the others where they are. -/
theorem underWay_readReply (hlayout : GraphLayout g) (hi : i < g.archInfo.nOfEngine) {a : ℕ}
    {m : Memory} (hmem : ⟨a, false⟩ ∈ c.dram) (hreply : c.fr.mem.readCompleteCallback g a = some m)
    (kind : RType) :
    underWay g i kind { c with fr := { c.fr with mem := m }, dram := c.dram.erase ⟨a, false⟩ } =
      underWay g i kind c := by
  have hdram : c.dram.countP (IsGraphRead g i kind) =
      (c.dram.erase ⟨a, false⟩).countP (IsGraphRead g i kind) +
        if IsGraphRead g i kind ⟨a, false⟩ then 1 else 0 := by
    conv_lhs => rw [← Multiset.cons_erase hmem]
    rw [Multiset.countP_cons]
  have htq := (readCompleteCallback_frame hreply).1
  rcases Nat.lt_or_ge a g.archInfo.xwEleAddrStart with hlt | hge
  · obtain ⟨j, hj, hreg⟩ := hlayout.exists_engine hlt
    rw [hlayout.readCompleteCallback_of_inRegion hj hreg] at hreply
    cases hreply
    have hiff : IsGraphRead g i kind ⟨a, false⟩ ↔
        i = j ∧ kind = Memory.graphType g.archInfo a :=
      (and_iff_right rfl).trans (inRegion_iff hlayout hi hj hreg)
    unfold underWay
    dsimp only
    rw [hdram, if_congr hiff rfl rfl]
    by_cases hij : i = j
    · subst hij
      rw [Function.update_self, List.count_append, List.count_singleton]
      by_cases hkind : kind = Memory.graphType g.archInfo a
      · simp only [hkind, and_self, if_true, beq_self_eq_true]
        omega
      · simp [hkind, Ne.symm hkind]
    · simp [hij]
  · rw [GraphLayout.readCompleteCallback_feature hge] at hreply
    cases hreply
    have hnot : ¬ IsGraphRead g i kind ⟨a, false⟩ := fun h =>
      absurd (hlayout.graphType_of_inRegion hi h.2).2 (Nat.not_lt.mpr hge)
    unfold underWay
    dsimp only
    rw [hdram, if_neg hnot, Nat.add_zero]

/-- Every reply has a kind. -/
theorem empty_notMem_readReply {m m' : Memory} {a : ℕ} (hreply : m.readCompleteCallback g a = some m')
    (i : ℕ) (h : .empty ∉ m.rq i) : .empty ∉ m'.rq i := by
  have hkind : Memory.graphType g.archInfo a ≠ .empty := by
    unfold Memory.graphType
    split
    · decide
    · split <;> decide
  unfold Memory.readCompleteCallback at hreply
  dsimp only at hreply
  split at hreply
  · split at hreply
    · next j _ =>
      cases hreply
      by_cases hij : i = j
      · subst hij
        simp only [Function.update_self, List.mem_append, List.mem_singleton]
        exact fun hmem => hmem.elim h fun heq => hkind heq.symm
      · simpa only [Function.update_of_ne hij] using h
    · cases hreply
  · split at hreply <;> cases hreply <;> exact h

theorem Equipped.arrivals (he : Equipped inp g) {s : Config} (hs : s.Reachable g) :
    ArrivalInv g s.ctr := by
  refine Machine.Reachable.inv (I := fun s => ArrivalInv g s.ctr) hs
    (.init he.toPrepared he.bf_pos he.edge_pos) ?_
  intro t t' hreach h hstep
  cases hstep with
  | call hcall => exact h.call he (engine_lt_of_reachable hreach rfl) (he.pipeline hreach) hcall
  | featureReceive =>
    rw [featureReceive_eq]
    exact h.congr rfl (fun _ _ _ => rfl) fun _ => id
  | accept htq =>
    refine h.congr rfl (fun i _ kind => ?_) fun _ => id
    simp only [underWay, htq, List.countP_cons, Multiset.countP_cons, decide_eq_true_eq]
    omega
  | readReply hmem hreply =>
    exact h.congr rfl (fun i hi kind => underWay_readReply he.layout hi hmem hreply kind)
      fun i => empty_notMem_readReply hreply i
  | writeReply hmem =>
    refine h.congr rfl (fun i _ kind => ?_) fun _ => id
    simp only [underWay, Memory.writeCompleteCallback]
    conv_rhs => rw [← Multiset.cons_erase hmem]
    rw [Multiset.countP_cons_of_neg]
    simp [IsGraphRead]
  | refuse => exact h
  | tick => exact h
  | again => exact h
  | exit => exact h

/-! ## The end of the replies -/

theorem rowLines_eq_blocks (h : (g.rowPtr i).length ≤ 2 ^ 24) :
    GraphReader.rowLines g i = Window.blocks 16 (g.rowPtr i).length :=
  ceilDiv_eq h (by decide)

theorem colLines_eq_blocks (h : (g.colIdx i).length ≤ 2 ^ 24) :
    GraphReader.colLines g i = Window.blocks 16 (g.colIdx i).length :=
  ceilDiv_eq h (by decide)

theorem underWay_empty (h : EngineArrivals g i kv ke R C V k c) : underWay g i .empty c = 0 := by
  have hnot : ∀ t, ¬ IsGraphRead g i .empty t := fun t ht => (by cases ht.2)
  rw [underWay, List.countP_eq_zero.mpr fun t _ => by simpa using hnot t,
    Multiset.countP_eq_zero.mpr fun t _ => hnot t, List.count_eq_zero.mpr h.kinds]

/-- The flag of a reader is up exactly when it has asked for everything and nothing is under
way to it. -/
theorem EngineArrivals.reciOver_iff (hrow : (g.rowPtr i).length ≤ 2 ^ 24)
    (hcol : (g.colIdx i).length ≤ 2 ^ 24) (h : EngineArrivals g i kv ke R C V k c) :
    (c.gr i).reciOver = true ↔ (c.gr i).vReqOver = true ∧ (c.gr i).eReqOver = true ∧
      ∀ kind, underWay g i kind c = 0 := by
  have hrows := h.asked.rows
  have hcols := h.asked.cols
  rw [rowLines_eq_blocks hrow] at hrows
  rw [colLines_eq_blocks hcol] at hcols
  have hkv := hrows.le
  have hke := hcols.le
  have hR := h.row
  have hC := h.column
  have hV := h.value
  unfold valuesAsked at hV
  rw [h.flags.reciOver_eq, Bool.and_eq_true, Bool.and_eq_true, h.flags.row.over_iff,
    h.flags.column.over_iff, hrows.over_iff, hcols.over_iff]
  constructor
  · rintro ⟨⟨hr, hc⟩, hval⟩
    refine ⟨by omega, by omega, fun kind => ?_⟩
    cases kind with
    | row => omega
    | column => omega
    | value =>
      cases hmode : g.archInfo.gnnMode with
      | gcn =>
        rw [(h.flags.value hmode).over_iff] at hval
        rw [if_pos hmode] at hV
        omega
      | other =>
        rw [if_neg (by simp [hmode])] at hV
        omega
    | empty => exact underWay_empty h
  · rintro ⟨hv, he, hnone⟩
    have hr := hnone .row
    have hc := hnone .column
    have hval := hnone .value
    refine ⟨⟨by omega, by omega⟩, ?_⟩
    cases hmode : g.archInfo.gnnMode with
    | gcn =>
      rw [(h.flags.value hmode).over_iff]
      rw [if_pos hmode] at hV
      omega
    | other => exact h.flags.noValue hmode

/-- When the flag is up, every edge to come has arrived. -/
theorem EngineArrivals.arrived (hv : ValidCsr (g.rowPtr i) (g.colIdx i))
    (h : EngineArrivals g i kv ke R C V k c) (hover : (c.gr i).reciOver = true)
    (hk : k < g.archInfo.bf * (g.colIdx i).length) : GraphReader.Arrived g i R C V k := by
  have hedge : 0 < (g.colIdx i).length := by
    by_contra hzero
    rw [Nat.eq_zero_of_not_pos hzero] at hk
    simp at hk
  have hmod := Nat.mod_lt k hedge
  have hfold : k / (g.colIdx i).length < g.archInfo.bf := (Nat.div_lt_iff_lt_mul hedge).mpr hk
  rw [h.flags.reciOver_eq, Bool.and_eq_true, Bool.and_eq_true, h.flags.row.over_iff,
    h.flags.column.over_iff] at hover
  obtain ⟨⟨hr, hc⟩, hval⟩ := hover
  obtain ⟨row, hrow, hlo, hhi⟩ := hv.exists_row hmod
  refine ⟨⟨row, hrow, hlo, hhi, Window.received_of_rounds (by decide) hr hfold hrow⟩,
    Window.received_of_rounds (by decide) hc hfold hmod, fun hgcn => ?_⟩
  rw [(h.flags.value hgcn).over_iff] at hval
  exact Window.received_of_rounds (by decide) hval hfold hmod

end Sgcn

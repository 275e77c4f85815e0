-- SUMMARY: How many graph lines a run reads: at most `bf` passes over every engine's arrays, and exactly that many if no engine's rows end with empty ones.
import Sgcn.System.Traffic

/-!
# Graph traffic

Every graph line that an engine has asked for is in the transaction queue, inside DRAMsim3, or
has been counted in `g_access`. When the loop is left, every engine has passed on all its
edges, so that all columns and values have arrived, and the rows up to the last one with an
edge.
-/

namespace Sgcn

open FeatureReader

variable {inp : Input} {g : Globals} {c c' : Controller} {i : ℕ}

/-! ## The ledger -/

/-- A read of a line of the graph. -/
def IsGraphLine (g : Globals) (t : Transaction) : Prop :=
  t.isWrite = false ∧ t.address < g.archInfo.xwEleAddrStart

instance (g : Globals) : DecidablePred (IsGraphLine g) :=
  fun _ => inferInstanceAs (Decidable (_ ∧ _))

/-- The graph lines in the transaction queue and inside DRAMsim3. -/
def graphReads (g : Globals) (c : Controller) : ℕ :=
  c.fr.mem.tq.countP (IsGraphLine g) + c.dram.countP (IsGraphLine g)

/-- The graph lines that a reader has asked for. -/
def graphAsked (g : Globals) (i : ℕ) (r : GraphReader) : ℕ :=
  rowsAsked g i r + (colsAsked g i r + valuesAsked g (colsAsked g i r))

/-- What has been asked for is counted or on its way. -/
def GraphLedger (g : Globals) (c : Controller) : Prop :=
  c.fr.mem.gAccess + graphReads g c =
    ∑ i ∈ Finset.range g.archInfo.nOfEngine, graphAsked g i (c.gr i)

theorem GraphLedger.congr (h : GraphLedger g c)
    (hasked : ∀ i, graphAsked g i (c'.gr i) = graphAsked g i (c.gr i))
    (hbalance : c'.fr.mem.gAccess + graphReads g c' = c.fr.mem.gAccess + graphReads g c) :
    GraphLedger g c' := by
  unfold GraphLedger
  rw [hbalance, h]
  exact Finset.sum_congr rfl fun i _ => (hasked i).symm

theorem countP_addReads (m : Memory) (l : List ℕ) :
    (m.addReads l).tq.countP (IsGraphLine g) = m.tq.countP (IsGraphLine g) +
      l.countP fun a => a < g.archInfo.xwEleAddrStart := by
  rw [Memory.addReads, List.countP_append, List.countP_map]
  simp [Function.comp_def, IsGraphLine]

/-- A reader that asks for lines of the graph. -/
theorem GraphLedger.setGr (hi : i < g.archInfo.nOfEngine) (h : GraphLedger g c) {r : GraphReader}
    {l : List ℕ} (hl : ∀ a ∈ l, a < g.archInfo.xwEleAddrStart)
    (hasked : graphAsked g i r = graphAsked g i (c.gr i) + l.length) :
    GraphLedger g (c.setGr i r (c.fr.mem.addReads l)) := by
  have hcount : l.countP (fun a => decide (a < g.archInfo.xwEleAddrStart)) = l.length :=
    List.countP_eq_length.mpr fun a ha => decide_eq_true (hl a ha)
  have hmem : i ∈ Finset.range g.archInfo.nOfEngine := Finset.mem_range.mpr hi
  have hrest : ∑ j ∈ (Finset.range g.archInfo.nOfEngine).erase i,
      graphAsked g j ((c.setGr i r (c.fr.mem.addReads l)).gr j) =
        ∑ j ∈ (Finset.range g.archInfo.nOfEngine).erase i, graphAsked g j (c.gr j) := by
    refine Finset.sum_congr rfl fun j hj => ?_
    rw [setGr_gr_of_ne _ _ _ (Finset.ne_of_mem_erase hj)]
  have hold : c.fr.mem.gAccess + graphReads g c = _ := h
  rw [← Finset.add_sum_erase _ _ hmem] at hold
  unfold GraphLedger
  rw [← Finset.add_sum_erase _ _ hmem, hrest, setGr_gr_self, hasked]
  unfold graphReads at hold ⊢
  dsimp only [Controller.setGr]
  rw [countP_addReads, hcount]
  have hg : (c.fr.mem.addReads l).gAccess = c.fr.mem.gAccess := rfl
  omega

theorem graphAsked_of_requests {r r' : GraphReader} (h : r'.requests = r.requests) :
    graphAsked g i r' = graphAsked g i r := by
  obtain ⟨hrows, hcols⟩ := rowsAsked_of_requests (g := g) (i := i) h
  rw [graphAsked, graphAsked, hrows, hcols]

theorem graphAsked_setGr {r : GraphReader} {m : Memory} (h : r.requests = (c.gr i).requests)
    (j : ℕ) : graphAsked g j ((c.setGr i r m).gr j) = graphAsked g j (c.gr j) := by
  by_cases hj : j = i
  · subst hj
    rw [setGr_gr_self, graphAsked_of_requests h]
  · rw [setGr_gr_of_ne _ _ _ hj]

/-! ## Calls -/

theorem GraphLedger.vertexRequest (hw : Workload inp g) (hi : i < g.archInfo.nOfEngine)
    (harr : ArrivalInv g c) (hover : (c.gr i).vReqOver = false) (h : GraphLedger g c) :
    GraphLedger g (c.setGr i ((c.gr i).vertexRequest g i c.fr.mem).1
      ((c.gr i).vertexRequest g i c.fr.mem).2) := by
  have ho := hw.ownRegions hi
  obtain ⟨kv, ke, R, C, V, k, hinv⟩ := harr i hi
  rcases hinv.asked.vertexRequest (m := c.fr.mem) ho hover with hsame | ⟨r, hreq, hasked⟩
  · rw [hsame]
    exact h.congr (graphAsked_setGr rfl) rfl
  · rw [hreq]
    refine h.setGr hi (fun a ha => ?_) ?_
    · rw [List.mem_singleton.mp ha]
      exact (hw.layout.graphType_of_inRegion hi (ho.inRegion_row kv)).2
    · obtain ⟨hrows, hcols⟩ := asked_of_requestInv hinv.asked
      obtain ⟨hrows', hcols'⟩ := asked_of_requestInv hasked
      rw [graphAsked, graphAsked, hrows, hcols, hrows', hcols', List.length_singleton]
      omega

theorem GraphLedger.edgeRequest (hw : Workload inp g) (hi : i < g.archInfo.nOfEngine)
    (harr : ArrivalInv g c) (hover : (c.gr i).eReqOver = false) (h : GraphLedger g c) :
    GraphLedger g (c.setGr i ((c.gr i).edgeRequest g i c.fr.mem).1
      ((c.gr i).edgeRequest g i c.fr.mem).2) := by
  have ho := hw.ownRegions hi
  obtain ⟨kv, ke, R, C, V, k, hinv⟩ := harr i hi
  rcases hinv.asked.edgeRequest (m := c.fr.mem) ho hover with hsame | ⟨r, hreq, hasked⟩
  · rw [hsame]
    exact h.congr (graphAsked_setGr rfl) rfl
  · rw [hreq]
    refine h.setGr hi (fun a ha => ?_) ?_
    · rcases List.mem_cons.mp ha with rfl | ha
      · exact (hw.layout.graphType_of_inRegion hi (ho.inRegion_column ke)).2
      · split at ha
        · rw [List.mem_singleton.mp ha]
          exact (hw.layout.graphType_of_inRegion hi (ho.inRegion_value ke)).2
        · cases ha
    · obtain ⟨hrows, hcols⟩ := asked_of_requestInv hinv.asked
      obtain ⟨hrows', hcols'⟩ := asked_of_requestInv hasked
      rw [graphAsked, graphAsked, hrows, hcols, hrows', hcols', GraphReader.edgeLines]
      unfold valuesAsked
      split <;> simp only [List.length_cons, List.length_nil] <;> omega

/-- Feature lines do not count. -/
theorem GraphLedger.addLines (h : GraphLedger g c) (hgr : c'.gr = c.gr) {l : List ℕ}
    (hmem : c'.fr.mem = c.fr.mem.addReads l) (hdram : c'.dram = c.dram)
    (hl : ∀ a ∈ l, IsCell g.archInfo a) : GraphLedger g c' := by
  refine h.congr (fun i => by rw [hgr]) ?_
  have hzero : l.countP (fun a => decide (a < g.archInfo.xwEleAddrStart)) = 0 :=
    List.countP_eq_zero.mpr fun a ha => by simpa using (hl a ha).ge
  rw [graphReads, hmem, hdram, countP_addReads, hzero]
  rfl

theorem GraphLedger.call (hw : Workload inp g) (hrun : Running g c) (hi : i < g.archInfo.nOfEngine)
    (h : GraphLedger g c) {k : EngineCall} (hcall : c.call g i k = some c') :
    GraphLedger g c' := by
  obtain ⟨n, out, hengine⟩ := hrun.pipe.engines i
  have hcells := hengine.cells hw.toEquipped hrun.pipe.requests
  cases k with
  | vertexRequest =>
    simp only [Controller.call] at hcall
    split at hcall <;> cases hcall
    · exact h
    · next hover => exact h.vertexRequest hw hi hrun.arrivals (by simpa using hover)
  | edgeRequest =>
    simp only [Controller.call] at hcall
    split at hcall <;> cases hcall
    · exact h
    · next hover => exact h.edgeRequest hw hi hrun.arrivals (by simpa using hover)
  | graphReceive =>
    cases call_effect hcall with
    | skip => exact h
    | graphReceive =>
      refine h.congr (graphAsked_setGr (GraphReader.requests_graphReceive _)) ?_
      unfold Memory.getGraph
      split <;> rfl
  | nextFeature =>
    cases call_effect hcall with
    | skip => exact h
    | noFeature hnext =>
      exact h.congr (graphAsked_setGr (GraphReader.requests_nextFeature hnext)) rfl
    | nextFeature hnext =>
      exact h.congr (graphAsked_setGr (m := c.fr.mem) (GraphReader.requests_nextFeature hnext)) rfl
  | readNext =>
    cases call_effect hcall with
    | skip => exact h
    | readNext hfr =>
      obtain ⟨l, hmem, hl⟩ := hcells.1 _ hfr
      exact h.addLines rfl hmem rfl hl
  | passFtoSIMD =>
    cases call_effect hcall with
    | skip => exact h
    | passFtoSIMD =>
      obtain ⟨l, hmem, hl⟩ := hcells.2
      exact h.addLines rfl hmem rfl hl
  | write =>
    cases call_effect hcall with
    | skip => exact h
    | write =>
      refine h.congr (fun _ => rfl) ?_
      simp [graphReads, Memory.addTransaction, IsGraphLine]

/-- A reply is counted when it is one of the graph. -/
theorem GraphLedger.readReply (hlayout : GraphLayout g) (h : GraphLedger g c) {a : ℕ} {m : Memory}
    (hmem : ⟨a, false⟩ ∈ c.dram) (hreply : c.fr.mem.readCompleteCallback g a = some m) :
    GraphLedger g
      { c with fr := { c.fr with mem := m }, dram := c.dram.erase ⟨a, false⟩ } := by
  have hdram : c.dram.countP (IsGraphLine g) =
      (c.dram.erase ⟨a, false⟩).countP (IsGraphLine g) +
        if IsGraphLine g ⟨a, false⟩ then 1 else 0 := by
    conv_lhs => rw [← Multiset.cons_erase hmem]
    rw [Multiset.countP_cons]
  refine h.congr (fun _ => rfl) ?_
  unfold graphReads
  rcases Nat.lt_or_ge a g.archInfo.xwEleAddrStart with hlt | hge
  · obtain ⟨j, hj, hreg⟩ := hlayout.exists_engine hlt
    rw [hlayout.readCompleteCallback_of_inRegion hj hreg] at hreply
    cases hreply
    rw [if_pos ⟨rfl, hlt⟩] at hdram
    dsimp only
    omega
  · rw [GraphLayout.readCompleteCallback_feature hge] at hreply
    cases hreply
    rw [if_neg fun hgraph => absurd hgraph.2 (Nat.not_lt.mpr hge)] at hdram
    dsimp only
    omega

theorem ledger_of_reachable (hw : Workload inp g) {s : Config} (hs : s.Reachable g) :
    GraphLedger g s.ctr := by
  refine Machine.Reachable.inv (I := fun s => GraphLedger g s.ctr) hs ?_ ?_
  · have hzero : ∀ i, graphAsked g i (GraphReader.init g i) = 0 := fun i => by
      simp [graphAsked, rowsAsked, colsAsked, valuesAsked, GraphReader.init]
    exact (Finset.sum_eq_zero fun i _ => hzero i).symm
  intro t t' hreach h hstep
  cases hstep with
  | call hcall => exact h.call hw (hw.running hreach) (engine_lt_of_reachable hreach rfl) hcall
  | featureReceive =>
    rw [featureReceive_eq]
    exact h.congr (fun _ => rfl) rfl
  | accept htq =>
    refine h.congr (fun _ => rfl) ?_
    simp only [graphReads, htq, List.countP_cons, Multiset.countP_cons, decide_eq_true_eq]
    omega
  | readReply hmem hreply => exact h.readReply hw.layout hmem hreply
  | writeReply hmem =>
    refine h.congr (fun _ => rfl) ?_
    simp only [graphReads, Memory.writeCompleteCallback]
    conv_rhs => rw [← Multiset.cons_erase hmem]
    rw [Multiset.countP_cons_of_neg]
    simp [IsGraphLine]
  | refuse => exact h
  | tick => exact h
  | again => exact h
  | exit => exact h

/-! ## The end of a run -/

/-- The row lines that engine `i` cannot do without: those of all folds but the last, and of
the last one those up to the entry that closes its last row with an edge. -/
def rowsNeeded (g : Globals) (i : ℕ) : ℕ :=
  (g.archInfo.bf - 1) * GraphReader.rowLines g i +
    ((g.rowPtr i).idxOf (g.colIdx i).length / cacheLineCount + 1)

/-- The column and value lines of engine `i`, over all folds. -/
def edgeLinesNeeded (g : Globals) (i : ℕ) : ℕ :=
  g.archInfo.bf * GraphReader.colLines g i +
    valuesAsked g (g.archInfo.bf * GraphReader.colLines g i)

/-- The last edge is in the row that the first entry with the number of edges closes. -/
theorem ValidCsr.idxOf_length {rowPtr colIdx : List ℕ} (hv : ValidCsr rowPtr colIdx) {row : ℕ}
    (hrow : row + 1 < rowPtr.length) (hlo : vget rowPtr row < colIdx.length)
    (hhi : colIdx.length ≤ vget rowPtr (row + 1)) : rowPtr.idxOf colIdx.length = row + 1 := by
  rw [List.idxOf, List.findIdx_eq hrow]
  constructor
  · have hle := hv.vget_le hrow
    rw [← vget_eq_getElem hrow, beq_iff_eq]
    omega
  · intro j hj
    have hle := hv.vget_mono (show j ≤ row by omega) (by omega)
    rw [← vget_eq_getElem (by omega), beq_eq_false_iff_ne]
    omega

/-- All lines up to that of the last element of an array. -/
theorem blocks_eq_div_add_one {n : ℕ} (hn : 0 < n) : Window.blocks 16 n = (n - 1) / 16 + 1 := by
  unfold Window.blocks
  omega

/-- When an engine has passed on all its edges, all its columns and values have arrived, and
the rows it needs. -/
theorem EngineArrivals.all_edges {kv ke R C V k : ℕ} (hw : Workload inp g)
    (hi : i < g.archInfo.nOfEngine) (h : EngineArrivals g i kv ke R C V k c)
    (hk : k = g.archInfo.bf * (g.colIdx i).length) :
    rowsNeeded g i ≤ R ∧ ke = g.archInfo.bf * GraphReader.colLines g i ∧
      underWay g i .column c = 0 ∧ underWay g i .value c = 0 := by
  have hedge := hw.edge_pos i hi
  obtain ⟨b, hb⟩ : ∃ b, g.archInfo.bf = b + 1 := ⟨g.archInfo.bf - 1, by have := hw.bf_pos; omega⟩
  have hlast : k - 1 = (g.colIdx i).length - 1 + (g.colIdx i).length * b := by
    rw [hk, hb, Nat.succ_mul, Nat.mul_comm b]
    omega
  have hdiv : (k - 1) / (g.colIdx i).length = b := by
    rw [hlast, Nat.add_mul_div_left _ _ hedge, Nat.div_eq_of_lt (by omega), Nat.zero_add]
  have hmod : (k - 1) % (g.colIdx i).length = (g.colIdx i).length - 1 := by
    rw [hlast, Nat.add_mul_mod_self_left, Nat.mod_eq_of_lt (by omega)]
  obtain ⟨⟨row, hrow, hlo, hhi, hrows⟩, hcols, hvals⟩ :=
    h.last (by rw [hk, hb]; exact Nat.mul_pos b.succ_pos hedge)
  unfold GraphReader.EdgeArrived at hcols hvals
  rw [hdiv, hmod] at hcols hvals
  rw [hmod] at hlo hhi
  rw [hdiv] at hrows
  -- the last column line is that of the last edge
  have hfull : ∀ n, Window.Received 16 (g.colIdx i).length n b ((g.colIdx i).length - 1) →
      g.archInfo.bf * GraphReader.colLines g i ≤ n := by
    intro n hn
    unfold Window.Received at hn
    rw [colLines_eq_blocks (hw.col_le i hi), hb, Nat.succ_mul]
    rw [blocks_eq_div_add_one hedge] at hn ⊢
    omega
  have hC := hfull C hcols
  have hcolumn := h.column
  have hle := h.asked.cols.le
  have hke : ke = g.archInfo.bf * GraphReader.colLines g i := by omega
  refine ⟨?_, hke, by omega, ?_⟩
  · have hclose := (hw.valid i).idxOf_length hrow (by omega) (by omega)
    unfold Window.Received at hrows
    rw [rowsNeeded, hclose, rowLines_eq_blocks (hw.row_le i hi), hb, Nat.add_sub_cancel]
    exact hrows
  · have hvalue := h.value
    unfold valuesAsked at hvalue
    cases hmode : g.archInfo.gnnMode with
    | gcn =>
      have hV := hfull V (hvals hmode)
      rw [if_pos hmode] at hvalue
      omega
    | other =>
      rw [if_neg (by simp [hmode])] at hvalue
      omega

/-- A property of some members is counted by the cases it falls into. -/
theorem countP_le_sum {α : Type*} {p : α → Prop} [DecidablePred p] {q : ℕ → α → Prop}
    [∀ i, DecidablePred (q i)] {n : ℕ} (s : Multiset α)
    (h : ∀ t ∈ s, p t → ∃ i < n, q i t) : s.countP p ≤ ∑ i ∈ Finset.range n, s.countP (q i) := by
  induction s using Multiset.induction_on with
  | empty => simp
  | cons t s ih =>
    have ih' := ih fun u hu => h u (Multiset.mem_cons_of_mem hu)
    simp only [Multiset.countP_cons, Finset.sum_add_distrib]
    refine Nat.add_le_add ih' ?_
    split
    · next hp =>
      obtain ⟨i, hi, hq⟩ := h t (Multiset.mem_cons_self t s) hp
      have hle := Finset.single_le_sum (f := fun i => if q i t then 1 else 0)
        (fun _ _ => Nat.zero_le _) (Finset.mem_range.mpr hi)
      simpa [hq] using hle
    · exact Nat.zero_le _

/-- At the end the graph lines still on their way are row lines. -/
theorem graphReads_le (hlayout : GraphLayout g)
    (hnone : ∀ i < g.archInfo.nOfEngine,
      underWay g i .column c = 0 ∧ underWay g i .value c = 0) :
    graphReads g c ≤ ∑ i ∈ Finset.range g.archInfo.nOfEngine, underWay g i .row c := by
  have hrow : ∀ t : Transaction, t ∈ c.fr.mem.tq ∨ t ∈ c.dram → IsGraphLine g t →
      ∃ i < g.archInfo.nOfEngine, IsGraphRead g i .row t := by
    rintro t ht ⟨hread, hlt⟩
    obtain ⟨i, hi, hreg⟩ := hlayout.exists_engine hlt
    have hpos : ∀ kind, Memory.graphType g.archInfo t.address = kind → 0 < underWay g i kind c := by
      rintro kind rfl
      have hgraph : IsGraphRead g i (Memory.graphType g.archInfo t.address) t := ⟨hread, hreg⟩
      unfold underWay
      rcases ht with ht | ht
      · have hcount : 0 < c.fr.mem.tq.countP (IsGraphRead g i (Memory.graphType g.archInfo t.address)) :=
          List.countP_pos_iff.mpr ⟨t, ht, decide_eq_true hgraph⟩
        omega
      · have hcount := Multiset.countP_pos.mpr ⟨t, ht, hgraph⟩
        omega
    obtain ⟨hcol, hval⟩ := hnone i hi
    refine ⟨i, hi, hread, ?_⟩
    cases hkind : Memory.graphType g.archInfo t.address with
    | row => rwa [hkind] at hreg
    | column => exact absurd (hpos .column hkind) (by omega)
    | value => exact absurd (hpos .value hkind) (by omega)
    | empty => rw [hkind] at hreg; cases hreg
  have htq := countP_le_sum (c.fr.mem.tq : Multiset Transaction)
    fun t ht => hrow t (.inl (Multiset.mem_coe.mp ht))
  have hdram := countP_le_sum c.dram fun t ht => hrow t (.inr ht)
  calc graphReads g c ≤ ∑ i ∈ Finset.range g.archInfo.nOfEngine,
        (c.fr.mem.tq.countP (IsGraphRead g i .row) + c.dram.countP (IsGraphRead g i .row)) := by
        rw [Finset.sum_add_distrib]
        exact Nat.add_le_add htq hdram
    _ ≤ _ := Finset.sum_le_sum fun i _ => Nat.le_add_right _ _

end Sgcn

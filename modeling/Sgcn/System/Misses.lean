-- SUMMARY: In every run the outstanding feature requests are exactly the feature lines in flight.
import Sgcn.Feature.Misses
import Sgcn.Graph.Prefetch
import Sgcn.System.Completion

/-!
# Outstanding requests in a run

The transaction queue, DRAMsim3 and the reply queue are shared with the graph
readers and the SIMD units. The graph readers ask for lines of their own regions
only, so that no reply to them is taken for a feature line, and the SIMD units
only write.
-/

namespace Sgcn

open FeatureReader

variable {inp : Input} {g : Globals} {c c' : Controller} {i : ℕ}

/-! ## Graph requests -/

namespace GraphReader

variable {r r' : GraphReader}

/-- The next addresses are lines of the reader's own regions. -/
structure AddrInv (g : Globals) (i : ℕ) (r : GraphReader) : Prop where
  row : ∃ k, r.nextVAddr = lineAt (g.dataIndex i).rowAddrStart (rowLines g i) k
  col : ∃ k, r.nextEAddr = lineAt (g.dataIndex i).colAddrStart (colLines g i) k ∧
    (g.archInfo.gnnMode = .gcn →
      r.nextValAddr = lineAt (g.dataIndex i).valueAddrStart (colLines g i) k)

theorem AddrInv.init (g : Globals) (i : ℕ) : AddrInv g i (.init g i) :=
  ⟨⟨0, by simp [GraphReader.init, lineAt]⟩, 0, by simp [GraphReader.init, lineAt],
    fun _ => by simp [GraphReader.init, lineAt]⟩

theorem AddrInv.congr (h : AddrInv g i r) (heq : r'.requests = r.requests) : AddrInv g i r' := by
  simp only [requests, Prod.mk.injEq] at heq
  obtain ⟨hv, he, hval, -⟩ := heq
  exact ⟨by rw [hv]; exact h.row, by rw [he, hval]; exact h.col⟩

/-- `VertexRequest` asks for a line of the row region. -/
theorem AddrInv.vertexRequest (ho : OwnRegions g i) (h : AddrInv g i r) (m : Memory) :
    AddrInv g i (r.vertexRequest g i m).1 ∧
      ∃ l, (r.vertexRequest g i m).2 = m.addReads l ∧
        ∀ a ∈ l, ∃ type, Memory.inRegion (g.dataIndex i) type a = true := by
  obtain ⟨k, hk⟩ := h.row
  have hend := lineAt_end_iff (g.dataIndex i).rowAddrStart k ho.rowLines_pos
  have hline := lineAt_mem (g.dataIndex i).rowAddrStart k ho.rowLines_pos
  rw [← ho.rowEnd_eq, ← hk] at hend hline
  rw [vertexRequest_eq]
  split
  · refine ⟨⟨⟨k + 1, ?_⟩, h.col⟩, _, rfl, ?_⟩
    · simp only [afterVertexRequest, decide_eq_true_eq, hend, lineAt_succ _ k ho.rowLines_pos]
      rw [hk]
    · simpa using ⟨.row, decide_eq_true hline⟩
  · exact ⟨h, [], (m.addReads_nil).symm, by simp⟩

/-- `EdgeRequest` asks for a line of the column region, and for the line beside it in
the value region. -/
theorem AddrInv.edgeRequest (ho : OwnRegions g i) (h : AddrInv g i r) (m : Memory) :
    AddrInv g i (r.edgeRequest g i m).1 ∧
      ∃ l, (r.edgeRequest g i m).2 = m.addReads l ∧
        ∀ a ∈ l, ∃ type, Memory.inRegion (g.dataIndex i) type a = true := by
  obtain ⟨k, hk, hval⟩ := h.col
  have hend := lineAt_end_iff (g.dataIndex i).colAddrStart k ho.colLines_pos
  have hline := lineAt_mem (g.dataIndex i).colAddrStart k ho.colLines_pos
  rw [← ho.colEnd_eq, ← hk] at hend hline
  rw [edgeRequest_eq]
  split
  · refine ⟨⟨h.row, k + 1, ?_, fun hgcn => ?_⟩, _, rfl, fun a ha => ?_⟩
    · simp only [afterEdgeRequest, decide_eq_true_eq, hend, lineAt_succ _ k ho.colLines_pos]
      rw [hk]
    · simp only [afterEdgeRequest, if_pos hgcn, decide_eq_true_eq, hend, hval hgcn,
        lineAt_succ _ k ho.colLines_pos]
    · rcases List.mem_cons.mp ha with rfl | ha
      · exact ⟨.column, decide_eq_true hline⟩
      · split at ha
        · next hgcn =>
          have hvline := lineAt_mem (g.dataIndex i).valueAddrStart k ho.colLines_pos
          rw [← ho.valueEnd_eq, ← hval hgcn, ← List.mem_singleton.mp ha] at hvline
          exact ⟨.value, decide_eq_true hvline⟩
        · cases ha
  · exact ⟨h, [], (m.addReads_nil).symm, by simp⟩

end GraphReader

/-! ## The invariant of a run -/

/-- The graph readers ask for graph data, and the outstanding requests are the
feature lines in flight. -/
structure RunMisses (g : Globals) (c : Controller) : Prop where
  addrs : ∀ i < g.archInfo.nOfEngine, GraphReader.AddrInv g i (c.gr i)
  misses : MissInv g c.dram c.fr

/-- A change of one graph reader that asks for graph data at most. -/
theorem RunMisses.setGr (h : RunMisses g c) {r : GraphReader} {m : Memory}
    (hr : GraphReader.AddrInv g i (c.gr i) → GraphReader.AddrInv g i r)
    (hm : inFlight g c.dram m = inFlight g c.dram c.fr.mem) : RunMisses g (c.setGr i r m) where
  addrs := by
    intro j hj
    by_cases hji : j = i
    · subst hji
      simp only [Controller.setGr, Function.update_self]
      exact hr (h.addrs j hj)
    · simp only [Controller.setGr, Function.update_of_ne hji]
      exact h.addrs j hj
  misses := h.misses.keep rfl hm (fun _ => List.Perm.refl _) h.misses.waited

/-- Reads of graph data are not in flight for the feature reader. -/
theorem inFlight_graphReads (hlayout : GraphLayout g) (hi : i < g.archInfo.nOfEngine)
    {dram : Multiset Transaction} {m : Memory} {l : List ℕ}
    (hl : ∀ a ∈ l, ∃ type, Memory.inRegion (g.dataIndex i) type a = true) :
    inFlight g dram (m.addReads l) = inFlight g dram m := by
  refine inFlight_append rfl rfl fun t ht => ?_
  obtain ⟨a, ha, rfl⟩ := List.mem_map.mp ht
  obtain ⟨type, hreg⟩ := hl a ha
  rintro ⟨-, hge⟩
  exact absurd (hlayout.graphType_of_inRegion hi hreg).2 (Nat.not_lt.mpr hge)

theorem RunMisses.call (hp : PreparedXCmp inp g) (hi : i < g.archInfo.nOfEngine)
    (hedge : 0 < (g.colIdx i).length) (hflow : FlowInv g c) (h : RunMisses g c)
    {call : EngineCall} (hcall : c.call g i call = some c') : RunMisses g c' := by
  have ho := GraphReader.OwnRegions.of_layout hp.layout hi (hp.valid i).length_pos hedge
  obtain ⟨k, out, hengine⟩ := hflow i
  cases call_effect hcall with
  | skip => exact h
  | vertexRequest =>
    obtain ⟨haddr, l, hmem, hl⟩ := (h.addrs i hi).vertexRequest ho c.fr.mem
    refine h.setGr (fun _ => haddr) ?_
    rw [hmem]
    exact inFlight_graphReads hp.layout hi hl
  | edgeRequest =>
    obtain ⟨haddr, l, hmem, hl⟩ := (h.addrs i hi).edgeRequest ho c.fr.mem
    refine h.setGr (fun _ => haddr) ?_
    rw [hmem]
    exact inFlight_graphReads hp.layout hi hl
  | graphReceive =>
    refine h.setGr (fun haddr => haddr.congr (GraphReader.requests_graphReceive _)) ?_
    unfold Memory.getGraph
    split <;> rfl
  | noFeature hnext =>
    exact h.setGr (fun haddr => haddr.congr (GraphReader.requests_nextFeature hnext)) rfl
  | nextFeature hnext =>
    have h' := h.setGr (m := c.fr.mem)
      (fun haddr => haddr.congr (GraphReader.requests_nextFeature hnext)) rfl
    exact ⟨h'.addrs, h.misses.keep rfl rfl (fun _ => List.Perm.refl _) h.misses.waited⟩
  | readNext hfr =>
    exact ⟨h.addrs, h.misses.readNext hp.mode_eq hp.table hi hengine.lines hfr⟩
  | passFtoSIMD => exact ⟨h.addrs, (h.misses.passFtoSIMD hi hengine.lines).1⟩
  | write =>
    refine ⟨h.addrs, h.misses.keep rfl ?_ (fun _ => List.Perm.refl _) h.misses.waited⟩
    refine inFlight_append rfl rfl fun t ht => ?_
    rw [List.mem_singleton.mp ht]
    rintro ⟨hread, -⟩
    cases hread

/-- A move of the environment that leaves the lines in flight as they are. -/
theorem MissInv.environment {dram dram' : Multiset Transaction} {s : FeatureReader} {m : Memory}
    (h : MissInv g dram s) (hflight : inFlight g dram' m = inFlight g dram s.mem) :
    MissInv g dram' { s with mem := m } :=
  ⟨hflight.trans h.inFlight_eq, h.line, h.uncached, h.cache, h.waited⟩

/-- The front of the transaction queue is in flight before and after it is handed over. -/
theorem inFlight_accept {m : Memory} {dram : Multiset Transaction} {t : Transaction}
    {rest : List Transaction} (htq : m.tq = t :: rest) :
    inFlight g (t ::ₘ dram) { m with tq := rest } = inFlight g dram m := by
  simp only [inFlight, htq, ← Multiset.cons_coe]
  by_cases ht : IsFeatureRead g t
  · rw [featureReads_cons_of_pos _ ht, featureReads_cons_of_pos _ ht]
    simp only [Multiset.add_cons, Multiset.cons_add]
  · rw [featureReads_cons_of_neg _ ht, featureReads_cons_of_neg _ ht]

/-- A reply to a feature read goes from DRAMsim3 to the reply queue. -/
theorem inFlight_readReply {m m' : Memory} {dram : Multiset Transaction} {a : ℕ}
    (hmem : ⟨a, false⟩ ∈ dram) (hreply : m.readCompleteCallback g a = some m') :
    inFlight g (dram.erase ⟨a, false⟩) m' = inFlight g dram m := by
  obtain ⟨htq, -, hfq⟩ := readCompleteCallback_frame hreply
  simp only [inFlight, htq, hfq]
  by_cases ht : IsFeatureRead g ⟨a, false⟩
  · have hdram : featureReads g dram = a ::ₘ featureReads g (dram.erase ⟨a, false⟩) := by
      conv_lhs => rw [← Multiset.cons_erase hmem]
      exact featureReads_cons_of_pos _ ht
    rw [if_pos ht.2, hdram, ← Multiset.coe_add, Multiset.coe_singleton, Multiset.add_cons,
      Multiset.cons_add, ← add_assoc, ← Multiset.singleton_add]
    exact add_comm _ _
  · rw [if_neg fun hge => ht ⟨rfl, hge⟩, List.append_nil, featureReads_erase_of_neg hmem ht]

theorem inFlight_writeReply {m : Memory} {dram : Multiset Transaction} {a : ℕ}
    (hmem : ⟨a, true⟩ ∈ dram) :
    inFlight g (dram.erase ⟨a, true⟩) m.writeCompleteCallback = inFlight g dram m := by
  have hnot : ¬ IsFeatureRead g ⟨a, true⟩ := fun ht => (by cases ht.1)
  simp only [inFlight, Memory.writeCompleteCallback, featureReads_erase_of_neg hmem hnot]

theorem runMisses_of_reachable (hp : PreparedXCmp inp g)
    (hedge : ∀ i < g.archInfo.nOfEngine, 0 < (g.colIdx i).length) {s : Config}
    (hs : s.Reachable g) : RunMisses g s.ctr := by
  refine Machine.Reachable.inv (I := fun s => RunMisses g s.ctr) hs
    ⟨fun i _ => .init g i, .init g⟩ ?_
  intro t t' hreach h hstep
  cases hstep with
  | call hcall =>
    have hi := engine_lt_of_reachable hreach rfl
    exact h.call hp hi (hedge _ hi) (flow_of_reachable hp hreach).1 hcall
  | featureReceive => exact ⟨h.addrs, h.misses.featureReceive⟩
  | accept htq => exact ⟨h.addrs, h.misses.environment (inFlight_accept htq)⟩
  | readReply hmem hreply => exact ⟨h.addrs, h.misses.environment (inFlight_readReply hmem hreply)⟩
  | writeReply hmem => exact ⟨h.addrs, h.misses.environment (inFlight_writeReply hmem)⟩
  | refuse => exact h
  | tick => exact h
  | again => exact h
  | exit => exact h

/-- In every state of a run, `requested` is the set of feature addresses in flight,
each of them once. No such address is cached, no cache set holds an address twice,
and some engine has the address queued. A `PassFtoSIMD` that stalls leaves its line on
the way. -/
theorem requested_eq_inFlight {inp : Input} {g : Globals} (hmode : inp.mode = .xCmp)
    (hunit : 1 ≤ inp.xUnit) (hn : 1 ≤ inp.nOfEngine) (hg : preprocess inp = some g)
    (hedge : ∀ i < inp.nOfEngine, (inp.engineRows i).flatten ≠ []) (s : Config)
    (hs : s.Reachable g) :
    let fr := s.ctr.fr
    let flight := inFlight g s.ctr.dram fr.mem
    (∀ a, a ∈ fr.requested ↔ a ∈ flight) ∧ flight.Nodup ∧
      (∀ a ∈ fr.requested, ∀ set, a ∉ fr.cah.saCache set) ∧
      (∀ set, (fr.cah.saCache set).Nodup) ∧
      (∀ a ∈ flight, ∃ i < inp.nOfEngine, a ∈ fr.fq i) ∧
      ∀ i < inp.nOfEngine, (fr.passFtoSIMD g i).1 = -1 → ∀ a, (fr.fq i).head? = some a →
        a ∈ (fr.passFtoSIMD g i).2.requested := by
  have hp := preparedXCmp_of_preprocess hmode hunit hn hg
  have h := (runMisses_of_reachable hp (hp.colIdx_pos hedge) hs).misses
  rw [← hp.nOfEngine_eq]
  have hflow := (flow_of_reachable hp hs).1
  dsimp only
  rw [h.inFlight_eq]
  refine ⟨fun a => Iff.of_eq Finset.mem_val.symm, s.ctr.fr.requested.nodup,
    fun a ha set hmem => h.uncached a ha ⟨set, hmem⟩, h.cache.nodup,
    fun a ha => h.waited a (Finset.mem_val.mp ha), fun i hi => ?_⟩
  obtain ⟨k, out, hengine⟩ := hflow i
  exact (h.passFtoSIMD hi hengine.lines).2

theorem requested_eq_inFlight_twoEngines :
    ∃ g, preprocess twoEngines = some g ∧ ∀ s : Config, s.Reachable g →
      (∀ a, a ∈ s.ctr.fr.requested ↔ a ∈ inFlight g s.ctr.dram s.ctr.fr.mem) ∧
        (inFlight g s.ctr.dram s.ctr.fr.mem).Nodup := by
  obtain ⟨g, hg⟩ := preprocess_twoEngines
  refine ⟨g, hg, fun s hs => ?_⟩
  obtain ⟨heq, hnodup, -⟩ := requested_eq_inFlight rfl (by decide) (by decide) hg
    (fun i hi => (twoEngines_rows i hi).1) s hs
  exact ⟨heq, hnodup⟩

end Sgcn

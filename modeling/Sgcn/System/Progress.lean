-- SUMMARY: Every call of the main loop takes work off an engine or leaves the engines as they are, and says what it waits for.
import Sgcn.System.Arrivals

/-!
# Progress

The work an engine has before it is a number: the lines it has to ask for, the edges it has
to pass on and to begin, the lines it has to read and to pass on, and the writes it has to
issue. No call adds to it. A call that takes nothing off it waits, and then it touches no
queue of an engine: it may ask for a line it wants, which is at the front of `fq` or a header.
-/

namespace Sgcn

open FeatureReader

variable {inp : Input} {g : Globals} {c c' : Controller} {i j : ℕ}

/-- What is known of the states of a run. -/
structure Running (g : Globals) (c : Controller) : Prop where
  pipe : Pipeline g c
  arrivals : ArrivalInv g c
  writes : WriteInv g c

theorem Workload.running (hw : Workload inp g) {s : Config} (hs : s.Reachable g) :
    Running g s.ctr where
  pipe := hw.pipeline hs
  arrivals := hw.arrivals hs
  writes := hw.writeInv hs

/-! ## The work of an engine -/

/-- The row lines asked for, by the round and the next address. -/
def rowsAsked (g : Globals) (i : ℕ) (r : GraphReader) : ℕ :=
  r.vReqCount * GraphReader.rowLines g i +
    (r.nextVAddr - (g.dataIndex i).rowAddrStart) / cacheLineByte

/-- The column lines asked for. -/
def colsAsked (g : Globals) (i : ℕ) (r : GraphReader) : ℕ :=
  r.eReqCount * GraphReader.colLines g i +
    (r.nextEAddr - (g.dataIndex i).colAddrStart) / cacheLineByte

/-- The edges passed on. -/
def edgesPassed (g : Globals) (i : ℕ) (r : GraphReader) : ℕ :=
  r.gPassCount * (g.colIdx i).length + r.curColIdx

/-- The lines of a list of edges. -/
def lineCount (g : Globals) (edges : List EdgeInfo) : ℕ := (edges.flatMap (planTokens g)).length

/-- The lines to read for the edges that engine `i` has been given: the queued ones and the
current one. -/
def ahead (g : Globals) (i : ℕ) (s : FeatureReader) : ℕ :=
  lineCount g (s.pq i) + (restTokens g (s.frs i)).length

/-- The lines to read, those of the edges to come included. -/
def unread (g : Globals) (i : ℕ) (c : Controller) : ℕ :=
  lineCount g ((refStream i (g.rowPtr i) (g.colIdx i) g.archInfo.bf).drop
      (edgesPassed g i (c.gr i))) + ahead g i c.fr

/-- The lines that are read and not passed on. -/
def queuedLines (i : ℕ) (s : FeatureReader) : ℕ := (s.fq i).countP (· ≠ 0)

/-- The edges that are to be passed on and to begin. -/
def edgesLeft (g : Globals) (i : ℕ) (c : Controller) : ℕ :=
  2 * (g.archInfo.bf * (g.colIdx i).length - edgesPassed g i (c.gr i)) + (c.fr.pq i).length

/-- The work before engine `i`. -/
def work (g : Globals) (i : ℕ) (c : Controller) : ℕ :=
  (g.archInfo.bf * GraphReader.rowLines g i - rowsAsked g i (c.gr i)) +
    (g.archInfo.bf * GraphReader.colLines g i - colsAsked g i (c.gr i)) +
    edgesLeft g i c + unread g i c + (unread g i c + queuedLines i c.fr) +
    (budget g i + (c.si i).wq.length - (c.si i).cnt)

theorem RoundInv.asked_eq {lo lines bf k addr count : ℕ} {isOver : Bool}
    (h : GraphReader.RoundInv lo lines bf k addr count isOver) :
    count * lines + (addr - lo) / cacheLineByte = k := by
  have haddr : (addr - lo) / cacheLineByte = k % lines := by
    rw [h.addr_eq, GraphReader.lineAt, Nat.add_sub_cancel_left]
    exact Nat.mul_div_cancel_left _ (by decide)
  rw [haddr, h.count_eq, Nat.div_add_mod']

/-- What has been asked for can be read off the reader. -/
theorem asked_of_requestInv {kv ke : ℕ} {r : GraphReader} (h : GraphReader.RequestInv g i kv ke r) :
    rowsAsked g i r = kv ∧ colsAsked g i r = ke :=
  ⟨RoundInv.asked_eq h.rows, RoundInv.asked_eq h.cols⟩

theorem rowsAsked_of_requests {r r' : GraphReader} (h : r'.requests = r.requests) :
    rowsAsked g i r' = rowsAsked g i r ∧ colsAsked g i r' = colsAsked g i r := by
  simp only [GraphReader.requests, Prod.mk.injEq] at h
  obtain ⟨hv, he, -, hvc, hec, -⟩ := h
  exact ⟨by rw [rowsAsked, rowsAsked, hv, hvc], by rw [colsAsked, colsAsked, he, hec]⟩

/-- What the work of an engine depends on. -/
theorem work_congr (hreq : (c'.gr j).requests = (c.gr j).requests)
    (hedges : edgesPassed g j (c'.gr j) = edgesPassed g j (c.gr j))
    (hfr : SameEngine j c.fr c'.fr) (hsi : c'.si j = c.si j) : work g j c' = work g j c := by
  obtain ⟨hrows, hcols⟩ := rowsAsked_of_requests (g := g) (i := j) hreq
  simp only [work, edgesLeft, unread, ahead, queuedLines, hrows, hcols, hedges, hfr.frs, hfr.pq,
    hfr.fq, hsi]

/-! ## What a call that makes no progress does -/

/-- What engine `i` wants next: the line at the front of `fq`, or the header before its lines. -/
def Wanted (g : Globals) (i : ℕ) (s : FeatureReader) (a : ℕ) : Prop :=
  (s.fq i).head? = some a ∨ Awaits g i s a

instance (g : Globals) (i : ℕ) (s : FeatureReader) (a : ℕ) : Decidable (Awaits g i s a) :=
  decidable_of_iff (Headed g ∧ (s.frs i).pqReadNeed = false ∧ (s.frs i).curColIdx = 0 ∧
    (g.xToAddr (s.frs i).dst)[0]? = some a)
    ⟨fun h => ⟨h.1, h.2.1, h.2.2.1, h.2.2.2⟩, fun h => ⟨h.1, h.2, h.3, h.4⟩⟩

instance (g : Globals) (i : ℕ) (s : FeatureReader) (a : ℕ) : Decidable (Wanted g i s a) :=
  inferInstanceAs (Decidable (_ ∨ _))

/-- The engines are as they were. At most, a line that engine `i` wants has been asked for, and a
reply has been taken. -/
structure Quiet (g : Globals) (i : ℕ) (c c' : Controller) : Prop where
  fq_eq : c'.fr.fq = c.fr.fq
  pq_eq : c'.fr.pq = c.fr.pq
  frs_eq : c'.fr.frs = c.fr.frs
  cah_eq : c'.fr.cah = c.fr.cah
  si_eq : c'.si = c.si
  requests_eq : ∀ j, (c'.gr j).requests = (c.gr j).requests
  edges_eq : ∀ j, edgesPassed g j (c'.gr j) = edgesPassed g j (c.gr j)
  asks : (c'.fr.requested = c.fr.requested ∧ c'.fr.mem.tq = c.fr.mem.tq) ∨
    ∃ a, Wanted g i c.fr a ∧ IsCell g.archInfo a ∧
      c'.fr.requested = insert a c.fr.requested ∧ c'.fr.mem.tq = c.fr.mem.tq ++ [⟨a, false⟩]

/-- What a call waits for when it makes no progress. -/
def Waits (g : Globals) (i : ℕ) (c c' : Controller) : EngineCall → Prop
  | .vertexRequest => (c.gr i).vReqOver = true ∨ c.fr.mem.willAcceptTransaction = false
  | .edgeRequest => (c.gr i).eReqOver = true ∨ c.fr.mem.willAcceptTransaction = false
  | .graphReceive => True
  | .nextFeature => c'.fr = c.fr
  | .readNext => 256 ≤ (c.fr.fq i).length ∨ c.fr.mem.willAcceptTransaction = false ∨
      (c.fr.frs i).pqReadNeed = true ∧ c.fr.pq i = [] ∨
      ∃ a, Awaits g i c.fr a ∧ a ∈ c'.fr.requested ∧ ¬ c.fr.cah.Holds a
  | .passFtoSIMD => ∀ a, (c.fr.fq i).head? = some a → a ∈ c'.fr.requested ∧ ¬ c.fr.cah.Holds a
  | .write => (c.si i).wq = [] ∨ c.fr.mem.willAcceptTransaction = false

/-- A call for engine `i` takes work off it, or waits. The work of the other engines is
untouched. -/
structure Outcome (g : Globals) (i : ℕ) (k : EngineCall) (c c' : Controller) : Prop where
  others : ∀ j, j ≠ i → work g j c' = work g j c
  own : work g i c' < work g i c ∨ work g i c' = work g i c ∧ Quiet g i c c' ∧ Waits g i c c' k

theorem Quiet.refl (g : Globals) (i : ℕ) (c : Controller) : Quiet g i c c :=
  ⟨rfl, rfl, rfl, rfl, rfl, fun _ => rfl, fun _ => rfl, .inl ⟨rfl, rfl⟩⟩

theorem Outcome.skip {k : EngineCall} (h : Waits g i c c k) : Outcome g i k c c :=
  ⟨fun _ _ => rfl, .inr ⟨rfl, .refl g i c, h⟩⟩

/-- A call that leaves the engines as they were takes nothing off the work. -/
theorem Outcome.of_quiet {k : EngineCall} (h : Quiet g i c c') (hwait : Waits g i c c' k) :
    Outcome g i k c c' := by
  have hwork : ∀ j, work g j c' = work g j c := fun j =>
    work_congr (h.requests_eq j) (h.edges_eq j)
      ⟨by rw [h.frs_eq], by rw [h.pq_eq], by rw [h.fq_eq]⟩ (by rw [h.si_eq])
  exact ⟨fun j _ => hwork j, .inr ⟨hwork i, h, hwait⟩⟩

theorem sameEngine_of_mem (s : FeatureReader) (m : Memory) (j : ℕ) :
    SameEngine j s { s with mem := m } := ⟨rfl, rfl, rfl⟩

/-- A change of one graph reader. -/
theorem work_setGr_of_ne {r : GraphReader} {m : Memory} (hj : j ≠ i) :
    work g j (c.setGr i r m) = work g j c :=
  work_congr (by rw [setGr_gr_of_ne _ _ _ hj]) (by rw [setGr_gr_of_ne _ _ _ hj]) ⟨rfl, rfl, rfl⟩ rfl

/-- A change of one graph reader that moves no edge and asks for nothing. -/
theorem Outcome.setGr {k : EngineCall} {r : GraphReader} {m : Memory}
    (hreq : r.requests = (c.gr i).requests)
    (hedges : edgesPassed g i r = edgesPassed g i (c.gr i)) (htq : m.tq = c.fr.mem.tq)
    (hwait : Waits g i c (c.setGr i r m) k) : Outcome g i k c (c.setGr i r m) := by
  have hgr : ∀ j, ((c.setGr i r m).gr j).requests = (c.gr j).requests ∧
      edgesPassed g j ((c.setGr i r m).gr j) = edgesPassed g j (c.gr j) := by
    intro j
    by_cases hj : j = i
    · subst hj
      rw [setGr_gr_self]
      exact ⟨hreq, hedges⟩
    · rw [setGr_gr_of_ne _ _ _ hj]
      exact ⟨rfl, rfl⟩
  refine ⟨fun j hj => work_setGr_of_ne hj, .inr ⟨?_, ?_, hwait⟩⟩
  · exact work_congr (hgr i).1 (hgr i).2 ⟨rfl, rfl, rfl⟩ rfl
  · exact ⟨rfl, rfl, rfl, rfl, rfl, fun j => (hgr j).1, fun j => (hgr j).2, .inl ⟨rfl, htq⟩⟩

/-! ## The calls of the graph reader -/

theorem edgesPassed_vertexRequest (g : Globals) (i : ℕ) (r : GraphReader) (m : Memory) :
    edgesPassed g i (r.vertexRequest g i m).1 = edgesPassed g i r := by
  rw [GraphReader.vertexRequest_eq]
  split <;> rfl

theorem edgesPassed_edgeRequest (g : Globals) (i : ℕ) (r : GraphReader) (m : Memory) :
    edgesPassed g i (r.edgeRequest g i m).1 = edgesPassed g i r := by
  rw [GraphReader.edgeRequest_eq]
  split <;> rfl

theorem edgesPassed_graphReceive (g : Globals) (i : ℕ) (r : GraphReader) (reci : RType) :
    edgesPassed g i (r.graphReceive g i reci) = edgesPassed g i r := by
  obtain ⟨isOver, heq⟩ := GraphReader.graphReceive_eq g i r reci
  obtain ⟨-, -, hcol, -, hpass, -⟩ := GraphReader.receive_frame g i r reci
  rw [heq, edgesPassed, edgesPassed]
  simp only [hcol, hpass]

theorem outcome_vertexRequest (hw : Workload inp g) (hrun : Running g c)
    (hi : i < g.archInfo.nOfEngine) (hcall : c.call g i .vertexRequest = some c') :
    Outcome g i .vertexRequest c c' := by
  simp only [Controller.call] at hcall
  split at hcall
  · next hover =>
    cases hcall
    exact .skip (.inl hover)
  · next hover =>
    cases hcall
    have hover' : (c.gr i).vReqOver = false := by simpa using hover
    have ho := hw.ownRegions hi
    cases hacc : c.fr.mem.willAcceptTransaction with
    | false =>
      have hsame : (c.gr i).vertexRequest g i c.fr.mem = (c.gr i, c.fr.mem) := by
        rw [GraphReader.vertexRequest_eq, if_neg (by simp [hacc])]
      rw [hsame]
      exact .setGr rfl rfl rfl (.inr hacc)
    | true =>
      refine ⟨fun j hj => work_setGr_of_ne hj, .inl ?_⟩
      obtain ⟨kv, ke, R, C, V, k, harr⟩ := hrun.arrivals i hi
      have hedges := edgesPassed_vertexRequest g i (c.gr i) c.fr.mem
      have hmem : (c.gr i).vertexRequest g i c.fr.mem ≠ (c.gr i, c.fr.mem) := by
        rw [GraphReader.vertexRequest_eq, if_pos hacc]
        intro heq
        have := congrArg (fun p => p.2.tq.length) heq
        simp [Memory.addReads] at this
      rcases harr.asked.vertexRequest (m := c.fr.mem) ho hover' with hsame | ⟨r, hreq, hasked⟩
      · exact absurd hsame hmem
      · rw [hreq] at hedges ⊢
        obtain ⟨hrows, hcols⟩ := asked_of_requestInv harr.asked
        obtain ⟨hrows', hcols'⟩ := asked_of_requestInv hasked
        have hle := hasked.rows.le
        simp only [work, edgesLeft, unread, ahead, queuedLines, setGr_gr_self, hedges, hrows, hrows',
          hcols, hcols']
        dsimp only [Controller.setGr]
        omega

theorem outcome_edgeRequest (hw : Workload inp g) (hrun : Running g c)
    (hi : i < g.archInfo.nOfEngine) (hcall : c.call g i .edgeRequest = some c') :
    Outcome g i .edgeRequest c c' := by
  simp only [Controller.call] at hcall
  split at hcall
  · next hover =>
    cases hcall
    exact .skip (.inl hover)
  · next hover =>
    cases hcall
    have hover' : (c.gr i).eReqOver = false := by simpa using hover
    have ho := hw.ownRegions hi
    cases hacc : c.fr.mem.willAcceptTransaction with
    | false =>
      have hsame : (c.gr i).edgeRequest g i c.fr.mem = (c.gr i, c.fr.mem) := by
        rw [GraphReader.edgeRequest_eq, if_neg (by simp [hacc])]
      rw [hsame]
      exact .setGr rfl rfl rfl (.inr hacc)
    | true =>
      refine ⟨fun j hj => work_setGr_of_ne hj, .inl ?_⟩
      obtain ⟨kv, ke, R, C, V, k, harr⟩ := hrun.arrivals i hi
      have hedges := edgesPassed_edgeRequest g i (c.gr i) c.fr.mem
      have hmem : (c.gr i).edgeRequest g i c.fr.mem ≠ (c.gr i, c.fr.mem) := by
        rw [GraphReader.edgeRequest_eq, if_pos hacc]
        intro heq
        have := congrArg (fun p => p.2.tq.length) heq
        simp [Memory.addReads, GraphReader.edgeReads] at this
      rcases harr.asked.edgeRequest (m := c.fr.mem) ho hover' with hsame | ⟨r, hreq, hasked⟩
      · exact absurd hsame hmem
      · rw [hreq] at hedges ⊢
        obtain ⟨hrows, hcols⟩ := asked_of_requestInv harr.asked
        obtain ⟨hrows', hcols'⟩ := asked_of_requestInv hasked
        have hle := hasked.cols.le
        simp only [work, edgesLeft, unread, ahead, queuedLines, setGr_gr_self, hedges, hrows, hrows',
          hcols, hcols']
        dsimp only [Controller.setGr]
        omega

theorem outcome_graphReceive (hcall : c.call g i .graphReceive = some c') :
    Outcome g i .graphReceive c c' := by
  cases call_effect hcall with
  | skip => exact .skip trivial
  | graphReceive =>
    refine .setGr (GraphReader.requests_graphReceive _) (edgesPassed_graphReceive g i _ _) ?_ trivial
    unfold Memory.getGraph
    split <;> rfl

/-- The lines of the edges to come, and of the edges passed on. -/
theorem lineCount_take_add_drop (g : Globals) (l : List EdgeInfo) (k : ℕ) :
    lineCount g (l.take k) + lineCount g (l.drop k) = lineCount g l := by
  rw [lineCount, lineCount, lineCount, ← List.length_append, ← List.flatMap_append,
    List.take_append_drop]

theorem lineCount_append (g : Globals) (l l' : List EdgeInfo) :
    lineCount g (l ++ l') = lineCount g l + lineCount g l' := by
  rw [lineCount, lineCount, lineCount, List.flatMap_append, List.length_append]

theorem EngineArrivals.edgesPassed_eq {kv ke R C V k : ℕ}
    (h : EngineArrivals g i kv ke R C V k c) : edgesPassed g i (c.gr i) = k :=
  h.stream.cursor.pos

/-- The lines of an edge go from the stream to the queue of edges. -/
theorem unread_enterFtoList {r : GraphReader} {ei : EdgeInfo} {k : ℕ}
    (hk : edgesPassed g ei.id (c.gr ei.id) = k) (hedges : edgesPassed g ei.id r = k + 1)
    (hstream : streamed g ei.id (k + 1) = streamed g ei.id k ++ [ei]) :
    unread g ei.id { c with gr := Function.update c.gr ei.id r, fr := c.fr.enterFtoList ei } =
      unread g ei.id c := by
  have hbefore := lineCount_take_add_drop g
    (refStream ei.id (g.rowPtr ei.id) (g.colIdx ei.id) g.archInfo.bf) k
  have hafter := lineCount_take_add_drop g
    (refStream ei.id (g.rowPtr ei.id) (g.colIdx ei.id) g.archInfo.bf) (k + 1)
  rw [← streamed] at hbefore hafter
  rw [hstream, lineCount_append] at hafter
  have hpq : (c.fr.enterFtoList ei).pq ei.id = c.fr.pq ei.id ++ [ei] := Function.update_self _ _ _
  simp only [unread, ahead, Function.update_self, hedges, hk, hpq, lineCount_append]
  change _ + (_ + (restTokens g (c.fr.frs ei.id)).length) = _
  omega

theorem outcome_nextFeature (hw : Workload inp g) (hrun : Running g c)
    (hi : i < g.archInfo.nOfEngine) (hcall : c.call g i .nextFeature = some c') :
    Outcome g i .nextFeature c c' := by
  obtain ⟨kv, ke, R, C, V, k, harr⟩ := hrun.arrivals i hi
  have hk := harr.edgesPassed_eq
  have hcursor : CursorOk g i k (c.gr i) := .inl ⟨hw.bf_pos, harr.stream.cursor⟩
  have hpos : ∀ {r k}, CursorOk g i k r → edgesPassed g i r = k := by
    rintro r k (⟨-, h⟩ | ⟨hbf, -⟩)
    · exact h.pos
    · exact absurd hbf hw.bf_pos.ne'
  cases call_effect hcall with
  | skip => exact .skip rfl
  | noFeature hnext =>
    rcases hcursor.next hw.toPrepared hnext with ⟨-, hnext'⟩ | ⟨ei, hei, -⟩
    · exact .setGr (GraphReader.requests_nextFeature hnext) ((hpos hnext').trans hk.symm) rfl rfl
    · cases hei
  | @nextFeature r ei hnext =>
    rcases hcursor.next hw.toPrepared hnext with ⟨hnone, -⟩ |
      ⟨ei', hei', rfl, -, hstream, hnext'⟩
    · cases hnone
    · cases hei'
      have hedges := hpos hnext'
      obtain ⟨hrows, hcols⟩ := rowsAsked_of_requests (g := g) (i := ei.id)
        (GraphReader.requests_nextFeature hnext)
      have hle : k + 1 ≤ g.archInfo.bf * (g.colIdx ei.id).length := by
        rcases hnext' with ⟨-, h⟩ | ⟨hbf, -⟩
        · exact h.le
        · exact absurd hbf hw.bf_pos.ne'
      refine ⟨fun j hj => ?_, .inl ?_⟩
      · refine work_congr ?_ ?_ (sameEngine_enterFtoList (Ne.symm hj)) rfl
        · simp only [Function.update_of_ne hj]
        · simp only [Function.update_of_ne hj]
      · have hunread := unread_enterFtoList hk hedges hstream
        have hpq : (c.fr.enterFtoList ei).pq ei.id = c.fr.pq ei.id ++ [ei] :=
          Function.update_self _ _ _
        simp only [work, edgesLeft, hunread, Function.update_self, hrows, hcols, hedges, hk, hpq,
          List.length_append, List.length_singleton]
        change _ + (_ + queuedLines ei.id c.fr) + _ < _
        omega

/-! ## The calls of the feature reader -/

theorem countP_encode {items : List Item} (h : ∀ it ∈ items, CellItem g it) :
    (encode items).countP (· ≠ 0) = items.length := by
  induction items with
  | nil => rfl
  | cons it items ih =>
    have hne := (h it (by simp)).ne_zero
    rw [encode_cons, List.countP_cons, List.countP_append,
      ih fun it' hit' => h it' (List.mem_cons_of_mem _ hit'), List.length_cons]
    cases it.2 <;> simp [hne]

/-- The edge that is put in place is no longer queued. -/
theorem ahead_begun {s t : FeatureReader} (h : s.begun i = some t) :
    ahead g i t = ahead g i s ∧
      ((s.frs i).pqReadNeed = false ∧ t = s ∨ (t.pq i).length < (s.pq i).length) := by
  obtain ⟨hneed, rfl⟩ | ⟨ei, rest, hneed, hpq, rfl⟩ := begun_cases h
  · exact ⟨rfl, .inl ⟨hneed, rfl⟩⟩
  · have hfrs : (s.consumePendingQ i ei rest).frs i = ⟨ei.isLast, ei.dst, ei.vFold, 0, false⟩ :=
      Function.update_self _ _ _
    have hrest : (s.consumePendingQ i ei rest).pq i = rest := Function.update_self _ _ _
    have hzero : place g ⟨ei.isLast, ei.dst, ei.vFold, 0, false⟩ = 0 := by
      unfold place
      split <;> rfl
    refine ⟨?_, .inr (by rw [hrest, hpq, List.length_cons]; omega)⟩
    rw [ahead, ahead, hfrs, hrest, hpq, restTokens, restTokens, if_pos hneed,
      if_neg Bool.false_ne_true, hzero]
    simp only [lineCount, List.flatMap_cons, List.length_append, List.length_nil, List.drop_zero,
      planned, planTokens]
    omega

/-- Reading a line moves it from the current edge to the queue. -/
theorem FeatureReader.PlannedRead.moves {s s' : FeatureReader} {a : ℕ} (ht : PlanTable g)
    (hneed : (s.frs i).pqReadNeed = false) (hcur : OnPlan g (s.frs i))
    (h : PlannedRead g i a s s') :
    ahead g i s' + 1 = ahead g i s ∧ queuedLines i s' = queuedLines i s + 1 := by
  obtain ⟨f, hfrs, hmoved⟩ := h.frs_eq
  obtain ⟨v, hv, hfq⟩ := h.fq_eq
  have hcell : IsCell g.archInfo a :=
    ht.cell _ hcur.dst_lt _ hcur.vFold_lt a (List.mem_of_getElem? h.line)
  refine ⟨?_, ?_⟩
  · rw [ahead, ahead, h.pq_eq, hfrs, Function.update_self, restTokens_step hcur hneed hmoved v,
      List.length_cons]
    omega
  · have hitem : ∀ it ∈ [(v, isEnd g (s.frs i) && (s.frs i).isLast)], CellItem g it := by
      intro it hit
      rw [List.mem_singleton.mp hit]
      rcases hv with rfl | ⟨rfl, -⟩
      · exact .inr hcell
      · exact .inl rfl
    rw [queuedLines, queuedLines, hfq, Function.update_self, List.countP_append, countP_encode hitem]
    rfl

/-- A request for a line that an engine wants. -/
theorem Quiet.request {a : ℕ} (hwant : Wanted g i c.fr a) (hcell : IsCell g.archInfo a) :
    Quiet g i c { c with fr := c.fr.request a } := by
  refine ⟨by simp, by simp, by simp, by simp, rfl, fun _ => rfl, fun _ => rfl, ?_⟩
  by_cases hold : a ∈ c.fr.requested
  · left
    simp [request_requested, request_mem, hold]
  · right
    refine ⟨a, hwant, hcell, request_requested _ _, ?_⟩
    simp only [request_mem, if_neg hold]
    rfl

theorem mem_request (s : FeatureReader) (a : ℕ) : a ∈ (s.request a).requested := by
  rw [request_requested]
  exact Finset.mem_insert_self _ _

/-- `ReadNext` waits, or begins an edge, or moves a line from the edges to the queue. -/
theorem readNext_moves (hw : Workload inp g) (hrun : Running g c)
    (hcall : c.call g i .readNext = some c') :
    (Quiet g i c c' ∧ Waits g i c c' .readNext) ∨
      (c'.gr = c.gr ∧ c'.si = c.si ∧ (∀ j, j ≠ i → SameEngine j c.fr c'.fr) ∧
        unread g i c' + queuedLines i c'.fr = unread g i c + queuedLines i c.fr ∧
        unread g i c' + (c'.fr.pq i).length < unread g i c + (c.fr.pq i).length) := by
  obtain ⟨k, out, hengine⟩ := hrun.pipe.engines i
  have hlines := hengine.lines
  simp only [Controller.call, Option.map_eq_some_iff] at hcall
  obtain ⟨fr, hfr, rfl⟩ := hcall
  obtain ⟨fr', hfr', heffect⟩ := readNext_effect hw.table hrun.pipe.requests.cache hlines.current
    hlines.pending
  rw [hfr] at hfr'
  cases hfr'
  have hsame := fun j (hj : j ≠ i) => heffect.sameEngine hj
  cases heffect with
  | idle hwait =>
    refine .inl ⟨.refl g i c, ?_⟩
    rcases hwait with (hfull | hacc) | hnone
    · exact .inl hfull
    · exact .inr (.inl (by simpa using hacc))
    · exact .inr (.inr (.inl hnone))
  | @await t a hbegun hwait hmiss =>
    obtain ⟨hahead, ⟨-, rfl⟩ | hlt⟩ := ahead_begun (g := g) hbegun
    · obtain ⟨b, hb, hcell⟩ := hw.table.header hwait.headed _ (hlines.current hwait.current).dst_lt
      obtain rfl : b = a := Option.some.inj (hb.symm.trans hwait.header)
      exact .inl ⟨.request (.inr hwait) hcell,
        .inr (.inr (.inr ⟨b, hwait, mem_request c.fr b, hmiss⟩))⟩
    · right
      have hahead' : ahead g i (t.request a) = ahead g i t := by simp [ahead]
      have hqueued : queuedLines i (t.request a) = queuedLines i c.fr := by
        rw [queuedLines, queuedLines, request_fq, (begun_fq hbegun).1]
      refine ⟨rfl, rfl, hsame, ?_, ?_⟩
      · simp only [unread, hahead', hahead, hqueued]
      · simp only [unread, hahead', hahead, request_pq]
        omega
  | @line t s' a hbegun hread =>
    right
    obtain ⟨hahead, hpq⟩ := ahead_begun (g := g) hbegun
    obtain ⟨hneed, hcur⟩ := begun_onPlan hw.table hlines.current hlines.pending hbegun
    obtain ⟨hahead', hqueued⟩ := hread.moves hw.table hneed hcur
    have hqueued' : queuedLines i t = queuedLines i c.fr := by
      rw [queuedLines, queuedLines, (begun_fq hbegun).1]
    have hle : (t.pq i).length ≤ (c.fr.pq i).length := by
      rcases hpq with ⟨-, rfl⟩ | hlt
      · exact le_rfl
      · exact hlt.le
    refine ⟨rfl, rfl, hsame, ?_, ?_⟩
    · simp only [unread]
      omega
    · simp only [unread, hread.pq_eq]
      omega

theorem outcome_readNext (hw : Workload inp g) (hrun : Running g c)
    (hcall : c.call g i .readNext = some c') : Outcome g i .readNext c c' := by
  rcases readNext_moves hw hrun hcall with ⟨hquiet, hwait⟩ | ⟨hgr, hsi, hsame, hkeep, hless⟩
  · exact .of_quiet hquiet hwait
  · refine ⟨fun j hj => work_congr (by rw [hgr]) (by rw [hgr]) (hsame j hj) (by rw [hsi]), .inl ?_⟩
    simp only [work, edgesLeft, hgr, hsi, hkeep]
    omega

/-- `PassFtoSIMD` waits for the front line, or takes it off the queue. -/
theorem passFtoSIMD_moves (hrun : Running g c) (hcall : c.call g i .passFtoSIMD = some c') :
    (Quiet g i c c' ∧ Waits g i c c' .passFtoSIMD) ∨
      (c'.gr = c.gr ∧ (∀ j, j ≠ i → c'.si j = c.si j) ∧ (∀ j, j ≠ i → SameEngine j c.fr c'.fr) ∧
        (c'.si i).cnt + (c.si i).wq.length = (c.si i).cnt + (c'.si i).wq.length ∧
        c'.fr.pq = c.fr.pq ∧ unread g i c' = unread g i c ∧
        queuedLines i c'.fr + 1 = queuedLines i c.fr) := by
  obtain ⟨k, out, hengine⟩ := hrun.pipe.engines i
  have heffect := (hengine.lines.passFtoSIMD hrun.pipe.requests.cache).1
  have hsame := fun j (hj : j ≠ i) => heffect.sameEngine hj
  have hcnt := cnt_getFeature g (c.fr.passFtoSIMD g i).1 (c.si i)
  simp only [Controller.call, Option.some.injEq] at hcall
  generalize c.fr.passFtoSIMD g i = p at hcall heffect hsame hcnt
  obtain ⟨pass, fr⟩ := p
  dsimp only at hcall heffect hsame hcnt
  -- without a result the SIMD unit is left alone
  have hsi : (c.si i).getFeature g (-1) = c.si i := Simd.getFeature_of_ne (by decide)
  cases heffect with
  | empty hnil =>
    left
    rw [hsi, Function.update_eq_self] at hcall
    subst hcall
    refine ⟨.refl g i c, fun a ha => ?_⟩
    rw [hnil] at ha
    cases ha
  | @stall a hhead hcell hmiss =>
    left
    rw [hsi, Function.update_eq_self] at hcall
    subst hcall
    refine ⟨.request (.inl hhead) hcell, fun b hb => ?_⟩
    obtain rfl : a = b := Option.some.inj (hhead.symm.trans hb)
    exact ⟨mem_request c.fr a, hmiss⟩
  | @pass it rest cah hfq hok =>
    right
    subst hcall
    refine ⟨rfl, fun j hj => Function.update_of_ne hj _ _, hsame, ?_, rfl, rfl, ?_⟩
    · simp only [Function.update_self]
      exact hcnt
    · simp only [queuedLines, Function.update_self]
      rw [hfq, countP_encode hok, countP_encode fun it' hit' => hok it' (List.mem_cons_of_mem _ hit')]
      rfl

theorem outcome_passFtoSIMD (hrun : Running g c) (hcall : c.call g i .passFtoSIMD = some c') :
    Outcome g i .passFtoSIMD c c' := by
  rcases passFtoSIMD_moves hrun hcall with ⟨hquiet, hwait⟩ |
    ⟨hgr, hsi, hsame, hcnt, hpq, hunread, hqueued⟩
  · exact .of_quiet hquiet hwait
  · refine ⟨fun j hj => work_congr (by rw [hgr]) (by rw [hgr]) (hsame j hj) (hsi j hj), .inl ?_⟩
    simp only [work, edgesLeft, hgr, hpq, hunread]
    omega

/-! ## The calls of the SIMD unit -/

theorem outcome_write (hw : Workload inp g) (hrun : Running g c)
    (hcall : c.call g i .write = some c') : Outcome g i .write c c' := by
  obtain ⟨k, out, hengine⟩ := hrun.pipe.engines i
  have hcnt := hengine.cnt_le hw.toEquipped
  simp only [Controller.call, Option.some.injEq, Simd.write] at hcall
  subst hcall
  have hsame : { c with si := Function.update c.si i (c.si i) } = c := by
    rw [Function.update_eq_self]
  split
  · next hwq =>
    rw [hsame]
    exact .skip (.inl hwq)
  · next a rest hwq =>
    split
    · refine ⟨fun j hj => work_congr rfl rfl ⟨rfl, rfl, rfl⟩ (Function.update_of_ne hj _ _), .inl ?_⟩
      have hlen : (c.si i).wq.length = rest.length + 1 := by rw [hwq, List.length_cons]
      simp only [work, edgesLeft, unread, ahead, queuedLines, Function.update_self, hlen]
      omega
    · next hacc =>
      rw [hsame]
      exact .skip (.inr (by simpa using hacc))

theorem outcome_call (hw : Workload inp g) (hrun : Running g c) (hi : i < g.archInfo.nOfEngine)
    {k : EngineCall} (hcall : c.call g i k = some c') : Outcome g i k c c' := by
  cases k with
  | vertexRequest => exact outcome_vertexRequest hw hrun hi hcall
  | edgeRequest => exact outcome_edgeRequest hw hrun hi hcall
  | graphReceive => exact outcome_graphReceive hcall
  | nextFeature => exact outcome_nextFeature hw hrun hi hcall
  | readNext => exact outcome_readNext hw hrun hcall
  | passFtoSIMD => exact outcome_passFtoSIMD hrun hcall
  | write => exact outcome_write hw hrun hcall

/-- No call is undefined. -/
theorem exists_call (hw : Workload inp g) (hrun : Running g c) (hi : i < g.archInfo.nOfEngine)
    (k : EngineCall) : ∃ c', c.call g i k = some c' := by
  cases k with
  | vertexRequest =>
    simp only [Controller.call]
    split <;> exact ⟨_, rfl⟩
  | edgeRequest =>
    simp only [Controller.call]
    split <;> exact ⟨_, rfl⟩
  | graphReceive =>
    simp only [Controller.call]
    split <;> exact ⟨_, rfl⟩
  | nextFeature =>
    obtain ⟨kv, ke, R, C, V, k, harr⟩ := hrun.arrivals i hi
    obtain ⟨r, next, hnext, -⟩ := harr.stream.nextFeature (hw.valid i) (hw.edge_pos i hi)
    simp only [Controller.call, hnext]
    split
    · exact ⟨_, rfl⟩
    · cases next <;> exact ⟨_, rfl⟩
  | readNext =>
    obtain ⟨k, out, hengine⟩ := hrun.pipe.engines i
    obtain ⟨fr, hfr, -⟩ := readNext_effect hw.table hrun.pipe.requests.cache hengine.lines.current
      hengine.lines.pending
    simp only [Controller.call, hfr]
    exact ⟨_, rfl⟩
  | passFtoSIMD => exact ⟨_, rfl⟩
  | write => exact ⟨_, rfl⟩

/-! ## The work of all engines -/

/-- The work before the engines. -/
def totalWork (g : Globals) (c : Controller) : ℕ :=
  ∑ i ∈ Finset.range g.archInfo.nOfEngine, work g i c

theorem totalWork_congr (hgr : c'.gr = c.gr) (hsi : c'.si = c.si)
    (hfr : ∀ i, SameEngine i c.fr c'.fr) : totalWork g c' = totalWork g c :=
  Finset.sum_congr rfl fun i _ =>
    work_congr (by rw [hgr]) (by rw [hgr]) (hfr i) (by rw [hsi])

theorem Outcome.totalWork {k : EngineCall} (hi : i < g.archInfo.nOfEngine)
    (h : Outcome g i k c c') : totalWork g c' < totalWork g c ∨
      totalWork g c' = totalWork g c ∧ Quiet g i c c' ∧ Waits g i c c' k := by
  have hmem : i ∈ Finset.range g.archInfo.nOfEngine := Finset.mem_range.mpr hi
  rcases h.own with hlt | ⟨heq, hquiet⟩
  · left
    refine Finset.sum_lt_sum (fun j _ => ?_) ⟨i, hmem, hlt⟩
    by_cases hj : j = i
    · rw [hj]
      exact hlt.le
    · exact (h.others j hj).le
  · right
    refine ⟨Finset.sum_congr rfl fun j _ => ?_, hquiet⟩
    by_cases hj : j = i
    · rw [hj]
      exact heq
    · exact h.others j hj

/-- No step adds to the work, and a call that takes nothing off waits. -/
theorem totalWork_step (hw : Workload inp g) {s s' : Config} (hs : s.Reachable g)
    (hstep : Step g s s') : totalWork g s'.ctr < totalWork g s.ctr ∨
      totalWork g s'.ctr = totalWork g s.ctr ∧
        ∀ i k, s.pc = .engine i k → Quiet g i s.ctr s'.ctr ∧ Waits g i s.ctr s'.ctr k := by
  have hrun := hw.running hs
  cases hstep with
  | call hcall =>
    have hi := engine_lt_of_reachable hs rfl
    rcases (outcome_call hw hrun hi hcall).totalWork hi with hlt | ⟨heq, hquiet⟩
    · exact .inl hlt
    · refine .inr ⟨heq, fun i k hpc => ?_⟩
      cases hpc
      exact hquiet
  | featureReceive =>
    refine .inr ⟨?_, fun _ _ hpc => by cases hpc⟩
    exact totalWork_congr rfl rfl fun i => sameEngine_featureReceive i _
  | accept => exact .inr ⟨totalWork_congr rfl rfl fun i => ⟨rfl, rfl, rfl⟩, fun _ _ hpc => by cases hpc⟩
  | readReply =>
    exact .inr ⟨totalWork_congr rfl rfl fun i => ⟨rfl, rfl, rfl⟩, fun _ _ hpc => by cases hpc⟩
  | writeReply =>
    exact .inr ⟨totalWork_congr rfl rfl fun i => ⟨rfl, rfl, rfl⟩, fun _ _ hpc => by cases hpc⟩
  | refuse => exact .inr ⟨rfl, fun _ _ hpc => by cases hpc⟩
  | tick => exact .inr ⟨rfl, fun _ _ hpc => by cases hpc⟩
  | again => exact .inr ⟨rfl, fun _ _ hpc => by cases hpc⟩
  | exit => exact .inr ⟨rfl, fun _ _ hpc => by cases hpc⟩

end Sgcn

-- SUMMARY: The requests of a graph reader go round its own regions `bf` times, exactly when it has an edge.
import Sgcn.Base.Machine
import Sgcn.Graph.Cursor
import Sgcn.Graph.Requests
import Sgcn.Layout.Prepared

/-!
# Graph prefetch

A reader asks for the lines of its row region, and of its column and value
regions, `bf` times over. It recognises the end of a round by comparing the next
address with the end of the region, after the increment; an empty region has no
such end.
-/

namespace Sgcn

open Blocks

namespace GraphReader

variable {g : Globals} {id kv ke : ℕ} {r r' : GraphReader} {m : Memory}

/-! ## Going round a region -/

section Round

variable {lo lines bf k addr count : ℕ}

/-- `k` lines have been requested. -/
structure RoundInv (lo lines bf k addr count : ℕ) (isOver : Bool) : Prop where
  le : k ≤ bf * lines
  addr_eq : addr = lineAt lo lines k
  count_eq : count = k / lines
  over_iff : isOver = true ↔ k = bf * lines

theorem RoundInv.init (hbf : 0 < bf) (hlines : 0 < lines) : RoundInv lo lines bf 0 lo 0 false where
  le := Nat.zero_le _
  addr_eq := by simp [lineAt]
  count_eq := by simp
  over_iff := by
    have := Nat.mul_pos hbf hlines
    simp only [Bool.false_eq_true, false_iff]
    omega

/-- One more request. The end of the region is met exactly at the end of a round. -/
theorem RoundInv.step (hlines : 0 < lines) (h : RoundInv lo lines bf k addr count false) :
    let isEnd := decide (addr + cacheLineByte = lo + cacheLineByte * lines)
    RoundInv lo lines bf (k + 1) (if isEnd then lo else addr + cacheLineByte)
      (if isEnd then count + 1 else count) (isEnd && decide (count + 1 = bf)) := by
  have hne : k ≠ bf * lines := fun heq => by simpa using h.over_iff.mpr heq
  have hle := h.le
  have hend := lineAt_end_iff lo k hlines
  rw [h.addr_eq]
  dsimp only
  rcases Rounds.succ_cases hlines k with ⟨hlt, hdiv, hmod⟩ | ⟨hlast, hdiv, hmod⟩
  · have hgo : k % lines + 1 ≠ lines := by omega
    rw [decide_eq_false (mt hend.mp hgo), Bool.false_and]
    refine ⟨by omega, by rw [lineAt_succ lo k hlines, if_neg hgo]; rfl, ?_, ?_⟩
    · rw [hdiv]
      exact h.count_eq
    · simp only [Bool.false_eq_true, false_iff]
      intro heq
      rw [heq, Nat.mul_mod_left] at hmod
      omega
  · rw [decide_eq_true (hend.mpr hlast), Bool.true_and]
    have hdm := Nat.div_add_mod (k + 1) lines
    rw [hmod, hdiv, ← h.count_eq, Nat.add_zero] at hdm
    refine ⟨by omega, by rw [lineAt_succ lo k hlines, if_pos hlast]; rfl, ?_, ?_⟩
    · rw [hdiv, ← h.count_eq]
      rfl
    · rw [decide_eq_true_iff, ← hdm, mul_comm lines]
      exact ⟨fun hb => by rw [hb], fun hb => Nat.eq_of_mul_eq_mul_right hlines hb⟩

end Round

/-! ## The requests of one reader -/

/-- Lines of the row region. -/
def rowLines (g : Globals) (id : ℕ) : ℕ := ceilDiv (g.rowPtr id).length cacheLineCount

/-- Lines of the column region. -/
def colLines (g : Globals) (id : ℕ) : ℕ := ceilDiv (g.colIdx id).length cacheLineCount

/-- The regions of a reader have room for its arrays, and none is empty. -/
structure OwnRegions (g : Globals) (id : ℕ) : Prop where
  rowLines_pos : 0 < rowLines g id
  colLines_pos : 0 < colLines g id
  rowEnd_eq : (g.dataIndex id).rowAddrEnd =
    (g.dataIndex id).rowAddrStart + cacheLineByte * rowLines g id
  colEnd_eq : (g.dataIndex id).colAddrEnd =
    (g.dataIndex id).colAddrStart + cacheLineByte * colLines g id
  valueEnd_eq : (g.dataIndex id).valueAddrEnd =
    (g.dataIndex id).valueAddrStart + cacheLineByte * colLines g id

theorem regionEnds_of_layout (h : GraphLayout g) (hid : id < g.archInfo.nOfEngine) :
    (g.dataIndex id).rowAddrEnd = (g.dataIndex id).rowAddrStart + cacheLineByte * rowLines g id ∧
      (g.dataIndex id).colAddrEnd =
        (g.dataIndex id).colAddrStart + cacheLineByte * colLines g id ∧
      (g.dataIndex id).valueAddrEnd =
        (g.dataIndex id).valueAddrStart + cacheLineByte * colLines g id := by
  refine ⟨?_, ?_, ?_⟩
  · rw [(h.row id hid).1, (h.row id hid).2, start_succ, rowBytes, lineBytes, rowLines,
      mul_comm cacheLineByte, Nat.add_assoc]
  · rw [(h.col id hid).1, (h.col id hid).2, start_succ, colBytes, lineBytes, colLines,
      mul_comm cacheLineByte, Nat.add_assoc]
  · rw [(h.value id hid).1, (h.value id hid).2, start_succ, colBytes, lineBytes, colLines,
      mul_comm cacheLineByte]

theorem OwnRegions.of_layout (h : GraphLayout g) (hid : id < g.archInfo.nOfEngine)
    (hptr : 0 < (g.rowPtr id).length) (hcol : 0 < (g.colIdx id).length) : OwnRegions g id := by
  obtain ⟨hrow, hcol', hval⟩ := regionEnds_of_layout h hid
  exact ⟨ceilDiv_pos hptr (by decide), ceilDiv_pos hcol (by decide), hrow, hcol', hval⟩

/-- `kv` row lines and `ke` column lines have been requested. -/
structure RequestInv (g : Globals) (id kv ke : ℕ) (r : GraphReader) : Prop where
  rows : RoundInv (g.dataIndex id).rowAddrStart (rowLines g id) g.archInfo.bf kv
    r.nextVAddr r.vReqCount r.vReqOver
  cols : RoundInv (g.dataIndex id).colAddrStart (colLines g id) g.archInfo.bf ke
    r.nextEAddr r.eReqCount r.eReqOver
  vals : g.archInfo.gnnMode = .gcn →
    r.nextValAddr = lineAt (g.dataIndex id).valueAddrStart (colLines g id) ke

theorem RequestInv.init (ho : OwnRegions g id) (hbf : 0 < g.archInfo.bf) :
    RequestInv g id 0 0 (.init g id) where
  rows := .init hbf ho.rowLines_pos
  cols := .init hbf ho.colLines_pos
  vals := fun _ => by simp [GraphReader.init, lineAt]

/-- What the requests of a reader depend on. -/
def requests (r : GraphReader) : ℕ × ℕ × ℕ × ℕ × ℕ × Bool × Bool :=
  (r.nextVAddr, r.nextEAddr, r.nextValAddr, r.vReqCount, r.eReqCount, r.vReqOver, r.eReqOver)

theorem RequestInv.congr (h : RequestInv g id kv ke r) (heq : r'.requests = r.requests) :
    RequestInv g id kv ke r' := by
  simp only [requests, Prod.mk.injEq] at heq
  obtain ⟨hv, he, hval, hvc, hec, hvo, heo⟩ := heq
  refine ⟨?_, ?_, ?_⟩
  · rw [hv, hvc, hvo]; exact h.rows
  · rw [he, hec, heo]; exact h.cols
  · rw [hval]; exact h.vals

theorem requests_graphReceive (reci : RType) :
    (r.graphReceive g id reci).requests = r.requests := by
  obtain ⟨isOver, heq⟩ := graphReceive_eq g id r reci
  rw [heq]
  cases reci <;> rfl

theorem requests_nextFeature {out : Option EdgeInfo}
    (h : r.nextFeature g id = some (r', out)) : r'.requests = r.requests := by
  unfold GraphReader.nextFeature at h
  split at h
  · cases h
    rfl
  · obtain ⟨t, ht, hpass⟩ := Option.bind_eq_some_iff.mp h
    have hframe : t.requests = r.requests := by
      rw [enterRows_frame ht]
      rfl
    rw [← hframe]
    have hwrap : ∀ size, (t.wrapCols size).requests = t.requests := by
      intro size
      unfold GraphReader.wrapCols
      split <;> rfl
    split at hpass
    · simp only [GraphReader.passEdge] at hpass
      split at hpass
      · cases hpass
        exact hwrap _
      · obtain ⟨dst, -, heq⟩ := Option.map_eq_some_iff.mp hpass
        cases heq
        exact hwrap _
    · cases hpass
      rfl

/-- A `VertexRequest` call issues the next row line, or nothing when the memory
refuses. -/
theorem RequestInv.vertexRequest (ho : OwnRegions g id) (h : RequestInv g id kv ke r)
    (hover : r.vReqOver = false) :
    r.vertexRequest g id m = (r, m) ∨
      ∃ r', r.vertexRequest g id m =
          (r', m.addReads [lineAt (g.dataIndex id).rowAddrStart (rowLines g id) kv]) ∧
        RequestInv g id (kv + 1) ke r' := by
  have hrows := h.rows
  rw [hover] at hrows
  rw [vertexRequest_eq, ← hrows.addr_eq]
  split
  · refine .inr ⟨_, rfl, ?_, h.cols, h.vals⟩
    simp only [afterVertexRequest, hover, Bool.false_or, ho.rowEnd_eq]
    exact hrows.step ho.rowLines_pos
  · exact .inl rfl

/-- The lines an `EdgeRequest` call asks for. -/
def edgeLines (g : Globals) (id ke : ℕ) : List ℕ :=
  lineAt (g.dataIndex id).colAddrStart (colLines g id) ke ::
    if g.archInfo.gnnMode = .gcn then [lineAt (g.dataIndex id).valueAddrStart (colLines g id) ke]
    else []

/-- An `EdgeRequest` call issues the next column line and, when the edges carry
values, the value line beside it. -/
theorem RequestInv.edgeRequest (ho : OwnRegions g id) (h : RequestInv g id kv ke r)
    (hover : r.eReqOver = false) :
    r.edgeRequest g id m = (r, m) ∨
      ∃ r', r.edgeRequest g id m = (r', m.addReads (edgeLines g id ke)) ∧
        RequestInv g id kv (ke + 1) r' := by
  have hcols := h.cols
  rw [hover] at hcols
  have hreads : r.edgeReads g = edgeLines g id ke := by
    unfold edgeReads edgeLines
    rw [hcols.addr_eq]
    split
    · next hgcn => rw [h.vals hgcn]
    · rfl
  rw [edgeRequest_eq, hreads]
  split
  · refine .inr ⟨_, rfl, h.rows, ?_, fun hgcn => ?_⟩
    · simp only [afterEdgeRequest, hover, Bool.false_or, ho.colEnd_eq]
      exact hcols.step ho.colLines_pos
    · -- the value address follows the column address round its own region
      have hend := lineAt_end_iff (g.dataIndex id).colAddrStart ke ho.colLines_pos
      simp only [afterEdgeRequest, if_pos hgcn, ho.colEnd_eq, hcols.addr_eq, h.vals hgcn,
        decide_eq_true_eq, hend, lineAt_succ _ ke ho.colLines_pos]
  · exact .inl rfl

/-! ## Runs of the reader -/

/-- The calls of a reader. The memory is that of the moment of the call: in
between, others fill and drain its queue. -/
inductive PrefetchCall where
  | vertexRequest (m : Memory)
  | edgeRequest (m : Memory)
  | graphReceive (reci : RType)
  | nextFeature

/-- The addresses that a call has added to the transaction queue. -/
def issued (m m' : Memory) : List ℕ := (m'.tq.drop m.tq.length).map Transaction.address

/-- A call, with the guards of `GCNInference` around the requests, and the requests
it issues. `EdgeRequest` issues a column before a value. -/
def prefetchCall (g : Globals) (id : ℕ) : Machine.Call GraphReader PrefetchCall (RType × ℕ)
  | r, .vertexRequest m =>
    if r.vReqOver then some (r, [])
    else
      let p := r.vertexRequest g id m
      some (p.1, [RType.row].zip (issued m p.2))
  | r, .edgeRequest m =>
    if r.eReqOver then some (r, [])
    else
      let p := r.edgeRequest g id m
      some (p.1, [RType.column, RType.value].zip (issued m p.2))
  | r, .graphReceive reci => some (r.graphReceive g id reci, [])
  | r, .nextFeature => (r.nextFeature g id).map fun p => (p.1, [])

/-- The reader has made `calls` and issued `out`. -/
def PrefetchRun (g : Globals) (id : ℕ) (calls : List PrefetchCall) (r : GraphReader)
    (out : List (RType × ℕ)) : Prop :=
  Machine.run (prefetchCall g id) (.init g id) calls = some (r, out)

/-- The requests of one kind. -/
def ofKind (kind : RType) (out : List (RType × ℕ)) : List ℕ :=
  (out.filter fun p => p.1 = kind).map Prod.snd

/-- The lines of the region from `lo` to `hi`, `bf` times in order. -/
def roundsOf (bf lo hi : ℕ) : List ℕ :=
  (List.replicate bf ((List.range ((hi - lo) / cacheLineByte)).map fun j =>
    lo + cacheLineByte * j)).flatten

/-- What the requests `out` of a reader should be: per kind a part of the rounds
through its region, complete when the flag says so, and nothing outside. -/
structure PrefetchOk (g : Globals) (id : ℕ) (r : GraphReader) (out : List (RType × ℕ)) : Prop where
  rows : ofKind .row out <+:
    roundsOf g.archInfo.bf (g.dataIndex id).rowAddrStart (g.dataIndex id).rowAddrEnd
  cols : ofKind .column out <+:
    roundsOf g.archInfo.bf (g.dataIndex id).colAddrStart (g.dataIndex id).colAddrEnd
  vals : g.archInfo.gnnMode = .gcn → ofKind .value out <+:
    roundsOf g.archInfo.bf (g.dataIndex id).valueAddrStart (g.dataIndex id).valueAddrEnd
  vReqOver_iff : r.vReqOver = true ↔ ofKind .row out =
    roundsOf g.archInfo.bf (g.dataIndex id).rowAddrStart (g.dataIndex id).rowAddrEnd
  eReqOver_iff : r.eReqOver = true ↔ ofKind .column out =
      roundsOf g.archInfo.bf (g.dataIndex id).colAddrStart (g.dataIndex id).colAddrEnd ∧
    (g.archInfo.gnnMode = .gcn → ofKind .value out =
      roundsOf g.archInfo.bf (g.dataIndex id).valueAddrStart (g.dataIndex id).valueAddrEnd)
  own : ∀ p ∈ out, p.2 < g.archInfo.xwEleAddrStart ∧
    ∀ j < g.archInfo.nOfEngine, ∀ kind,
      Memory.inRegion (g.dataIndex j) kind p.2 = true → j = id

/-- The requests after `kv` row lines and `ke` column lines. -/
structure IssuedInv (g : Globals) (id kv ke : ℕ) (out : List (RType × ℕ)) : Prop where
  rows : ofKind .row out =
    (List.range kv).map (lineAt (g.dataIndex id).rowAddrStart (rowLines g id))
  cols : ofKind .column out =
    (List.range ke).map (lineAt (g.dataIndex id).colAddrStart (colLines g id))
  vals : g.archInfo.gnnMode = .gcn → ofKind .value out =
    (List.range ke).map (lineAt (g.dataIndex id).valueAddrStart (colLines g id))
  own : ∀ p ∈ out, Memory.inRegion (g.dataIndex id) p.1 p.2 = true

theorem ofKind_append (kind : RType) (out out' : List (RType × ℕ)) :
    ofKind kind (out ++ out') = ofKind kind out ++ ofKind kind out' := by
  simp [ofKind]

theorem IssuedInv.row (ho : OwnRegions g id) {out : List (RType × ℕ)}
    (h : IssuedInv g id kv ke out) :
    IssuedInv g id (kv + 1) ke
      (out ++ [(.row, lineAt (g.dataIndex id).rowAddrStart (rowLines g id) kv)]) := by
  refine ⟨?_, ?_, fun hgcn => ?_, fun p hp => ?_⟩
  · rw [ofKind_append, h.rows, List.range_succ, List.map_append]
    rfl
  · rw [ofKind_append, h.cols]
    simp [ofKind]
  · rw [ofKind_append, h.vals hgcn]
    simp [ofKind]
  · rcases List.mem_append.mp hp with hp | hp
    · exact h.own p hp
    · obtain rfl := List.mem_singleton.mp hp
      have := lineAt_mem (g.dataIndex id).rowAddrStart kv ho.rowLines_pos
      rw [← ho.rowEnd_eq] at this
      exact decide_eq_true this

theorem IssuedInv.edge (ho : OwnRegions g id) {out : List (RType × ℕ)}
    (h : IssuedInv g id kv ke out) :
    IssuedInv g id kv (ke + 1)
      (out ++ [RType.column, RType.value].zip (edgeLines g id ke)) := by
  have hcol := lineAt_mem (g.dataIndex id).colAddrStart ke ho.colLines_pos
  have hval := lineAt_mem (g.dataIndex id).valueAddrStart ke ho.colLines_pos
  rw [← ho.colEnd_eq] at hcol
  rw [← ho.valueEnd_eq] at hval
  unfold edgeLines
  cases hgnn : g.archInfo.gnnMode with
  | gcn =>
    simp only [if_true, List.zip_cons_cons, List.zip_nil_left]
    refine ⟨?_, ?_, fun _ => ?_, fun p hp => ?_⟩
    · rw [ofKind_append, h.rows]
      simp [ofKind]
    · rw [ofKind_append, h.cols, List.range_succ, List.map_append]
      rfl
    · rw [ofKind_append, h.vals hgnn, List.range_succ, List.map_append]
      rfl
    · rcases List.mem_append.mp hp with hp | hp
      · exact h.own p hp
      · rcases List.mem_cons.mp hp with rfl | hp
        · exact decide_eq_true hcol
        · obtain rfl := List.mem_singleton.mp hp
          exact decide_eq_true hval
  | other =>
    simp only [reduceCtorEq, if_false, List.zip_cons_cons, List.zip_nil_right]
    refine ⟨?_, ?_, fun hgcn => ?_, fun p hp => ?_⟩
    · rw [ofKind_append, h.rows]
      simp [ofKind]
    · rw [ofKind_append, h.cols, List.range_succ, List.map_append]
      rfl
    · rw [hgnn] at hgcn
      cases hgcn
    · rcases List.mem_append.mp hp with hp | hp
      · exact h.own p hp
      · obtain rfl := List.mem_singleton.mp hp
        exact decide_eq_true hcol

theorem issued_addReads (m : Memory) (l : List ℕ) : issued m (m.addReads l) = l := by
  simp [issued, Memory.addReads, Function.comp_def]

/-- A run of a reader with its regions. -/
theorem prefetch_run_inv (ho : OwnRegions g id) (hbf : 0 < g.archInfo.bf)
    {calls : List PrefetchCall} {out : List (RType × ℕ)} (hrun : PrefetchRun g id calls r out) :
    ∃ kv ke, RequestInv g id kv ke r ∧ IssuedInv g id kv ke out := by
  refine Machine.run_inv
    (I := fun _ out r => ∃ kv ke, RequestInv g id kv ke r ∧ IssuedInv g id kv ke out)
    ?_ ⟨0, 0, .init ho hbf, rfl, rfl, fun _ => rfl, by simp⟩ hrun
  rintro calls out r call r' o ⟨kv, ke, hreq, hiss⟩ hcall
  cases call with
  | vertexRequest m =>
    simp only [prefetchCall] at hcall
    split at hcall
    · cases hcall
      exact ⟨kv, ke, hreq, by simpa using hiss⟩
    · next hover =>
      rcases hreq.vertexRequest (m := m) ho (by simpa using hover) with heq | ⟨r', heq, hreq'⟩
      · rw [heq] at hcall
        simp only [issued, List.drop_length, List.map_nil, List.zip_nil_right] at hcall
        cases hcall
        exact ⟨kv, ke, hreq, by simpa using hiss⟩
      · rw [heq] at hcall
        simp only [issued_addReads] at hcall
        cases hcall
        exact ⟨kv + 1, ke, hreq', hiss.row ho⟩
  | edgeRequest m =>
    simp only [prefetchCall] at hcall
    split at hcall
    · cases hcall
      exact ⟨kv, ke, hreq, by simpa using hiss⟩
    · next hover =>
      rcases hreq.edgeRequest (m := m) ho (by simpa using hover) with heq | ⟨r', heq, hreq'⟩
      · rw [heq] at hcall
        simp only [issued, List.drop_length, List.map_nil, List.zip_nil_right] at hcall
        cases hcall
        exact ⟨kv, ke, hreq, by simpa using hiss⟩
      · rw [heq] at hcall
        simp only [issued_addReads] at hcall
        cases hcall
        exact ⟨kv, ke + 1, hreq', hiss.edge ho⟩
  | graphReceive reci =>
    cases hcall
    exact ⟨kv, ke, hreq.congr (requests_graphReceive reci), by simpa using hiss⟩
  | nextFeature =>
    obtain ⟨⟨t, out'⟩, hnext, heq⟩ := Option.map_eq_some_iff.mp hcall
    cases heq
    exact ⟨kv, ke, hreq.congr (requests_nextFeature hnext), by simpa using hiss⟩

theorem roundsOf_eq {bf lo lines : ℕ} :
    roundsOf bf lo (lo + cacheLineByte * lines) =
      (List.range (bf * lines)).map (lineAt lo lines) := by
  rw [roundsOf, Nat.add_sub_cancel_left, Nat.mul_div_cancel_left _ (by decide),
    Rounds.flatten_replicate]
  rfl

theorem map_range_prefix {f : ℕ → ℕ} {k n : ℕ} (h : k ≤ n) :
    (List.range k).map f <+: (List.range n).map f := by
  have htake : (List.range n).take k = List.range k := by rw [List.take_range, min_eq_left h]
  rw [← htake, List.map_take]
  exact List.take_prefix _ _

theorem map_range_eq_iff {f : ℕ → ℕ} {k n : ℕ} :
    (List.range k).map f = (List.range n).map f ↔ k = n := by
  constructor
  · intro h
    simpa using congrArg List.length h
  · rintro rfl
    rfl

theorem prefetchOk_of_inv (hl : GraphLayout g) (hid : id < g.archInfo.nOfEngine)
    (ho : OwnRegions g id) {out : List (RType × ℕ)} (hreq : RequestInv g id kv ke r)
    (hiss : IssuedInv g id kv ke out) : PrefetchOk g id r out := by
  refine ⟨?_, ?_, fun hgcn => ?_, ?_, ?_, fun p hp => ?_⟩
  · rw [ho.rowEnd_eq, roundsOf_eq, hiss.rows]
    exact map_range_prefix hreq.rows.le
  · rw [ho.colEnd_eq, roundsOf_eq, hiss.cols]
    exact map_range_prefix hreq.cols.le
  · rw [ho.valueEnd_eq, roundsOf_eq, hiss.vals hgcn]
    exact map_range_prefix hreq.cols.le
  · rw [ho.rowEnd_eq, roundsOf_eq, hiss.rows, map_range_eq_iff]
    exact hreq.rows.over_iff
  · rw [ho.colEnd_eq, roundsOf_eq, hiss.cols, map_range_eq_iff, hreq.cols.over_iff]
    refine ⟨fun hke => ⟨hke, fun hgcn => ?_⟩, And.left⟩
    rw [ho.valueEnd_eq, roundsOf_eq, hiss.vals hgcn, hke]
  · have hreg := hiss.own p hp
    obtain ⟨htype, hlt⟩ := hl.graphType_of_inRegion hid hreg
    refine ⟨hlt, fun j hj kind hregj => ?_⟩
    obtain ⟨htypej, -⟩ := hl.graphType_of_inRegion hj hregj
    rw [← htypej, htype] at hregj
    exact hl.engine_unique hj hid hregj hreg

/-- Without an edge, the first column request already leaves the region. -/
theorem not_prefetchOk_of_no_edge (hl : GraphLayout g) (hid : id < g.archInfo.nOfEngine)
    (hcol : (g.colIdx id).length = 0) :
    ∃ calls r out, PrefetchRun g id calls r out ∧ ¬ PrefetchOk g id r out := by
  have hempty : (g.dataIndex id).colAddrEnd = (g.dataIndex id).colAddrStart := by
    rw [(hl.col id hid).1, (hl.col id hid).2, start_succ, colBytes, lineBytes, hcol]
    simp
  obtain ⟨r, out, hcall, hmem⟩ : ∃ r out, prefetchCall g id (.init g id) (.edgeRequest .init) =
      some (r, out) ∧ (g.dataIndex id).colAddrStart ∈ ofKind .column out := by
    cases hgnn : g.archInfo.gnnMode <;>
      simp [prefetchCall, GraphReader.edgeRequest, Memory.willAcceptTransaction, requestLimit,
        GraphReader.init, hgnn, hempty, issued, Memory.addTransaction, Memory.init, ofKind]
  refine ⟨[.edgeRequest .init], r, out, Machine.run_cons_eq_some.mpr
    ⟨r, out, [], hcall, rfl, (List.append_nil out).symm⟩, fun hok => ?_⟩
  have hpre := hok.cols
  rw [hempty] at hpre
  simp only [roundsOf, Nat.sub_self, Nat.zero_div, List.range_zero, List.map_nil,
    List.flatten_replicate_nil, List.prefix_nil] at hpre
  rw [hpre] at hmem
  simp at hmem

/-- The requests of an engine are as they should be, over every run, exactly when
the engine has received an edge. -/
theorem prefetchOk_iff {inp : Input} (hg : preprocess inp = some g) (hbf : 1 ≤ g.archInfo.bf)
    {i : ℕ} (hi : i < g.archInfo.nOfEngine) :
    (∀ calls r out, PrefetchRun g i calls r out → PrefetchOk g i r out) ↔ g.colIdx i ≠ [] := by
  have hprep := prepared_of_preprocess hg
  constructor
  · intro hall hnil
    obtain ⟨calls, r, out, hrun, hnot⟩ :=
      not_prefetchOk_of_no_edge hprep.layout hi (by rw [hnil]; rfl)
    exact hnot (hall calls r out hrun)
  · intro hne calls r out hrun
    have ho := OwnRegions.of_layout hprep.layout hi (hprep.valid i).length_pos
      (List.length_pos_iff.mpr hne)
    obtain ⟨kv, ke, hreq, hiss⟩ := prefetch_run_inv ho hbf hrun
    exact prefetchOk_of_inv hprep.layout hi ho hreq hiss

theorem prefetchOk_threeVertices :
    ∃ g, preprocess .threeVertices = some g ∧
      ∀ calls r out, PrefetchRun g 0 calls r out → PrefetchOk g 0 r out := by
  obtain ⟨g, hg⟩ := preprocess_threeVertices
  have hprep := preparedXCmp_of_preprocess rfl (by decide) (by decide) hg
  refine ⟨g, hg, (prefetchOk_iff hg ?_ ?_).mpr ?_⟩
  · rw [hprep.bf_eq]
    exact ceilDiv_pos (by decide) (by decide)
  · rw [hprep.nOfEngine_eq]
    decide
  · rw [hprep.colIdx_eq, engineRows_threeVertices.1]
    decide

/-- The second engine of the small input has a row but no edge. -/
theorem not_prefetchOk_threeVertices :
    ∃ g, preprocess .threeVertices = some g ∧ 1 ≤ g.archInfo.bf ∧ 1 < g.archInfo.nOfEngine ∧
      ∃ calls r out, PrefetchRun g 1 calls r out ∧ ¬ PrefetchOk g 1 r out := by
  obtain ⟨g, hg⟩ := preprocess_threeVertices
  have hprep := preparedXCmp_of_preprocess rfl (by decide) (by decide) hg
  have hn : 1 < g.archInfo.nOfEngine := by
    rw [hprep.nOfEngine_eq]
    decide
  refine ⟨g, hg, ?_, hn, not_prefetchOk_of_no_edge hprep.layout hn ?_⟩
  · rw [hprep.bf_eq]
    exact ceilDiv_pos (by decide) (by decide)
  · rw [hprep.colIdx_eq, engineRows_threeVertices.2]
    rfl

end GraphReader

end Sgcn

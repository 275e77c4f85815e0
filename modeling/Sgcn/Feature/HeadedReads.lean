-- SUMMARY: Reads behind a header (`CSR`, `X_FULL_CMP`): the cells of a row are read in order and the edge ends with the last one.
import Sgcn.Feature.Lookups
import Sgcn.Layout.CsrLines

/-!
# Reads behind a header

The first cell of a row names its header line. Once that line is cached, every
`ReadNext` that is let in reads the next cell, and the edge ends with the last one.
The step over the header is unconditional, so that all of this rests on rows that
have a cell behind it.
-/

namespace Sgcn

namespace FeatureReader

variable {g : Globals} {s s' t : FeatureReader} {id : ℕ}

/-- The rows have a cell behind the header, and no cell looks like the row end marker. -/
structure HeadedTable (g : Globals) : Prop where
  mode : g.archInfo.mode = .csr ∨ g.archInfo.mode = .xFullCmp
  long : ∀ r < g.dataInfo.xH, 2 ≤ (g.xToAddr r).length
  ne_zero : ∀ r < g.dataInfo.xH, ∀ a ∈ g.xToAddr r, a ≠ 0

/-- A call enters edges to rows of the table only. -/
def ReaderCall.RowOk (g : Globals) (c : ReaderCall) : Prop :=
  ∀ ei, c = .enterFtoList ei → ei.dst < g.dataInfo.xH

/-! ## The edges of an engine -/

/-- The queued edges name rows of the table, and the current one is inside its row. -/
structure EdgesInside (g : Globals) (id : ℕ) (s : FeatureReader) : Prop where
  queued : ∀ ei ∈ s.pq id, ei.dst < g.dataInfo.xH
  current : (s.frs id).pqReadNeed = false → (s.frs id).dst < g.dataInfo.xH ∧
    (s.frs id).curColIdx < (g.xToAddr (s.frs id).dst).length

namespace EdgesInside

theorem init (g : Globals) (id : ℕ) : EdgesInside g id .init where
  queued := fun _ h => (by cases h)
  current := fun h => (by cases h)

theorem congr (h : EdgesInside g id s) (hfrs : s'.frs id = s.frs id) (hpq : s'.pq id = s.pq id) :
    EdgesInside g id s' :=
  ⟨by rw [hpq]; exact h.queued, by rw [hfrs]; exact h.current⟩

theorem enterFtoList {ei : EdgeInfo} (h : EdgesInside g id s) (hei : ei.dst < g.dataInfo.xH) :
    EdgesInside g id (s.enterFtoList ei) := by
  refine ⟨fun e he => ?_, h.current⟩
  by_cases hid : ei.id = id
  · subst hid
    simp only [FeatureReader.enterFtoList, Function.update_self, List.mem_append,
      List.mem_singleton] at he
    rcases he with he | rfl
    · exact h.queued e he
    · exact hei
  · simp only [FeatureReader.enterFtoList, Function.update_of_ne (Ne.symm hid)] at he
    exact h.queued e he

/-- With an edge in place it is inside its row, and nothing else has changed. -/
theorem begun (ht : HeadedTable g) (h : EdgesInside g id s) (hbegun : s.begun id = some t) :
    EdgesInside g id t ∧ (t.frs id).pqReadNeed = false ∧ t.fq = s.fq ∧
      ∀ j, j ≠ id → t.frs j = s.frs j ∧ t.pq j = s.pq j := by
  obtain ⟨hneed, rfl⟩ | ⟨ei, rest, -, hpq, rfl⟩ := begun_cases hbegun
  · exact ⟨h, hneed, rfl, fun _ _ => ⟨rfl, rfl⟩⟩
  · have hqueued := h.queued
    rw [hpq] at hqueued
    have hdst := hqueued ei List.mem_cons_self
    refine ⟨⟨fun e he => hqueued e ?_, fun _ => ?_⟩, ?_, rfl, fun j hj => ?_⟩
    · simp only [consumePendingQ, Function.update_self] at he
      exact List.mem_cons_of_mem _ he
    · simp only [consumePendingQ, Function.update_self]
      exact ⟨hdst, by have := ht.long ei.dst hdst; omega⟩
    · simp [consumePendingQ]
    · simp [consumePendingQ, hj]

end EdgesInside

/-- Behind the header the edge is the same, and still inside its row. -/
theorem headed_spec {f : FrStat} (ht : HeadedTable g) (h : EdgesInside g id s)
    (hneed : (s.frs id).pqReadNeed = false) (hf : headed g id s = some f) :
    f = { s.frs id with curColIdx := f.curColIdx } ∧
      f.curColIdx = (if (s.frs id).curColIdx = 0 then 1 else (s.frs id).curColIdx) ∧
      f.curColIdx < (g.xToAddr (s.frs id).dst).length := by
  obtain ⟨hdst, hcur⟩ := h.current hneed
  unfold headed at hf
  split at hf
  next hzero =>
    obtain ⟨header, -, hhit⟩ := Option.bind_eq_some_iff.mp hf
    split at hhit
    · obtain rfl := Option.some.inj hhit
      exact ⟨rfl, by rw [if_pos hzero], ht.long _ hdst⟩
    · cases hhit
  next hne =>
    obtain rfl := Option.some.inj hf
    exact ⟨rfl, by rw [if_neg hne], hcur⟩

/-- All that a read does: nothing, wait for the header, or enter a line of the row. -/
theorem readNext_headed (ht : HeadedTable g) (h : EdgesInside g id s) :
    (s.begun id = none ∧ readNext g id s = some s) ∨
      ∃ t s', s.begun id = some t ∧ readNext g id s = some s' ∧
        ((headed g id t = none ∧ s'.frs = t.frs ∧ s'.pq = t.pq ∧ s'.fq = t.fq) ∨
          ∃ f a, headed g id t = some f ∧ a ∈ g.xToAddr (t.frs id).dst ∧
            LineRead id a f (decide (f.curColIdx + 1 = (g.xToAddr (t.frs id).dst).length)) t s') := by
  rw [readNext_eq]
  cases hbegun : s.begun id with
  | none => exact .inl ⟨rfl, rfl⟩
  | some t =>
    have hread : readMode g id t = readHeaded g id t := by
      unfold readMode
      rcases ht.mode with hmode | hmode <;> simp only [hmode]
    obtain ⟨hinside, hneed, -⟩ := h.begun ht hbegun
    rw [Option.elim_some, hread]
    right
    cases hhead : headed g id t with
    | none =>
      -- only an uncached header keeps the read from the row
      have hcur : (t.frs id).curColIdx = 0 := by
        by_contra hne
        simp [headed, hne] at hhead
      obtain ⟨header, hheader⟩ : ∃ header, (g.xToAddr (t.frs id).dst)[0]? = some header :=
        ⟨_, List.getElem?_eq_getElem (by have := (hinside.current hneed).2; omega)⟩
      have hmiss : (t.access g header).1 = false := by
        simpa [headed, hcur, hheader] using hhead
      obtain ⟨s', hs', hsame⟩ := readHeaded_waits hcur hheader hmiss
      exact ⟨t, s', rfl, hs', .inl ⟨hhead, hsame⟩⟩
    | some f =>
      obtain ⟨-, -, hlt⟩ := headed_spec ht hinside hneed hhead
      obtain ⟨s', hs', hline⟩ := readHeaded_line hhead (List.getElem?_eq_getElem hlt)
      exact ⟨t, s', rfl, hs', .inr ⟨f, _, hhead, List.getElem_mem hlt, hline⟩⟩

/-- A read that gets behind the header enters a line other than the marker. -/
theorem lineRead_of_headed {f : FrStat} (ht : HeadedTable g) (h : EdgesInside g id s)
    (hbegun : s.begun id = some t) (hhead : headed g id t = some f)
    (hread : readNext g id s = some s') : ∃ a, a ≠ 0 ∧
      LineRead id a f (decide (f.curColIdx + 1 = (g.xToAddr f.dst).length)) t s' := by
  obtain ⟨hinside, hneed, -⟩ := h.begun ht hbegun
  obtain ⟨hedge, -⟩ := headed_spec ht hinside hneed hhead
  have hdst : f.dst = (t.frs id).dst := by rw [hedge]
  obtain ⟨hnone, -⟩ | ⟨t', u, hsome, hu, hcases⟩ := readNext_headed ht h
  · simp [hbegun] at hnone
  · obtain rfl := Option.some.inj (hbegun.symm.trans hsome)
    obtain rfl := Option.some.inj (hread.symm.trans hu)
    obtain ⟨hnone, -⟩ | ⟨e, a, he, ha, hline⟩ := hcases
    · simp [hhead] at hnone
    · obtain rfl := Option.some.inj (hhead.symm.trans he)
      rw [hdst]
      exact ⟨a, ht.ne_zero _ (hinside.current hneed).1 a ha, hline⟩

/-- Every look-up of the next read stays inside its row. -/
theorem lookups_inside (ht : HeadedTable g) (h : EdgesInside g id s) :
    ∀ p ∈ lookups g id s, p.2 < (g.xToAddr p.1).length := by
  intro p hp
  by_contra hout
  have hnone : readNext g id s = none :=
    (readNext_eq_none_iff g id s).mpr ⟨p, hp, Nat.le_of_not_lt hout⟩
  obtain ⟨-, hsome⟩ | ⟨t, s', -, hsome, -⟩ := readNext_headed ht h
  · simp [hsome] at hnone
  · simp [hsome] at hnone

/-- A read keeps the edges inside their rows, and leaves those of other engines alone. -/
theorem EdgesInside.readNext (ht : HeadedTable g) (h : EdgesInside g id s)
    (hread : readNext g id s = some s') : EdgesInside g id s' ∧
      ∀ j, j ≠ id → s'.frs j = s.frs j ∧ s'.pq j = s.pq j := by
  obtain ⟨-, hs⟩ | ⟨t, u, hbegun, hu, hcases⟩ := readNext_headed ht h
  · obtain rfl := Option.some.inj (hread.symm.trans hs)
    exact ⟨h, fun _ _ => ⟨rfl, rfl⟩⟩
  · obtain rfl := Option.some.inj (hread.symm.trans hu)
    obtain ⟨hinside, hneed, -, hframe⟩ := h.begun ht hbegun
    obtain ⟨-, hfrs, hpq, -⟩ | ⟨f, a, hhead, -, hline⟩ := hcases
    · refine ⟨hinside.congr (by rw [hfrs]) (by rw [hpq]), fun j hj => ?_⟩
      rw [hfrs, hpq]
      exact hframe j hj
    · obtain ⟨hedge, -, hlt⟩ := headed_spec ht hinside hneed hhead
      refine ⟨⟨by rw [hline.pq]; exact hinside.queued, fun hnext => ?_⟩, fun j hj => ?_⟩
      · have hdst : f.dst = (t.frs id).dst := by rw [hedge]
        rw [hline.frs, Function.update_self] at hnext ⊢
        by_cases hend : f.curColIdx + 1 = (g.xToAddr (t.frs id).dst).length
        · simp [hend] at hnext
        · simp only [hend, decide_false, Bool.false_eq_true, if_false, hdst]
          exact ⟨(hinside.current hneed).1, by omega⟩
      · rw [hline.frs, hline.pq, Function.update_of_ne hj]
        exact hframe j hj

/-! ## Accepted reads -/

/-- One call, with the engine and what is entered in its queue as output for a read that the
guard lets in. -/
def acceptedCall (g : Globals) : Machine.Call FeatureReader ReaderCall (ℕ × List ℕ) :=
  fun s c => (call g s c).map fun r => (r.1, c.read?.elim [] fun id =>
    if s.TurnedAway id then [] else [(id, (r.1.fq id).drop (s.fq id).length)])

/-- What the reads of engine `id` that were let in entered, read by read. -/
def acceptedBy (id : ℕ) (log : List (ℕ × List ℕ)) : List (List ℕ) :=
  (log.filter fun r => r.1 = id).map Prod.snd

theorem acceptedBy_append (id : ℕ) (log log' : List (ℕ × List ℕ)) :
    acceptedBy id (log ++ log') = acceptedBy id log ++ acceptedBy id log' := by
  simp [acceptedBy]

/-- The invariant makes every call defined. -/
theorem call_isSome (ht : HeadedTable g) (h : ∀ j, EdgesInside g j s) (c : ReaderCall) :
    ∃ s' o, call g s c = some (s', o) := by
  cases c with
  | readNext id =>
    obtain ⟨-, hs⟩ | ⟨t, s', -, hs, -⟩ := readNext_headed ht (h id)
    · exact ⟨s, [], by simp [call, hs]⟩
    · exact ⟨s', [], by simp [call, hs]⟩
  | _ => exact ⟨_, _, rfl⟩

/-- One call: the edges stay inside their rows, and for any engine it reads, or it leaves the
current edge alone. -/
theorem acceptedCall_cases (ht : HeadedTable g) (h : ∀ j, EdgesInside g j s) {c : ReaderCall}
    (hc : c.RowOk g) : ∃ s' o, acceptedCall g s c = some (s', o) ∧ (∀ j, EdgesInside g j s') ∧
      ∀ id, (c = .readNext id ∧ readNext g id s = some s' ∧ acceptedBy id o =
          if s.TurnedAway id then [] else [(s'.fq id).drop (s.fq id).length]) ∨
        (c ≠ .readNext id ∧ s'.frs id = s.frs id ∧ acceptedBy id o = []) := by
  obtain ⟨s', results, hcall⟩ := call_isSome ht h c
  refine ⟨s', _, by unfold acceptedCall; rw [hcall]; rfl, ?_⟩
  obtain ⟨ei, rfl, rfl⟩ | ⟨j, rfl, hread⟩ | ⟨hnone, -, hfrs, hpq⟩ := call_cases hcall
  · exact ⟨fun j => (h j).enterFtoList (hc ei rfl), fun id => .inr ⟨by simp, rfl, rfl⟩⟩
  · obtain ⟨hinside, hframe⟩ := (h j).readNext ht hread
    refine ⟨fun id => ?_, fun id => ?_⟩
    · by_cases hid : id = j
      · rw [hid]
        exact hinside
      · exact (h id).congr (hframe id hid).1 (hframe id hid).2
    · rw [show (ReaderCall.readNext j).read? = some j from rfl, Option.elim_some]
      by_cases hid : id = j
      · subst hid
        refine .inl ⟨rfl, hread, ?_⟩
        split <;> simp [acceptedBy]
      · refine .inr ⟨fun heq => hid (ReaderCall.readNext.inj heq).symm, (hframe id hid).1, ?_⟩
        split <;> simp [acceptedBy, Ne.symm hid]
  · have hne (id : ℕ) : c ≠ .readNext id := by
      rintro rfl
      cases hnone
    rw [hnone]
    exact ⟨fun j => (h j).congr (by rw [hfrs]) (by rw [hpq]),
      fun id => .inr ⟨hne id, by rw [hfrs], rfl⟩⟩

/-! ## The end of an edge -/

/-- How far the edge `f` is read, by the reads since its header was found: it is at the next
cell, or it ends with its last cell and with the marker that it has to leave. -/
structure EdgeProgress (g : Globals) (id : ℕ) (f : FrStat) (reads : List (List ℕ))
    (s : FeatureReader) : Prop where
  going : reads.length + 1 < (g.xToAddr f.dst).length →
    s.frs id = { f with curColIdx := reads.length + 1 } ∧ reads.flatten.count 0 = 0
  ended : reads.length + 1 = (g.xToAddr f.dst).length →
    (s.frs id).pqReadNeed = true ∧ reads.flatten.count 0 = if f.isLast then 1 else 0

/-- One more line of the edge. -/
theorem EdgeProgress.line {f e : FrStat} {a : ℕ} {reads : List (List ℕ)}
    (he : e = { f with curColIdx := reads.length + 1 }) (hzero : reads.flatten.count 0 = 0)
    (ha : a ≠ 0) (hline : LineRead id a e
      (decide (e.curColIdx + 1 = (g.xToAddr f.dst).length)) s s') :
    EdgeProgress g id f (reads ++ [(s'.fq id).drop (s.fq id).length]) s' := by
  have hfq : (s'.fq id).drop (s.fq id).length =
      a :: if decide (e.curColIdx + 1 = (g.xToAddr f.dst).length) && e.isLast then [0] else [] := by
    rw [hline.fq, Function.update_self, List.drop_left]
  have hfrs := congrFun hline.frs id
  rw [Function.update_self] at hfrs
  rw [hfq]
  subst he
  simp only at hfrs ⊢
  refine ⟨fun hlt => ?_, fun hend => ?_⟩
  · simp only [List.length_append, List.length_singleton] at hlt ⊢
    have hne : reads.length + 1 + 1 ≠ (g.xToAddr f.dst).length := by omega
    simp [hfrs, hne, hzero, ha]
  · simp only [List.length_append, List.length_singleton] at hend ⊢
    cases hlast : f.isLast with
    | false => simp [hfrs, hend, hzero, ha, hlast]
    | true => simp [hfrs, hend, hzero, ha, hlast]

/-- A read of the engine that is turned away changes nothing, and any other takes the edge
one cell further. -/
theorem EdgeProgress.readNext {f : FrStat} {reads : List (List ℕ)} (ht : HeadedTable g)
    (hneed : f.pqReadNeed = false) (hinside : EdgesInside g id s) (h : EdgeProgress g id f reads s)
    (hread : readNext g id s = some s') :
    EdgeProgress g id f (reads ++
      if s.TurnedAway id then [] else [(s'.fq id).drop (s.fq id).length]) s' := by
  by_cases hturn : s.TurnedAway id
  · have hnone : s.begun id = none := by simp [FeatureReader.begun, hturn]
    obtain rfl : s = s' := by simpa [readNext_eq, hnone] using hread
    simpa [hturn] using h
  · rw [if_neg hturn]
    by_cases hgoing : reads.length + 1 < (g.xToAddr f.dst).length
    · obtain ⟨hfrs, hzero⟩ := h.going hgoing
      have hbegun : s.begun id = some s := by simp [FeatureReader.begun, hturn, hfrs, hneed]
      have hhead : headed g id s = some (s.frs id) := by simp [headed, hfrs]
      have hdst : (s.frs id).dst = f.dst := by rw [hfrs]
      obtain ⟨a, ha, hline⟩ := lineRead_of_headed ht hinside hbegun hhead hread
      rw [hdst] at hline
      exact .line hfrs hzero ha hline
    · have hlen : (reads ++ [(s'.fq id).drop (s.fq id).length]).length = reads.length + 1 := by simp
      exact ⟨fun hlt => by omega, fun hend => by omega⟩

/-- The read that finds the header is the first of the edge. -/
theorem edgeProgress_first {f : FrStat} (ht : HeadedTable g) (hinside : EdgesInside g id s)
    (hbegun : s.begun id = some t) (hcur : (t.frs id).curColIdx = 0)
    (hhead : headed g id t = some f) (hread : readNext g id s = some s') :
    EdgeProgress g id f [(s'.fq id).drop (s.fq id).length] s' := by
  obtain ⟨hinside', hneed, hfq, -⟩ := hinside.begun ht hbegun
  obtain ⟨-, hone, -⟩ := headed_spec ht hinside' hneed hhead
  rw [if_pos hcur] at hone
  obtain ⟨a, ha, hline⟩ := lineRead_of_headed ht hinside hbegun hhead hread
  have hfirst : EdgeProgress g id f ([] ++ [(s'.fq id).drop (t.fq id).length]) s' :=
    .line (by rw [List.length_nil, Nat.zero_add, ← hone]) rfl ha hline
  rwa [hfq] at hfirst

/-! ## Whole runs -/

/-- Every look-up stays inside its row, and from the read on that finds the header, as many
reads as the row has cells behind it end the edge, whatever else is called between them. -/
structure ReadsSafe (g : Globals) : Prop where
  inside : ∀ calls s results, (∀ c ∈ calls, ReaderCall.RowOk g c) →
    Machine.run (call g) .init calls = some (s, results) → ∀ id,
      ∀ p ∈ lookups g id s, p.2 < (g.xToAddr p.1).length
  finite : ∀ calls s results, (∀ c ∈ calls, ReaderCall.RowOk g c) →
    Machine.run (call g) .init calls = some (s, results) → ∀ id t f, s.begun id = some t →
      (t.frs id).curColIdx = 0 → headed g id t = some f →
        ∃ n, 1 ≤ n ∧ n ≤ max 1 ((g.xToAddr f.dst).length - 1) ∧
          ∀ more, (∀ c ∈ more, ReaderCall.RowOk g c) → ∃ s' log,
            Machine.run (acceptedCall g) s (.readNext id :: more) = some (s', log) ∧
              ((acceptedBy id log).length < n → (s'.frs id).pqReadNeed = false) ∧
              ((acceptedBy id log).length = n → (s'.frs id).pqReadNeed = true ∧
                (acceptedBy id log).flatten.count 0 = if f.isLast then 1 else 0)

theorem edgesInside_of_run (ht : HeadedTable g) {calls : List ReaderCall} {results : List (ℕ × ℤ)}
    (hok : ∀ c ∈ calls, ReaderCall.RowOk g c)
    (hrun : Machine.run (call g) .init calls = some (s, results)) : ∀ id, EdgesInside g id s := by
  refine Machine.run_inv (I := fun is _ t => (∀ c ∈ is, ReaderCall.RowOk g c) →
    ∀ id, EdgesInside g id t) ?_ (fun _ => EdgesInside.init g) hrun hok
  intro is os t c t' o hI hcall hok'
  obtain ⟨u, log, hu, hinside, -⟩ := acceptedCall_cases ht
    (hI fun d hd => hok' d (List.mem_append_left _ hd))
    (hok' c (List.mem_append_right _ List.mem_cons_self))
  obtain rfl : t' = u := by
    rw [acceptedCall, hcall] at hu
    exact congrArg Prod.fst (Option.some.inj hu)
  exact hinside

/-- The edge that has found its header, through any calls. -/
theorem edgeProgress_of_run {f : FrStat} (ht : HeadedTable g) (hneed : f.pqReadNeed = false)
    {first : List ℕ} (hinside : ∀ j, EdgesInside g j s) (h : EdgeProgress g id f [first] s)
    {more : List ReaderCall} (hok : ∀ c ∈ more, ReaderCall.RowOk g c) :
    ∃ s' log, Machine.run (acceptedCall g) s more = some (s', log) ∧
      EdgeProgress g id f (first :: acceptedBy id log) s' := by
  obtain ⟨s', log, hrun, -, hprog⟩ : ∃ s' log, Machine.run (acceptedCall g) s more = some (s', log) ∧
      (∀ j, EdgesInside g j s') ∧ EdgeProgress g id f (first :: acceptedBy id log) s' := by
    refine Machine.run_total (I := fun _ log t => (∀ j, EdgesInside g j t) ∧
      EdgeProgress g id f (first :: acceptedBy id log) t) (fun is log t c hI hc => ?_)
      ⟨hinside, h⟩ hok
    obtain ⟨t', o, hcall, hinside', hcases⟩ := acceptedCall_cases ht hI.1 hc
    refine ⟨t', o, hcall, hinside', ?_⟩
    rw [acceptedBy_append]
    obtain ⟨-, hread, hlog⟩ | ⟨-, hfrs, hlog⟩ := hcases id
    · rw [hlog, ← List.cons_append]
      exact hI.2.readNext ht hneed (hI.1 id) hread
    · rw [hlog, List.append_nil]
      exact ⟨by rw [hfrs]; exact hI.2.going, by rw [hfrs]; exact hI.2.ended⟩
  exact ⟨s', log, hrun, hprog⟩

theorem readsSafe_of_headedTable (ht : HeadedTable g) : ReadsSafe g := by
  refine ⟨fun calls s results hok hrun id => lookups_inside ht (edgesInside_of_run ht hok hrun id),
    fun calls s results hok hrun id t f hbegun hcur hhead => ?_⟩
  have hinside := edgesInside_of_run ht hok hrun
  obtain ⟨hinside', hneed, -⟩ := (hinside id).begun ht hbegun
  obtain ⟨hedge, -⟩ := headed_spec ht hinside' hneed hhead
  have hfneed : f.pqReadNeed = false := by rw [hedge]; exact hneed
  have hlong : 2 ≤ (g.xToAddr f.dst).length := by
    rw [hedge]
    exact ht.long _ (hinside'.current hneed).1
  have hturn : ¬ s.TurnedAway id := by
    intro hturn
    simp [FeatureReader.begun, hturn] at hbegun
  obtain ⟨s₁, o, hfirst, hinside₁, hcases⟩ := acceptedCall_cases ht hinside
    (show ReaderCall.RowOk g (.readNext id) from fun ei hei => by cases hei)
  obtain ⟨-, hread, ho⟩ := (hcases id).resolve_right fun hne => hne.1 rfl
  rw [if_neg hturn] at ho
  refine ⟨(g.xToAddr f.dst).length - 1, by omega, le_max_right _ _, fun more hmore => ?_⟩
  obtain ⟨s', log, hrun', hprog⟩ := edgeProgress_of_run ht hfneed hinside₁
    (edgeProgress_first ht (hinside id) hbegun hcur hhead hread) hmore
  refine ⟨s', o ++ log, Machine.run_cons_eq_some.mpr ⟨s₁, o, log, hfirst, hrun', rfl⟩, ?_⟩
  rw [acceptedBy_append, ho, List.singleton_append]
  refine ⟨fun hlt => ?_, fun hend => hprog.ended (by omega)⟩
  rw [(hprog.going (by omega)).1]
  exact hfneed

/-- A row without a cell behind its header is left as soon as the header is cached. -/
theorem ReadsSafe.long (hmode : g.archInfo.mode = .csr ∨ g.archInfo.mode = .xFullCmp)
    (h : ReadsSafe g) {r header : ℕ} (hr : r < g.dataInfo.xH)
    (hheader : (g.xToAddr r)[0]? = some header) : 2 ≤ (g.xToAddr r).length := by
  have hinside := h.inside
    [.enterFtoList ⟨0, false, r, 0⟩, .environment ⟨fun _ => [header]⟩ .init] _ [] ?_ rfl 0 (r, 1) ?_
  · exact hinside
  · intro c hc ei hei
    subst hei
    obtain rfl : ei = ⟨0, false, r, 0⟩ := by simpa using hc
    exact hr
  · have hlookups : ∀ t, headed g 0 t = some ⟨false, r, 0, 1, false⟩ → (r, 1) ∈ modeLookups g 0 t := by
      intro t hhead
      rcases hmode with hmode | hmode
      · simp [modeLookups, hmode, hhead]
      · simp [modeLookups, hmode, hhead]
    change _ ∈ lookups g 0
      { FeatureReader.init.enterFtoList ⟨0, false, r, 0⟩ with cah := ⟨fun _ => [header]⟩ }
    rw [lookups_first g ⟨0, false, r, 0⟩]
    refine hlookups _ ?_
    simp [headed, consumePendingQ, hheader, FeatureReader.access, Cache.access]

end FeatureReader

/-! ## `CSR` -/

open FeatureReader

variable {inp : Input} {g : Globals}

theorem headedTable_of_preprocess (hmode : inp.mode = .csr) (hn : 1 ≤ inp.nOfEngine)
    (hg : preprocess inp = some g) (hrows : ∀ i < inp.aH, 0 < inp.rowCount i) : HeadedTable g := by
  have hprep := prepared_of_preprocess hg
  have hxH : g.dataInfo.xH = inp.aH := hprep.xH_eq
  obtain ⟨-, hcells⟩ := csrTable_of_preprocess hmode hg
  have hblocks : ∀ i < inp.aH, 0 < inp.rowBlocks i := fun i hi => ceilDiv_pos (hrows i hi) (by decide)
  refine ⟨.inl ((mapFeatures_of_preprocess hg).1.trans hmode), fun r hr => ?_, fun r hr a ha => ?_⟩
  · have := hblocks r (by omega)
    rw [(hcells r hr).1]
    omega
  · obtain ⟨hlen, hget⟩ := hcells r hr
    obtain ⟨c, hc, rfl⟩ := List.getElem_of_mem ha
    have hcell := hget c (by omega)
    rw [List.getElem?_eq_getElem hc, Option.some.injEq] at hcell
    have hline : 0 ≤ csrCellLine inp.rowCount inp.rowBlocks g.dataInfo.xH r c :=
      csrCellLine_nonneg (by rwa [hxH]) hr
    have hstart : cacheLineByte ≤ g.archInfo.xwEleAddrStart := by
      refine hprep.layout.line_le_xwEle (by rw [hprep.nOfEngine_eq]; exact hn) ?_
      rw [hprep.rowPtr_eq, length_rowPtrOf]
      omega
    have hwrap := wrapAddr_of_nonneg (x := g.archInfo.xwEleAddrStart +
      cacheLineByte * csrCellLine inp.rowCount inp.rowBlocks g.dataInfo.xH r c) (by positivity)
    rw [← hcell] at hwrap
    simp only [cacheLineByte] at hwrap hstart
    omega

/-- In mode `CSR` the reads are safe exactly when every row has an element that is not
zero. -/
theorem readsSafe_csr_iff (hmode : inp.mode = .csr) (hn : 1 ≤ inp.nOfEngine)
    (hg : preprocess inp = some g) :
    ReadsSafe g ↔ ∀ i < inp.aH, ∃ j < inp.xW, inp.xw i j ≠ 0 := by
  constructor
  · intro h i hi
    have hi' : i < g.dataInfo.xH := by
      rw [(prepared_of_preprocess hg).xH_eq]
      exact hi
    have hgmode := (mapFeatures_of_preprocess hg).1.trans hmode
    obtain ⟨hlen, hget⟩ := (csrTable_of_preprocess hmode hg).2 i hi'
    have hlong := h.long (.inl hgmode) hi' (hget 0 (by omega))
    rw [← rowCount_pos]
    by_contra hzero
    have hblocks := rowBlocks_eq_zero (show inp.rowCount i = 0 by omega)
    omega
  · intro h
    exact readsSafe_of_headedTable
      (headedTable_of_preprocess hmode hn hg fun i hi => rowCount_pos.mpr (h i hi))

/-- Rows of one element. -/
theorem readsSafe_oneFeature : ∃ g, preprocess .oneFeature = some g ∧ ReadsSafe g := by
  obtain ⟨g, hg⟩ := preprocess_oneFeature
  exact ⟨g, hg, (readsSafe_csr_iff rfl (by decide) hg).mpr fun i _ => ⟨0, by decide, one_ne_zero⟩⟩

/-- The same rows with a zero in place of the element. -/
def Input.zeroFeatures : Input := { Input.oneFeature with xw := fun _ _ => 0 }

/-- A row without an element has no cell behind its header. -/
theorem not_readsSafe_zeroFeatures : ∃ g, preprocess .zeroFeatures = some g ∧ ¬ ReadsSafe g := by
  obtain ⟨g₁, hgraph⟩ := mapGraph_input_isSome .zeroFeatures size_threeVertices
  obtain ⟨g, hg⟩ := preprocess_csr_isSome rfl hgraph
  refine ⟨g, hg, fun h => ?_⟩
  have hxH : g.dataInfo.xH = 3 := (prepared_of_preprocess hg).xH_eq
  have hgmode : g.archInfo.mode = .csr := (mapFeatures_of_preprocess hg).1
  obtain ⟨hlen, hget⟩ := (csrTable_of_preprocess rfl hg).2 0 (by omega)
  have hlong := h.long (.inl hgmode) (by omega) (hget 0 (by omega))
  have hblocks : Input.zeroFeatures.rowBlocks 0 = 0 := rowBlocks_eq_zero rfl
  omega

end Sgcn

-- SUMMARY: Whatever the feature reader asks for is a cell of the feature table, in every mode and every run.
import Sgcn.Feature.Stream
import Sgcn.Layout.FeatureRegion

/-!
# What the feature reader reads

`ReadNext` asks for cells of the row of its edge, and `PassFtoSIMD` asks again for what
`ReadNext` queued, never for an end-of-row marker. So the replies go where the feature
table says.
-/

namespace Sgcn

open Blocks

variable {g : Globals}

namespace FeatureReader

variable {s s' : FeatureReader} {id a v : ℕ}

/-! ## The invariant -/

/-- An edge in hand: its row exists, and in `X_CMP` the cursor is on a mapped cell. -/
def OnCell (g : Globals) (f : FrStat) : Prop :=
  f.dst < g.dataInfo.xH ∧ (g.archInfo.mode = .xCmp →
    returnAddress g f.dst f.curColIdx f.vFold ≠ some 0)

/-- Between the markers a queue holds cells of the table, or 1 for those that were cached. -/
def CellQueue (g : Globals) (q : List ℕ) : Prop :=
  ∃ items, q = encode items ∧ ∀ it ∈ items, it.1 = 1 ∨ Readable g it.1

/-- Queues and requests hold cells of the table only, and so will the edges to come. -/
structure CellInv (g : Globals) (s : FeatureReader) : Prop where
  queued : ∀ id, CellQueue g (s.fq id)
  current : ∀ id, (s.frs id).pqReadNeed = false → OnCell g (s.frs id)
  pending : ∀ id, ∀ ei ∈ s.pq id, EdgeOk g ei
  requested : ∀ a ∈ s.requested, Readable g a

theorem CellInv.init (g : Globals) : CellInv g .init where
  queued := fun _ => ⟨[], rfl, by simp⟩
  current := fun _ h => by cases h
  pending := fun _ _ h => by cases h
  requested := fun _ h => by simp [FeatureReader.init] at h

theorem CellQueue.append {q : List ℕ} (h : CellQueue g q) (hv : v = 1 ∨ Readable g v)
    (isEnd : Bool) : CellQueue g (q ++ encode [(v, isEnd)]) := by
  obtain ⟨items, rfl, hitems⟩ := h
  refine ⟨items ++ [(v, isEnd)], (encode_append _ _).symm, fun it hit => ?_⟩
  rcases List.mem_append.mp hit with hmem | hmem
  · exact hitems it hmem
  · rw [List.mem_singleton.mp hmem]
    exact hv

/-- What is left of a queue when its front has been passed on, together with a marker behind
it. A cell that is zero looks like a marker; the marker behind such a cell then takes its
place. -/
theorem CellQueue.tail {rest : List ℕ} (h : CellQueue g (v :: rest)) :
    (v = 1 ∨ Readable g v) ∧ (∀ rest', rest = 0 :: rest' → CellQueue g rest') ∧
      ((∀ rest', rest ≠ 0 :: rest') → CellQueue g rest) := by
  obtain ⟨items, heq, hitems⟩ := h
  cases items with
  | nil => cases heq
  | cons it items =>
    rw [encode_cons, List.cons.injEq] at heq
    obtain ⟨rfl, rfl⟩ := heq
    have hrest : ∀ it' ∈ items, it'.1 = 1 ∨ Readable g it'.1 :=
      fun it' hit => hitems it' (List.mem_cons_of_mem _ hit)
    refine ⟨hitems it (List.mem_cons_self ..), fun rest' heq => ?_, fun hne => ?_⟩
    · cases hend : it.2 with
      | true =>
        rw [hend, if_pos rfl, List.singleton_append, List.cons.injEq] at heq
        exact ⟨items, heq.2.symm, hrest⟩
      | false =>
        rw [hend, if_neg Bool.false_ne_true, List.nil_append] at heq
        cases items with
        | nil => cases heq
        | cons it' items =>
          rw [encode_cons, List.cons.injEq] at heq
          obtain ⟨hzero, rfl⟩ := heq
          have hitems' : ∀ it'' ∈ items, it''.1 = 1 ∨ Readable g it''.1 :=
            fun it'' hit => hrest it'' (List.mem_cons_of_mem _ hit)
          cases it'.2 with
          | false => exact ⟨items, rfl, hitems'⟩
          | true =>
            refine ⟨(0, false) :: items, rfl, fun it'' hit => ?_⟩
            rcases List.mem_cons.mp hit with rfl | hmem
            · rw [← hzero]
              exact hrest it' (List.mem_cons_self ..)
            · exact hitems' it'' hmem
    · cases hend : it.2 with
      | true => exact absurd (by rw [hend]; rfl) (hne (encode items))
      | false => exact ⟨items, rfl, hrest⟩

/-! ## Reading -/

/-- The cell under the cursor may be read. -/
theorem OnCell.readable {f : FrStat} (h : OnCell g f)
    (ha : returnAddress g f.dst f.curColIdx f.vFold = some a) : Readable g a := by
  refine ⟨f.dst, h.1, List.mem_of_getElem? ha, fun hmode heq => ?_⟩
  rw [heq] at ha
  exact h.2 hmode ha

theorem CellInv.access (h : CellInv g s) (a : ℕ) : CellInv g (s.access g a).2 :=
  ⟨h.queued, h.current, h.pending, h.requested⟩

theorem CellInv.request (h : CellInv g s) (ha : Readable g a) : CellInv g (s.request a) := by
  unfold FeatureReader.request
  split
  · exact h
  · refine ⟨h.queued, h.current, h.pending, fun b hb => ?_⟩
    rcases Finset.mem_insert.mp hb with rfl | hmem
    · exact ha
    · exact h.requested b hmem

theorem CellInv.fetch (h : CellInv g s) (ha : Readable g a) : CellInv g (s.fetch g a) := by
  rw [fetch_eq]
  split
  · exact h.access a
  · exact (h.access a).request ha

/-- A cursor that moves on. -/
theorem CellInv.setFrs (h : CellInv g s) (id : ℕ) {f : FrStat} (hf : f.pqReadNeed = false → OnCell g f) :
    CellInv g (s.setFrs id f) := by
  refine ⟨h.queued, fun j hj => ?_, h.pending, h.requested⟩
  by_cases hji : j = id
  · subst hji
    simp only [FeatureReader.setFrs, Function.update_self] at hj ⊢
    exact hf hj
  · simp only [FeatureReader.setFrs, Function.update_of_ne hji] at hj ⊢
    exact h.current j hj

/-- A cell that is queued, with a marker behind it if `isEnd`. -/
theorem CellInv.enqueue (h : CellInv g s) (id : ℕ) (hv : v = 1 ∨ Readable g v) (isEnd : Bool) :
    CellInv g { s with fq := Function.update s.fq id (s.fq id ++ encode [(v, isEnd)]) } := by
  refine ⟨fun j => ?_, h.current, h.pending, h.requested⟩
  by_cases hji : j = id
  · subst hji
    simp only [Function.update_self]
    exact (h.queued j).append hv isEnd
  · simp only [Function.update_of_ne hji]
    exact h.queued j

theorem CellInv.endEdge (h : CellInv g s) (hv : v = 1 ∨ Readable g v) (f : FrStat) :
    CellInv g ((s.pushFq id v).endEdge id f) := by
  have hend := (h.enqueue id hv f.isLast).setFrs id
    (f := { f with pqReadNeed := true }) fun hneed => by cases hneed
  unfold FeatureReader.endEdge
  cases hlast : f.isLast with
  | true =>
    rw [hlast] at hend
    simpa [FeatureReader.setFrs, pushFq, encode] using hend
  | false =>
    rw [hlast] at hend
    simpa [FeatureReader.setFrs, pushFq, encode] using hend

theorem CellInv.moveOn (h : CellInv g s) (hv : v = 1 ∨ Readable g v) {f : FrStat}
    (hf : f.pqReadNeed = false → OnCell g f) : CellInv g ((s.pushFq id v).setFrs id f) :=
  (h.enqueue id hv false).setFrs id hf

theorem CellInv.readXCmp (h : CellInv g s) (hcur : OnCell g (s.frs id))
    (hread : readXCmp g id s = some s') : CellInv g s' := by
  unfold FeatureReader.readXCmp at hread
  obtain ⟨a, ha, hread⟩ := Option.bind_eq_some_iff.mp hread
  have hcell := hcur.readable ha
  have hinv := (h.fetch hcell).access a
  have hv : (if ((s.fetch g a).access g a).1 then 1 else a) = 1 ∨
      Readable g (if ((s.fetch g a).access g a).1 then 1 else a) := by
    split
    · exact .inl rfl
    · exact .inr hcell
  dsimp only at hread
  split at hread
  · obtain ⟨next, hnext, hread⟩ := Option.bind_eq_some_iff.mp hread
    split at hread
    · cases hread
      exact hinv.endEdge hv _
    · next hne =>
      cases hread
      refine hinv.moveOn hv fun _ => ⟨hcur.1, fun _ heq => ?_⟩
      rw [hnext] at heq
      exact hne (Option.some.inj heq)
  · cases hread
    exact hinv.endEdge hv _

theorem CellInv.readMat (hmode : g.archInfo.mode ≠ .xCmp) (h : CellInv g s)
    (hcur : OnCell g (s.frs id)) (hread : readMat g id s = some s') : CellInv g s' := by
  unfold FeatureReader.readMat at hread
  obtain ⟨a, ha, hread⟩ := Option.bind_eq_some_iff.mp hread
  have hcell := hcur.readable ha
  dsimp only at hread
  split at hread
  · cases hread
    exact (h.fetch hcell).moveOn (.inr hcell) fun _ => ⟨hcur.1, fun heq => absurd heq hmode⟩
  · cases hread
    exact (h.fetch hcell).endEdge (.inr hcell) _

/-- `CSR` and `X_FULL_CMP` read the header first, and the rest of the row once it is cached. -/
theorem CellInv.readHeaded (hmode : g.archInfo.mode ≠ .xCmp) (h : CellInv g s)
    (hcur : OnCell g (s.frs id)) (hread : readHeaded g id s = some s') : CellInv g s' := by
  have hrow : ∀ a ∈ g.xToAddr (s.frs id).dst, Readable g a :=
    fun a ha => ⟨_, hcur.1, ha, fun heq => absurd heq hmode⟩
  unfold FeatureReader.readHeaded at hread
  dsimp only at hread
  have hbody : ∀ t : FeatureReader, CellInv g t → (t.frs id).dst = (s.frs id).dst →
      ((g.xToAddr (s.frs id).dst)[(t.frs id).curColIdx]?.bind fun fAddr =>
        if ((t.frs id).curColIdx : ℤ) ≠ (g.xToAddr (s.frs id).dst).length - 1 then
          some (((t.fetch g fAddr).pushFq id fAddr).setFrs id
            { t.frs id with curColIdx := (t.frs id).curColIdx + 1 })
        else some (((t.fetch g fAddr).pushFq id fAddr).endEdge id (t.frs id))) = some s' →
      CellInv g s' := by
    intro t ht hdst hret
    obtain ⟨a, ha, hret⟩ := Option.bind_eq_some_iff.mp hret
    have hcell := hrow a (List.mem_of_getElem? ha)
    split at hret
    · cases hret
      exact (ht.fetch hcell).moveOn (.inr hcell)
        fun _ => ⟨by rw [hdst]; exact hcur.1, fun heq => absurd heq hmode⟩
    · cases hret
      exact (ht.fetch hcell).endEdge (.inr hcell) _
  split at hread
  · obtain ⟨header, hheader, hread⟩ := Option.bind_eq_some_iff.mp hread
    have hcell := hrow header (List.mem_of_getElem? hheader)
    split at hread
    · refine hbody _ ((h.access header).setFrs id
        (f := { (s.access g header).2.frs id with curColIdx := 1 })
        fun _ => ⟨hcur.1, fun heq => absurd heq hmode⟩) ?_ hread
      simp [FeatureReader.setFrs]
    · cases hread
      exact (h.access header).request hcell
  · exact hbody s h rfl hread

/-! ## Runs -/

/-- The first cell of every slice is mapped, as far as zero cells are skipped. -/
def FirstCells (g : Globals) : Prop :=
  g.archInfo.mode = .xCmp → ∀ ei, EdgeOk g ei → returnAddress g ei.dst 0 ei.vFold ≠ some 0

theorem CellInv.readMode (h : CellInv g s) (hcur : OnCell g (s.frs id))
    (hread : readMode g id s = some s') : CellInv g s' := by
  unfold FeatureReader.readMode at hread
  cases hmode : g.archInfo.mode with
  | xCmp =>
    rw [hmode] at hread
    exact h.readXCmp hcur hread
  | mat =>
    rw [hmode] at hread
    exact h.readMat (by rw [hmode]; decide) hcur hread
  | csr =>
    rw [hmode] at hread
    exact h.readHeaded (by rw [hmode]; decide) hcur hread
  | xFullCmp =>
    rw [hmode] at hread
    exact h.readHeaded (by rw [hmode]; decide) hcur hread

theorem CellInv.readNext (hfirst : FirstCells g) (h : CellInv g s)
    (hread : readNext g id s = some s') : CellInv g s' := by
  unfold FeatureReader.readNext at hread
  split at hread
  · cases hread
    exact h
  · split at hread
    · split at hread
      · cases hread
        exact h
      · next ei rest hpq =>
        have hei := h.pending id ei (by rw [hpq]; exact List.mem_cons_self ..)
        have hcur : OnCell g ⟨ei.isLast, ei.dst, ei.vFold, 0, false⟩ :=
          ⟨hei.dst_lt, fun hmode => hfirst hmode ei hei⟩
        have hpop : CellInv g (s.consumePendingQ id ei rest) := by
          have hset := h.setFrs id fun _ => hcur
          refine ⟨hset.queued, hset.current, fun j ei' hmem => ?_, hset.requested⟩
          by_cases hji : j = id
          · subst hji
            simp only [consumePendingQ, Function.update_self] at hmem
            exact h.pending j ei' (by rw [hpq]; exact List.mem_cons_of_mem _ hmem)
          · simp only [consumePendingQ, Function.update_of_ne hji] at hmem
            exact h.pending j ei' hmem
        refine hpop.readMode ?_ hread
        simp only [consumePendingQ, Function.update_self]
        exact hcur
    · next hneed => exact h.readMode (h.current id (by simpa using hneed)) hread

theorem CellInv.passFtoSIMD (h : CellInv g s) (id : ℕ) : CellInv g (s.passFtoSIMD g id).2 := by
  unfold FeatureReader.passFtoSIMD
  split
  · exact h
  · next next rest hfq =>
    obtain ⟨hnext, hmarker, hplain⟩ := CellQueue.tail (by rw [← hfq]; exact h.queued id)
    have hdrop : ∀ (t : FeatureReader) (q : List ℕ), CellInv g t → CellQueue g q →
        CellInv g { t with fq := Function.update t.fq id q } := by
      intro t q ht hq
      refine ⟨fun j => ?_, ht.current, ht.pending, ht.requested⟩
      by_cases hji : j = id
      · subst hji
        simpa only [Function.update_self] using hq
      · simpa only [Function.update_of_ne hji] using ht.queued j
    by_cases hone : next = 1
    · simp only [if_pos hone, if_true]
      split
      · next rest' => exact hdrop s rest' h (hmarker rest' rfl)
      · next hne => exact hdrop s rest h (hplain fun rest' heq => hne rest' heq)
    · simp only [if_neg hone]
      split
      · split
        · next rest' => exact hdrop _ rest' (h.access next) (hmarker rest' rfl)
        · next hne => exact hdrop _ rest (h.access next) (hplain fun rest' heq => hne rest' heq)
      · exact (h.access next).request (hnext.resolve_left hone)

theorem CellInv.featureReceive (h : CellInv g s) : CellInv g (s.featureReceive g) := by
  rw [featureReceive_eq]
  refine ⟨h.queued, h.current, h.pending, fun a ha => h.requested a ?_⟩
  have hsub : ∀ (l : List ℕ) (r : Finset ℕ), l.foldl (fun r a => r.erase a) r ⊆ r := by
    intro l
    induction l with
    | nil => exact fun r => subset_rfl
    | cons b l ih => exact fun r => (ih _).trans (Finset.erase_subset b r)
  exact hsub _ _ ha

theorem CellInv.enterFtoList (h : CellInv g s) {ei : EdgeInfo} (hei : EdgeOk g ei) :
    CellInv g (s.enterFtoList ei) := by
  refine ⟨h.queued, h.current, fun j ei' hmem => ?_, h.requested⟩
  by_cases hji : j = ei.id
  · subst hji
    simp only [FeatureReader.enterFtoList, Function.update_self] at hmem
    rcases List.mem_append.mp hmem with hold | hnew
    · exact h.pending _ ei' hold
    · rw [List.mem_singleton.mp hnew]
      exact hei
  · simp only [FeatureReader.enterFtoList, Function.update_of_ne hji] at hmem
    exact h.pending j ei' hmem

/-- One call: whatever it asks for is a cell of the table. -/
theorem CellInv.call (hfirst : FirstCells g) (h : CellInv g s) {c : ReaderCall} (hc : c.Ok g)
    {out : List (ℕ × ℤ)} (hcall : call g s c = some (s', out)) : CellInv g s' := by
  cases c with
  | enterFtoList ei =>
    cases hcall
    exact h.enterFtoList (hc ei rfl)
  | readNext id =>
    simp only [FeatureReader.call, Option.map_eq_some_iff, Prod.mk.injEq] at hcall
    obtain ⟨t, ht, rfl, -⟩ := hcall
    exact h.readNext hfirst ht
  | featureReceive =>
    cases hcall
    exact h.featureReceive
  | passFtoSIMD id =>
    cases hcall
    exact h.passFtoSIMD id
  | environment cah mem =>
    cases hcall
    exact ⟨h.queued, h.current, h.pending, h.requested⟩

theorem cellInv_of_run (hfirst : FirstCells g) {calls : List ReaderCall} {results : List (ℕ × ℤ)}
    (hcalls : ∀ c ∈ calls, c.Ok g)
    (hrun : Machine.run (call g) .init calls = some (s, results)) : CellInv g s := by
  refine Machine.run_inv (I := fun is _ t => (∀ c ∈ is, ReaderCall.Ok g c) → CellInv g t) ?_
    (fun _ => .init g) hrun hcalls
  intro is os t c t' o h hcall hok
  exact (h fun c' hc' => hok c' (List.mem_append_left _ hc')).call hfirst
    (hok c (by simp)) hcall

end FeatureReader

/-! ## The feature region -/

variable {inp : Input}

theorem firstCells_of_preprocess (hunit : inp.mode = .xCmp → 1 ≤ inp.xUnit)
    (hn : 1 ≤ inp.nOfEngine) (hg : preprocess inp = some g) : FeatureReader.FirstCells g := by
  intro hmode ei hei
  rw [(mapFeatures_of_preprocess hg).1] at hmode
  have hp := preparedXCmp_of_preprocess hmode (hunit hmode) hn hg
  obtain ⟨m, hpos, -, hline, -⟩ := hp.table.slices ei.dst hei.dst_lt ei.vFold hei.vFold_lt
  obtain ⟨a, ha, hline⟩ := hline 0 hpos
  rw [FeatureReader.returnAddress, ha]
  exact fun heq => hline.ne_zero (Option.some.inj heq)

/-- The feature addresses keep to the feature region exactly under the condition of the mode.
Where they do, every read that the feature reader issues in any run is answered to the
feature queue. -/
theorem featuresInRegion_iff_featureCond {inp : Input} {g : Globals}
    (hunit : inp.mode = .xCmp → 1 ≤ inp.xUnit) (hn : 1 ≤ inp.nOfEngine)
    (hg : preprocess inp = some g) :
    (FeaturesInRegion g ↔ FeatureCond inp) ∧
      (FeaturesInRegion g → ∀ (calls : List FeatureReader.ReaderCall) (s : FeatureReader)
        (results : List (ℕ × ℤ)),
        (∀ ei, .enterFtoList ei ∈ calls → ei.dst < g.dataInfo.xH ∧ ei.vFold < g.archInfo.bf) →
        Machine.run (FeatureReader.call g) .init calls = some (s, results) →
        ∀ a ∈ s.requested, FeatureReply g a) := by
  refine ⟨featuresInRegion_iff hunit hg, fun hreg calls s results hedges hrun a ha => ?_⟩
  have hok : ∀ c ∈ calls, FeatureReader.ReaderCall.Ok g c := by
    rintro c hc ei rfl
    obtain ⟨hdst, hfold⟩ := hedges ei hc
    exact ⟨hdst, hfold⟩
  have hinv := FeatureReader.cellInv_of_run (firstCells_of_preprocess hunit hn hg) hok hrun
  exact hreg.reply a (hinv.requested a ha)

/-- A read of the small input. -/
theorem featuresInRegion_threeVertices :
    ∃ g, preprocess .threeVertices = some g ∧ FeaturesInRegion g ∧
      ∀ s results, Machine.run (FeatureReader.call g) .init
        [.enterFtoList ⟨0, true, 1, 0⟩, .readNext 0] = some (s, results) →
        ∀ a ∈ s.requested, FeatureReply g a := by
  obtain ⟨g, hg⟩ := preprocess_threeVertices
  obtain ⟨hbf, -, hxH⟩ := geometry_threeVertices hg
  obtain ⟨hiff, hreads⟩ := featuresInRegion_iff_featureCond (fun _ => by decide) (by decide) hg
  have hreg : FeaturesInRegion g := by
    refine hiff.mpr (.inr ?_)
    change (32 + 16 - 1) / 16 ≤ ceilDiv 32 16
    rw [ceilDiv_eq (by decide) (by decide)]
  refine ⟨g, hg, hreg, fun s results => hreads hreg _ s results fun ei hei => ?_⟩
  obtain rfl : ei = ⟨0, true, 1, 0⟩ := by simpa using hei
  rw [hxH, hbf]
  decide

/-- The columns and the values of all rows share the line of the row pointers, and that is
where the outputs start. -/
theorem not_featuresInRegion_oneFeature :
    ∃ g, preprocess .oneFeature = some g ∧ g.archInfo.axwAddrStart ∈ g.xToAddr 0 ∧
      g.archInfo.axwAddrStart ≠ 0 ∧ ¬ FeaturesInRegion g := by
  obtain ⟨g, hg⟩ := preprocess_oneFeature
  have hprep := prepared_of_preprocess hg
  have hxH : g.dataInfo.xH = 3 := hprep.xH_eq
  obtain ⟨haxw, hrows⟩ := csrTable_of_preprocess rfl hg
  -- every row moves one line forward and one back
  have hline : csrLine Input.oneFeature.rowCount Input.oneFeature.rowBlocks 3 = 0 := by
    simp [csrLine, openLine, oneFeature_rows, start_succ, cacheLineCount]
  have hstart : g.archInfo.axwAddrStart = g.archInfo.xwEleAddrStart := by
    rw [haxw, hxH, csrEndLine, hline]
    simp [wrapAddr, cacheLineCount]
  have hmem : g.archInfo.axwAddrStart ∈ g.xToAddr 0 := by
    refine List.mem_of_getElem? (i := 0) ?_
    rw [(hrows 0 (by omega)).2 0 (by omega), hstart]
    simp [csrCellLine, wrapAddr, cacheLineCount]
  have hne : g.archInfo.axwAddrStart ≠ 0 := by
    have hle : cacheLineByte ≤ g.archInfo.xwEleAddrStart := by
      refine hprep.layout.line_le_xwEle ?_ ?_
      · rw [hprep.nOfEngine_eq]
        decide
      · rw [hprep.rowPtr_eq]
        decide
    simp only [cacheLineByte] at hle
    omega
  refine ⟨g, hg, hmem, hne, fun hreg => ?_⟩
  exact lt_irrefl _ (hreg.line 0 (by omega) _ hmem hne).2.2

end Sgcn

-- SUMMARY: The slice geometry of mode `MAT`: which columns the layout and the reads look at, and when they stay inside the rows.
import Sgcn.Feature.Lookups
import Sgcn.Layout.FeatureRegion
import Sgcn.Partition.Work

/-!
# Reads in mode `MAT`

A row of the `MAT` table has `total_urb` lines, and every fold is meant to cover the
next `urb` of them. Both the layout and the reads stop at the end of the row by an
equality test, which only works for a fold that starts before the end. So the folds
fit exactly when the last one starts inside the row and they reach its end.
-/

namespace Sgcn

namespace FeatureReader

variable {g : Globals} {s s' : FeatureReader} {id : ℕ}

/-! ## The columns of an edge -/

/-- The columns that up to `left` calls of `ReadNext` look at for an edge. -/
def matColumns (g : Globals) : ℕ → FrStat → List ℕ
  | 0, _ => []
  | left + 1, f => (f.vFold * g.archInfo.urb + f.curColIdx) ::
    if moreColumns g f then matColumns g left { f with curColIdx := f.curColIdx + 1 } else []

/-- The cells that are looked at for an edge, from its first column on. -/
def edgeLookups (g : Globals) (ei : EdgeInfo) : List (ℕ × ℕ) :=
  (matColumns g g.archInfo.urb ⟨ei.isLast, ei.dst, ei.vFold, 0, false⟩).map (Prod.mk ei.dst)

/-- The cells that are still to be looked at for the current edge. -/
def currentLookups (g : Globals) (f : FrStat) : List (ℕ × ℕ) :=
  if f.pqReadNeed then []
  else (matColumns g (g.archInfo.urb - f.curColIdx) f).map (Prod.mk f.dst)

/-- A fold that starts inside the row looks at its lines up to the end of the row; one
that starts behind it never meets the end. -/
theorem matColumns_eq {left : ℕ} {f : FrStat} (hleft : f.curColIdx + left = g.archInfo.urb) :
    matColumns g left f = List.range' (f.vFold * g.archInfo.urb + f.curColIdx)
      (if f.vFold * g.archInfo.urb + f.curColIdx < g.dataInfo.totalUrb then
        min left (g.dataInfo.totalUrb - (f.vFold * g.archInfo.urb + f.curColIdx)) else left) := by
  induction left generalizing f with
  | zero => simp [matColumns]
  | succ left ih =>
    rw [matColumns, ih (by simp only; omega)]
    have hmore : moreColumns g f = true ↔
        f.vFold * g.archInfo.urb + f.curColIdx + 1 ≠ g.dataInfo.totalUrb ∧ left ≠ 0 := by
      simp only [moreColumns, decide_eq_true_eq]
      omega
    simp only [hmore, ← Nat.add_assoc]
    generalize f.vFold * g.archInfo.urb + f.curColIdx = col
    split
    · next h =>
      obtain ⟨hend, hleft⟩ := h
      split
      · rw [if_pos (by omega),
          show min (left + 1) (g.dataInfo.totalUrb - col) =
            min left (g.dataInfo.totalUrb - (col + 1)) + 1 by omega, List.range'_succ]
      · rw [if_neg (by omega), List.range'_succ]
    · next h =>
      have hone : (if col < g.dataInfo.totalUrb then min (left + 1) (g.dataInfo.totalUrb - col)
          else left + 1) = 1 := by
        split <;> omega
      rw [hone, List.range'_one]

/-! ## What the reads look at -/

/-- The cells looked at so far and those to come for the current edge and the queued
ones are the cells of the edges entered. -/
structure LookupInv (g : Globals) (edges : List EdgeInfo) (cells : List (ℕ × ℕ)) (id : ℕ)
    (s : FeatureReader) : Prop where
  current : (s.frs id).pqReadNeed = false → (s.frs id).curColIdx < g.archInfo.urb
  total : cells ++ currentLookups g (s.frs id) ++ (s.pq id).flatMap (edgeLookups g) =
    edges.flatMap (edgeLookups g)

theorem LookupInv.congr {edges : List EdgeInfo} {cells : List (ℕ × ℕ)}
    (h : LookupInv g edges cells id s) (hfrs : s'.frs id = s.frs id) (hpq : s'.pq id = s.pq id) :
    LookupInv g edges cells id s' :=
  ⟨by rw [hfrs]; exact h.current, by rw [hfrs, hpq]; exact h.total⟩

/-- The next edge takes the place of the finished one. -/
theorem LookupInv.begun {edges : List EdgeInfo} {cells : List (ℕ × ℕ)} {t : FeatureReader}
    (hurb : 0 < g.archInfo.urb) (h : LookupInv g edges cells id s) (ht : s.begun id = some t) :
    LookupInv g edges cells id t ∧ (t.frs id).pqReadNeed = false := by
  obtain ⟨hneed, rfl⟩ | ⟨ei, rest, hneed, hpq, rfl⟩ := begun_cases ht
  · exact ⟨h, hneed⟩
  · have htotal := h.total
    rw [hpq, currentLookups, if_pos hneed] at htotal
    refine ⟨⟨fun _ => by simpa [consumePendingQ] using hurb, ?_⟩, by simp [consumePendingQ]⟩
    rw [← htotal]
    simp [consumePendingQ, currentLookups, edgeLookups]

/-- One read looks at the first of the cells to come. -/
theorem LookupInv.readMat {edges : List EdgeInfo} {cells : List (ℕ × ℕ)}
    (h : LookupInv g edges cells id s) (hneed : (s.frs id).pqReadNeed = false)
    (hread : readMat g id s = some s') :
    LookupInv g edges (cells ++ [((s.frs id).dst,
      (s.frs id).vFold * g.archInfo.urb + (s.frs id).curColIdx)]) id s' := by
  have hcur := h.current hneed
  cases ha : (g.xToAddr (s.frs id).dst)[(s.frs id).vFold * g.archInfo.urb +
      (s.frs id).curColIdx]? with
  | none => simp [FeatureReader.readMat, returnAddress, ha] at hread
  | some a =>
    obtain ⟨t, ht, hline⟩ := readMat_spec ha
    obtain rfl : s' = t := Option.some.inj (hread.symm.trans ht)
    have htotal := h.total
    obtain ⟨left, hleft⟩ : ∃ left, g.archInfo.urb - (s.frs id).curColIdx = left + 1 :=
      ⟨g.archInfo.urb - (s.frs id).curColIdx - 1, by omega⟩
    rw [currentLookups, hneed, if_neg (by simp), hleft, matColumns] at htotal
    cases hmore : moreColumns g (s.frs id) with
    | true =>
      have hnext : (s.frs id).curColIdx + 1 < g.archInfo.urb := by
        simp only [moreColumns, decide_eq_true_eq] at hmore
        omega
      have hfrs : s'.frs id = { s.frs id with curColIdx := (s.frs id).curColIdx + 1 } := by
        simp [hline.frs, hmore]
      refine ⟨fun _ => by rw [hfrs]; exact hnext, ?_⟩
      rw [← htotal, hfrs, hline.pq, currentLookups]
      simp [hneed, hmore, show g.archInfo.urb - ((s.frs id).curColIdx + 1) = left by omega]
    | false =>
      have hfrs : s'.frs id = { s.frs id with pqReadNeed := true } := by
        simp [hline.frs, hmore]
      refine ⟨fun hfalse => by simp [hfrs] at hfalse, ?_⟩
      rw [← htotal, hfrs, hline.pq, currentLookups]
      simp [hmore]

/-- The cells of a read are the next ones of some edge that was entered. -/
theorem LookupInv.mem_edge {edges : List EdgeInfo} {cells : List (ℕ × ℕ)}
    (hmode : g.archInfo.mode = .mat) (hurb : 0 < g.archInfo.urb)
    (h : LookupInv g edges cells id s) {p : ℕ × ℕ} (hp : p ∈ lookups g id s) :
    ∃ ei ∈ edges, p ∈ edgeLookups g ei := by
  rw [lookups] at hp
  cases ht : s.begun id with
  | none => simp [ht] at hp
  | some t =>
    obtain ⟨hinv, hneed⟩ := h.begun hurb ht
    have hcur := hinv.current hneed
    obtain ⟨left, hleft⟩ : ∃ left, g.archInfo.urb - (t.frs id).curColIdx = left + 1 :=
      ⟨g.archInfo.urb - (t.frs id).curColIdx - 1, by omega⟩
    obtain rfl : p = ((t.frs id).dst,
        (t.frs id).vFold * g.archInfo.urb + (t.frs id).curColIdx) := by
      simpa [ht, modeLookups, hmode] using hp
    rw [← List.mem_flatMap, ← hinv.total, currentLookups, hneed, if_neg (by simp), hleft,
      matColumns]
    simp

theorem LookupInv.enterFtoList {edges : List EdgeInfo} {cells : List (ℕ × ℕ)} {ei : EdgeInfo}
    (h : LookupInv g edges cells ei.id s) :
    LookupInv g (edges ++ [ei]) cells ei.id (s.enterFtoList ei) := by
  refine ⟨h.current, ?_⟩
  rw [List.flatMap_append, ← h.total]
  simp [FeatureReader.enterFtoList]

/-- A read concerns one engine. -/
theorem LookupInv.readNext {edges : ℕ → List EdgeInfo} {cells : ℕ → List (ℕ × ℕ)}
    (hmode : g.archInfo.mode = .mat) (hurb : 0 < g.archInfo.urb)
    (h : ∀ j, LookupInv g (edges j) (cells j) j s) (hread : readNext g id s = some s') (j : ℕ) :
    LookupInv g (edges j) (cells j ++ if j = id then lookups g id s else []) j s' := by
  rw [readNext_eq] at hread
  rw [lookups]
  cases ht : s.begun id with
  | none =>
    obtain rfl : s = s' := by simpa [ht] using hread
    simpa using h j
  | some t =>
    simp only [ht, Option.elim_some, readMode, modeLookups, hmode] at hread ⊢
    by_cases hj : j = id
    · subst hj
      obtain ⟨hinv, hneed⟩ := (h j).begun hurb ht
      rw [if_pos rfl]
      exact hinv.readMat hneed hread
    · rw [if_neg hj, List.append_nil]
      have hframe : t.frs j = s.frs j ∧ t.pq j = s.pq j := by
        obtain ⟨-, rfl⟩ | ⟨ei, rest, -, -, rfl⟩ := begun_cases ht
        · exact ⟨rfl, rfl⟩
        · simp [consumePendingQ, hj]
      cases ha : (g.xToAddr (t.frs id).dst)[(t.frs id).vFold * g.archInfo.urb +
          (t.frs id).curColIdx]? with
      | none => simp [FeatureReader.readMat, returnAddress, ha] at hread
      | some a =>
        obtain ⟨u, hu, hline⟩ := readMat_spec ha
        obtain rfl : s' = u := Option.some.inj (hread.symm.trans hu)
        refine (h j).congr ?_ (by rw [hline.pq, hframe.2])
        rw [hline.frs, Function.update_of_ne hj, hframe.1]

theorem lookupInv_call {calls : List ReaderCall} {log o : List (ℕ × ℕ × ℕ)} {c : ReaderCall}
    (hmode : g.archInfo.mode = .mat) (hurb : 0 < g.archInfo.urb)
    (h : ∀ id, LookupInv g (entered id calls) (lookedUp id log) id s)
    (hcall : lookupCall g s c = some (s', o)) (id : ℕ) :
    LookupInv g (entered id (calls ++ [c])) (lookedUp id (log ++ o)) id s' := by
  obtain ⟨⟨t, results⟩, hc, heq⟩ := Option.map_eq_some_iff.mp hcall
  obtain ⟨rfl, rfl⟩ := Prod.mk.inj heq
  rw [entered_append]
  obtain ⟨ei, rfl, rfl⟩ | ⟨j, rfl, hread⟩ | ⟨hread, hedge, hfrs, hpq⟩ := call_cases hc
  · rw [show (ReaderCall.enterFtoList ei).read? = none from rfl, Option.elim_none, List.append_nil]
    by_cases hid : ei.id = id
    · subst hid
      simpa [ReaderCall.edge?] using (h ei.id).enterFtoList
    · simpa [ReaderCall.edge?, hid] using (h id).congr
        (show (s.enterFtoList ei).frs id = s.frs id from rfl)
        (by simp [FeatureReader.enterFtoList, Ne.symm hid])
  · rw [show (ReaderCall.readNext j).read? = some j from rfl, Option.elim_some, lookedUp_append]
    simpa [ReaderCall.edge?] using LookupInv.readNext hmode hurb h hread id
  · rw [hread, hedge id, Option.elim_none, List.append_nil, Option.toList_none, List.append_nil]
    exact (h id).congr (by rw [hfrs]) (by rw [hpq])

/-- In every run, the cells looked at for an engine are those of the edges entered for
it, one edge after the other and each from its first column on. -/
theorem lookupInv_of_run (hmode : g.archInfo.mode = .mat) (hurb : 0 < g.archInfo.urb)
    {calls : List ReaderCall} {log : List (ℕ × ℕ × ℕ)}
    (hrun : Machine.run (lookupCall g) .init calls = some (s, log)) (id : ℕ) :
    LookupInv g (entered id calls) (lookedUp id log) id s := by
  refine Machine.run_inv (I := fun calls log s =>
    ∀ id, LookupInv g (entered id calls) (lookedUp id log) id s) ?_ ?_ hrun id
  · intro calls log t c t' o hI hcall
    exact lookupInv_call hmode hurb hI hcall
  · intro id
    exact ⟨fun h => (by cases h), rfl⟩

end FeatureReader

/-! ## When the folds fit -/

open FeatureReader

variable {inp : Input}

/-- The accesses of the layout and the look-ups of the reads stay inside the rows, and
over all folds each goes through every line of a row once. -/
structure MatIndexSafe (inp : Input) : Prop where
  mapped : ∀ f < inp.folds, ∀ r < inp.aH,
    ∀ c ∈ slotAccesses inp.rowLines inp.foldLines (f * inp.foldLines), c < inp.rowLines
  mappedOnce : ∀ r < inp.aH, ((List.range inp.folds).flatMap fun f =>
    slotAccesses inp.rowLines inp.foldLines (f * inp.foldLines)).Perm (List.range inp.rowLines)
  /-- In every state that is reached, the next read of any engine stays inside the row,
  and the reads so far went through the edges in order. -/
  looked : ∀ g, preprocess inp = some g → ∀ calls s log, (∀ c ∈ calls, ReaderCall.Ok g c) →
    Machine.run (lookupCall g) .init calls = some (s, log) → ∀ id,
      (∀ p ∈ lookups g id s, p.2 < g.dataInfo.totalUrb) ∧
        lookedUp id log <+: (entered id calls).flatMap (edgeLookups g)
  lookedOnce : ∀ g, preprocess inp = some g → ∀ id isLast, ∀ r < inp.aH,
    ((List.range g.archInfo.bf).flatMap fun f => edgeLookups g ⟨id, isLast, r, f⟩).Perm
      ((List.range g.dataInfo.totalUrb).map (Prod.mk r))

/-- The last fold starts inside the row, and the folds reach the end of the row. -/
structure FoldsFit (bf urb totalUrb : ℕ) : Prop where
  inside : (bf - 1) * urb < totalUrb
  cover : totalUrb ≤ bf * urb

theorem foldLines_pos (hmode : inp.mode = .mat) (hxW : 1 ≤ inp.xW) (hbf : 1 ≤ inp.bf) :
    0 < inp.foldLines := by
  simp only [Input.foldLines, hmode]
  exact Nat.ceil_pos.mpr (floatDiv_pos (floatDiv_pos (toFloat_pos hxW) hbf) (by decide))

/-- As long as a `float` counts exactly, the folds reach the end of the row. -/
theorem foldsFit_iff (hmode : inp.mode = .mat) (hxW : 1 ≤ inp.xW) (hxW' : inp.xW ≤ 2 ^ 24)
    (hbf : 1 ≤ inp.bf) (hbf' : inp.bf ≤ 2 ^ 24) :
    FoldsFit inp.bf inp.foldLines inp.rowLines ↔
      (inp.bf - 1) * ((inp.xW + inp.bf * 16 - 1) / (inp.bf * 16)) < (inp.xW + 15) / 16 := by
  have hurb : inp.foldLines = (inp.xW + inp.bf * 16 - 1) / (inp.bf * 16) := by
    simp only [Input.foldLines, hmode]
    exact ceil_floatDiv_cacheLineCount hxW hxW' hbf hbf'
  have htotal : inp.rowLines = (inp.xW + 15) / 16 := by
    simp only [Input.rowLines, hmode]
    exact ceilDiv_eq hxW' (by decide)
  rw [← hurb, ← htotal]
  refine ⟨FoldsFit.inside, fun hinside => ⟨hinside, ?_⟩⟩
  have hmul := Nat.lt_mul_div_succ (inp.xW + inp.bf * 16 - 1) (show 0 < inp.bf * 16 by omega)
  rw [← hurb, show inp.bf * 16 * (inp.foldLines + 1) =
    16 * (inp.bf * inp.foldLines) + inp.bf * 16 by ring] at hmul
  omega

theorem fold_start_le {bf urb f : ℕ} (hf : f < bf) : f * urb ≤ (bf - 1) * urb :=
  Nat.mul_le_mul_right urb (by omega)

/-- Folds that all start up to the end of the row go through its first lines in order. -/
theorem flatMap_slotAccesses {bf urb totalUrb : ℕ} (h : (bf - 1) * urb ≤ totalUrb) :
    ((List.range bf).flatMap fun f => slotAccesses totalUrb urb (f * urb)) =
      List.range (min (bf * urb) totalUrb) := by
  rw [← Rounds.flatMap_range'_min]
  refine List.flatMap_congr fun f hf => ?_
  exact slotAccesses_of_le ((fold_start_le (List.mem_range.mp hf)).trans h)

/-- The cells of an edge whose fold starts inside the row. -/
theorem edgeLookups_eq {g : Globals} {ei : EdgeInfo}
    (h : ei.vFold * g.archInfo.urb < g.dataInfo.totalUrb) :
    edgeLookups g ei = (List.range' (ei.vFold * g.archInfo.urb)
      (min g.archInfo.urb (g.dataInfo.totalUrb - ei.vFold * g.archInfo.urb))).map
        (Prod.mk ei.dst) := by
  rw [edgeLookups, matColumns_eq (by simp)]
  simp [h]

/-- In mode `MAT` the preprocessor is defined when the layout stays inside the rows. -/
theorem preprocess_mat_isSome {g₁ : Globals} (hmode : inp.mode = .mat)
    (hgraph : mapGraph (transXW inp.xw (distribute inp)) = some g₁)
    (h : ∀ f < inp.folds, ∀ r < inp.aH,
      ∀ c ∈ slotAccesses inp.rowLines inp.foldLines (f * inp.foldLines), c < inp.rowLines) :
    ∃ g, preprocess inp = some g := by
  obtain ⟨hmode₁, hbf, hurb, htotal, hxH, -, -, -, hcells⟩ := mapGraph_inputs hgraph
  have hlen (r : ℕ) : (inp.cells r).length = inp.rowLines := by
    simp only [Input.cells, Input.rowLines, hmode, List.length_replicate]
  obtain ⟨s, hs⟩ : ∃ s, mapFolds inp.folds inp.aH inp.foldLines inp.rowLines
      ⟨inp.cells, g₁.archInfo.xwEleAddrStart⟩ = some s := by
    refine (mapFolds_isSome_iff _ _).mpr fun f hf r hr c hc => ?_
    rw [hlen]
    exact h f hf r hr c hc
  have hfeat : mapFeatures g₁ = some s := by
    unfold mapFeatures
    simp only [hmode₁, hmode, hbf, hurb, htotal, hxH, hcells]
    exact hs
  exact preprocess_isSome_of_maps hgraph hfeat

/-- The edges of a run are edges of the table. -/
theorem edgeOk_of_entered {g : Globals} {calls : List ReaderCall} {id : ℕ} {ei : EdgeInfo}
    (hok : ∀ c ∈ calls, ReaderCall.Ok g c) (hei : ei ∈ entered id calls) : EdgeOk g ei := by
  obtain ⟨c, hc, hedge⟩ := List.mem_filterMap.mp hei
  refine hok c hc ei ?_
  cases c with
  | enterFtoList e =>
    simp only [ReaderCall.edge?] at hedge
    split at hedge
    · rw [Option.some.inj hedge]
    · cases hedge
  | _ => cases hedge

theorem matIndexSafe_of_foldsFit (hmode : inp.mode = .mat) (hxW : 1 ≤ inp.xW) (hbf : 1 ≤ inp.bf)
    (h : inp.aH = 0 ∨ FoldsFit inp.bf inp.foldLines inp.rowLines) : MatIndexSafe inp := by
  have hurb := foldLines_pos hmode hxW hbf
  have hfolds : inp.folds = inp.bf := by simp only [Input.folds, hmode]
  have hstart (r : ℕ) (hr : r < inp.aH) (f : ℕ) (hf : f < inp.bf) :
      f * inp.foldLines < inp.rowLines := by
    rcases h with hzero | hfit
    · omega
    · exact (fold_start_le hf).trans_lt hfit.inside
  refine ⟨fun f hf r hr c hc => ?_, fun r hr => ?_, ?_, ?_⟩
  · have hle := (hstart r hr f (by omega)).le
    rw [slotAccesses_of_le hle, List.mem_range'_1] at hc
    omega
  · have hfit := h.resolve_left (by omega)
    rw [hfolds, flatMap_slotAccesses hfit.inside.le, min_eq_right hfit.cover]
  · intro g hg calls s log hok hrun id
    have hgeo := geometry_of_preprocess hg
    have hxH : g.dataInfo.xH = inp.aH := (prepared_of_preprocess hg).xH_eq
    have hmode' := (mapFeatures_of_preprocess hg).1.trans hmode
    have hurb' : 0 < g.archInfo.urb := by rw [hgeo.urb_eq]; exact hurb
    have hinv := lookupInv_of_run hmode' hurb' hrun id
    refine ⟨fun p hp => ?_, ?_⟩
    · obtain ⟨ei, hei, hcell⟩ := hinv.mem_edge hmode' hurb' hp
      obtain ⟨hdst, hfold⟩ := edgeOk_of_entered hok hei
      have hlt := hstart ei.dst (by omega) ei.vFold (by rw [← hfolds, ← hgeo.bf_eq]; exact hfold)
      rw [← hgeo.urb_eq, ← hgeo.totalUrb_eq] at hlt
      rw [edgeLookups_eq hlt] at hcell
      obtain ⟨col, hcol, rfl⟩ := List.mem_map.mp hcell
      rw [List.mem_range'_1] at hcol
      simp only
      omega
    · rw [← hinv.total, List.append_assoc]
      exact List.prefix_append _ _
  · intro g hg id isLast r hr
    have hgeo := geometry_of_preprocess hg
    have hfit := h.resolve_left (by omega)
    have hcells (f : ℕ) (hf : f ∈ List.range g.archInfo.bf) :
        edgeLookups g ⟨id, isLast, r, f⟩ = (List.range' (f * g.archInfo.urb)
          (min g.archInfo.urb (g.dataInfo.totalUrb - f * g.archInfo.urb))).map (Prod.mk r) := by
      refine edgeLookups_eq ?_
      rw [hgeo.urb_eq, hgeo.totalUrb_eq]
      refine hstart r hr f ?_
      rw [← hfolds, ← hgeo.bf_eq]
      exact List.mem_range.mp hf
    rw [List.flatMap_congr hcells, ← List.map_flatMap, Rounds.flatMap_range'_min, min_eq_right]
    rw [hgeo.bf_eq, hgeo.urb_eq, hgeo.totalUrb_eq, hfolds]
    exact hfit.cover

theorem foldsFit_of_matIndexSafe {g₁ : Globals} (hmode : inp.mode = .mat) (hxW : 1 ≤ inp.xW)
    (hbf : 1 ≤ inp.bf) (hrow : 0 < inp.aH)
    (hgraph : mapGraph (transXW inp.xw (distribute inp)) = some g₁) (h : MatIndexSafe inp) :
    FoldsFit inp.bf inp.foldLines inp.rowLines := by
  have hurb := foldLines_pos hmode hxW hbf
  have hfolds : inp.folds = inp.bf := by simp only [Input.folds, hmode]
  have hle : (inp.bf - 1) * inp.foldLines ≤ inp.rowLines := by
    by_contra hgt
    have hlt := h.mapped (inp.bf - 1) (by omega) 0 hrow ((inp.bf - 1) * inp.foldLines)
      (mem_slotAccesses.mpr ⟨le_rfl, by omega, .inr (by omega)⟩)
    omega
  have hcover : inp.rowLines ≤ inp.bf * inp.foldLines := by
    have hperm := h.mappedOnce 0 hrow
    rw [hfolds, flatMap_slotAccesses hle] at hperm
    have hlen := hperm.length_eq
    simp only [List.length_range] at hlen
    omega
  refine ⟨?_, hcover⟩
  -- the layout skips a fold that starts at the end of the row, the reads do not
  obtain ⟨g, hg⟩ := preprocess_mat_isSome hmode hgraph h.mapped
  have hgeo := geometry_of_preprocess hg
  have hxH : g.dataInfo.xH = inp.aH := (prepared_of_preprocess hg).xH_eq
  have hmode' := (mapFeatures_of_preprocess hg).1.trans hmode
  have hlook := (h.looked g hg [.enterFtoList ⟨0, false, 0, inp.bf - 1⟩] _ [] ?_ rfl 0).1
    (0, (inp.bf - 1) * g.archInfo.urb) ?_
  · rwa [hgeo.urb_eq, hgeo.totalUrb_eq] at hlook
  · intro c hc ei hei
    obtain rfl : ei = ⟨0, false, 0, inp.bf - 1⟩ := by
      rw [List.mem_singleton.mp hc] at hei
      exact (ReaderCall.enterFtoList.inj hei).symm
    exact ⟨by rw [hxH]; exact hrow, by rw [hgeo.bf_eq, hfolds]; simp only; omega⟩
  · change _ ∈ lookups g 0 { init.enterFtoList ⟨0, false, 0, inp.bf - 1⟩ with cah := .init }
    rw [lookups_first g ⟨0, false, 0, inp.bf - 1⟩ .init]
    simp [modeLookups, hmode', consumePendingQ]

/-- One line per row, and three folds. -/
def Input.manyFolds : Input := { Input.threeVertices with mode := .mat, xW := 16, bf := 3 }

end Sgcn

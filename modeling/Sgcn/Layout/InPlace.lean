-- SUMMARY: The exact layout of the `X_CMP` features: which address every slot gets, and when the table has a cell for every slot.
import Sgcn.Layout.FeatureRegion
import Sgcn.Partition.Work

/-!
# The in-place layout

`AddressMapping` replaces the marks of the `X_CMP` table by addresses in place,
fold by fold while the table is kept row by row. Every slot consumes a line, so
the address of a slot is a closed form of its fold, row and position. The table
has as many slots as `bf` promises when the quotient `x_w / x_unit`, which is
computed in `float`, rounds up to the same count as the exact one.
-/

namespace Sgcn

open Loop

variable {base : ℕ} {T : ℕ → List ℕ} {A : ℕ → ℕ → ℕ} {P Q : ℕ → ℕ → Prop} {s s' : XMap}

/-! ## Exact addresses -/

/-- What a slot with address `a` leaves of a cell. -/
def mapCell (a v : ℕ) : ℕ := if v = 1 then a else v

/-- The cells in `P` have got their addresses `A`; the others are as in `T`. -/
structure Placed (T : ℕ → List ℕ) (A : ℕ → ℕ → ℕ) (P : ℕ → ℕ → Prop) (s : XMap) : Prop where
  visited : ∀ r c, P r c → (s.table r)[c]? = (T r)[c]?.map (mapCell (A r c))
  kept : ∀ r c, ¬ P r c → (s.table r)[c]? = (T r)[c]?

theorem Placed.congr (h : Placed T A P s) (hPQ : ∀ r c, P r c ↔ Q r c) : Placed T A Q s := by
  obtain rfl : P = Q := by
    funext r c
    exact propext (hPQ r c)
  exact h

theorem Placed.step (h : Placed T A P s) {row col v : ℕ} (hfresh : ¬ P row col)
    (hget : (s.table row)[col]? = some v) (hA : A row col = s.address) :
    Placed T A (fun r c => P r c ∨ r = row ∧ c = col)
      ⟨if v = 1 then Function.update s.table row ((s.table row).set col s.address) else s.table,
        s.address + cacheLineByte⟩ := by
  have hT : (T row)[col]? = some v := by rw [← h.kept row col hfresh, hget]
  refine ⟨fun r c hP => ?_, fun r c hP => ?_⟩
  · rw [getElem?_markCell hget]
    by_cases hrc : r = row ∧ c = col
    · obtain ⟨rfl, rfl⟩ := hrc
      rw [if_pos ⟨rfl, rfl⟩, hT, hA]
      rfl
    · rw [if_neg hrc]
      exact h.visited r c (hP.resolve_right hrc)
  · rw [getElem?_markCell hget, if_neg fun hrc => hP (.inr hrc)]
    exact h.kept r c fun hPrc => hP (.inl hPrc)

/-- The slots of one row and fold. -/
theorem mapSlots_placed {totalUrb row : ℕ} (left col : ℕ) (h : Placed T A P s)
    (hfresh : ∀ c, col ≤ c → ¬ P row c) (hend : col + left ≤ totalUrb)
    (hlen : col + left ≤ (T row).length)
    (hA : ∀ k < left, A row (col + k) = s.address + cacheLineByte * k) :
    ∃ s', mapSlots totalUrb row left col s = some s' ∧
      Placed T A (fun r c => P r c ∨ r = row ∧ col ≤ c ∧ c < col + left) s' ∧
      s'.address = s.address + cacheLineByte * left := by
  induction left generalizing col s P with
  | zero => exact ⟨s, rfl, h.congr fun r c => by constructor <;> grind, rfl⟩
  | succ left ih =>
    have hget : (s.table row)[col]? = some ((T row)[col]) := by
      rw [h.kept row col (hfresh col le_rfl), List.getElem?_eq_getElem (by omega)]
    have hstep := h.step (hfresh col le_rfl) hget (by simpa using hA 0 (by omega))
    obtain ⟨s', hmap, hplaced, haddr⟩ := ih (col + 1) hstep
      (fun c hc hPc => by
        rcases hPc with hP | ⟨-, rfl⟩
        · exact hfresh c (by omega) hP
        · omega) (by omega) (by omega)
      (fun k hk => by
        have := hA (k + 1) (by omega)
        rw [show col + 1 + k = col + (k + 1) by omega, this]
        simp only
        ring)
    refine ⟨s', ?_, hplaced.congr fun r c => ?_, ?_⟩
    · rw [mapSlots, if_neg (by omega), hget]
      exact hmap
    · exact or_slot_iff (by omega)
    · rw [haddr]
      ring

/-- The address of slot `c` of row `r` when a row has `urb` slots in every fold. -/
def slotAddr (base xH urb r c : ℕ) : ℕ :=
  base + cacheLineByte * ((c / urb * xH + r) * urb + c % urb)

theorem slotAddr_fold {xH urb f r k : ℕ} (hk : k < urb) :
    slotAddr base xH urb r (f * urb + k) = base + cacheLineByte * ((f * xH + r) * urb + k) := by
  have hpos : 0 < urb := by omega
  rw [slotAddr, Nat.mul_comm f urb, Nat.mul_add_div hpos, Nat.mul_add_mod, Nat.div_eq_of_lt hk,
    Nat.mod_eq_of_lt hk, Nat.add_zero]

/-- The first `j` rows of fold `i`, after all earlier folds. -/
def foldSeen (xH urb i j r c : ℕ) : Prop :=
  (r < xH ∧ c < i * urb) ∨ r < j ∧ i * urb ≤ c ∧ c < i * urb + urb

/-- One row of a fold. -/
theorem mapSlots_foldSeen {bf xH urb i j : ℕ} {u : XMap}
    (hrow : i * urb + urb ≤ (T j).length) (hroom : i * urb + urb ≤ bf * urb)
    (hu : Placed T (slotAddr base xH urb) (foldSeen xH urb i j) u)
    (haddr : u.address = base + cacheLineByte * ((i * xH + j) * urb)) :
    ∃ u', mapSlots (bf * urb) j urb (i * urb) u = some u' ∧
      Placed T (slotAddr base xH urb) (foldSeen xH urb i (j + 1)) u' ∧
      u'.address = base + cacheLineByte * ((i * xH + (j + 1)) * urb) := by
  have hfresh : ∀ c, i * urb ≤ c → ¬ foldSeen xH urb i j j c := by
    rintro c hc (⟨-, hlt⟩ | ⟨hlt, -⟩) <;> omega
  obtain ⟨u', hmap, hu', haddr'⟩ := mapSlots_placed urb (i * urb) hu hfresh hroom hrow
    fun k hk => by rw [slotAddr_fold hk, haddr]; ring
  refine ⟨u', hmap, hu'.congr fun r c => ?_, by rw [haddr', haddr]; ring⟩
  unfold foldSeen
  rw [or_assoc, lt_succ_and_iff (q := fun _ => i * urb ≤ c ∧ c < i * urb + urb)]

/-- All folds of a table that has a cell for every slot. -/
theorem mapFolds_placed {bf xH urb : ℕ} (base : ℕ) (hrows : ∀ r < xH, (T r).length = bf * urb) :
    ∃ s, mapFolds bf xH urb (bf * urb) ⟨T, base⟩ = some s ∧
      Placed T (slotAddr base xH urb) (fun r c => r < xH ∧ c < bf * urb) s ∧
      s.address = base + cacheLineByte * (bf * xH * urb) := by
  refine forUpto_isSome (fun i t => Placed T (slotAddr base xH urb)
    (fun r c => r < xH ∧ c < i * urb) t ∧ t.address = base + cacheLineByte * (i * xH * urb))
    ⟨⟨fun _ _ h => by omega, fun _ _ _ => rfl⟩, by simp⟩ ?_
  intro i t hi ⟨hplaced, haddr⟩
  have hroom : i * urb + urb ≤ bf * urb := by
    rw [← Nat.succ_mul]
    exact Nat.mul_le_mul_right urb hi
  have hfold := forUpto_isSome (fun j u => Placed T (slotAddr base xH urb)
      (foldSeen xH urb i j) u ∧ u.address = base + cacheLineByte * ((i * xH + j) * urb))
    ⟨hplaced.congr fun r c => by simp [foldSeen], by rw [haddr, Nat.add_zero]⟩
    fun j u hj hu => mapSlots_foldSeen (hrows j hj ▸ hroom) hroom hu.1 hu.2
  obtain ⟨t', hrun, hplaced', haddr'⟩ := hfold
  refine ⟨t', hrun, hplaced'.congr fun r c => ?_, by rw [haddr']; ring⟩
  rw [Nat.succ_mul]
  constructor
  · rintro (h | h) <;> exact ⟨by omega, by omega⟩
  · rintro ⟨hr, hc⟩
    rcases Nat.lt_or_ge c (i * urb) with hlt | hge
    · exact .inl ⟨hr, hlt⟩
    · exact .inr ⟨hr, hge, hc⟩

/-! ## The table of `X_CMP` -/

/-- The exact number of slices of a row. -/
def slices (xW xUnit : ℕ) : ℕ := (xW + xUnit - 1) / xUnit

/-- A row has `urb` slots for each of its slices, whatever `bf` is. -/
theorem length_transXCmpRow {xUnit : ℕ} (hunit : 0 < xUnit) (xW urb : ℕ) (x : ℕ → ℤ) :
    (transXCmpRow xUnit xW urb (ceilDiv xW xUnit) (ceilDiv xW xUnit * urb) x).length =
      slices xW xUnit * urb := by
  rcases Nat.eq_zero_or_pos xW with rfl | hpos
  · rw [slices, Nat.zero_add, Nat.div_eq_of_lt (by omega), Nat.zero_mul]
    rfl
  · have hlast := last_slice_width (ceilDiv_pos hpos hunit) urb
    rw [transXCmpRow_slices hunit hlast hpos,
      Rounds.length_flatMap_range fun _ _ => length_flushSlice _ _, slices,
      show xW + xUnit - 1 = xW - 1 + xUnit by omega, Nat.add_div_right _ hunit]

/-- The layout that the feature reader relies on in mode `X_CMP`. -/
structure IsInPlace (g : Globals) : Prop where
  totalUrb_eq : g.dataInfo.totalUrb = g.archInfo.bf * g.archInfo.urb
  length_eq : ∀ i < g.dataInfo.xH, (g.xToAddr i).length = g.dataInfo.totalUrb
  /-- A slot is absent, or holds the address of its place in the layout. -/
  entry : ∀ f < g.archInfo.bf, ∀ i < g.dataInfo.xH, ∀ k < g.archInfo.urb,
    (g.xToAddr i)[f * g.archInfo.urb + k]? = some 0 ∨
      (g.xToAddr i)[f * g.archInfo.urb + k]? = some (g.archInfo.xwEleAddrStart +
        cacheLineByte * ((f * g.dataInfo.xH + i) * g.archInfo.urb + k))
  /-- The present slots of a slice come first, and there is one. -/
  present : ∀ f < g.archInfo.bf, ∀ i < g.dataInfo.xH, ∃ m, 1 ≤ m ∧ m ≤ g.archInfo.urb ∧
    ∀ k < g.archInfo.urb, (g.xToAddr i)[f * g.archInfo.urb + k]? ≠ some 0 ↔ k < m
  distinct : ∀ i < g.dataInfo.xH, ∀ j < g.dataInfo.xH, ∀ c d a : ℕ, a ≠ 0 →
    (g.xToAddr i)[c]? = some a → (g.xToAddr j)[d]? = some a → i = j ∧ c = d
  /-- An address is not mistaken for a mark. -/
  noMark : ∀ i < g.dataInfo.xH, ∀ a ∈ g.xToAddr i, a ≠ 0 → a ≠ 1
  axw_eq : g.archInfo.axwAddrStart = g.archInfo.xwEleAddrStart +
    cacheLineByte * (g.archInfo.bf * g.dataInfo.xH * g.archInfo.urb)

/-- What the placed slices of a table that starts above the marks amount to. -/
theorem isInPlace_of_placed {g : Globals} {T : ℕ → List ℕ} (hurb : 0 < g.archInfo.urb)
    (hbase : 2 ≤ g.archInfo.xwEleAddrStart)
    (htotal : g.dataInfo.totalUrb = g.archInfo.bf * g.archInfo.urb)
    (hlen : ∀ i < g.dataInfo.xH, (g.xToAddr i).length = g.dataInfo.totalUrb)
    (hT : ∀ i < g.dataInfo.xH, ∀ f < g.archInfo.bf, ∃ m, 1 ≤ m ∧ m ≤ g.archInfo.urb ∧
      ∀ k < g.archInfo.urb, (T i)[f * g.archInfo.urb + k]? = some (if k < m then 1 else 0))
    (hcell : ∀ i < g.dataInfo.xH, ∀ c < g.archInfo.bf * g.archInfo.urb, (g.xToAddr i)[c]? =
      (T i)[c]?.map (mapCell (slotAddr g.archInfo.xwEleAddrStart g.dataInfo.xH g.archInfo.urb i c)))
    (haxw : g.archInfo.axwAddrStart = g.archInfo.xwEleAddrStart +
      cacheLineByte * (g.archInfo.bf * g.dataInfo.xH * g.archInfo.urb)) : IsInPlace g := by
  -- the present slots of slice `f` of row `i` hold their addresses, the others are zero
  have hslot (i : ℕ) (hi : i < g.dataInfo.xH) (f : ℕ) (hf : f < g.archInfo.bf) :
      ∃ m, 1 ≤ m ∧ m ≤ g.archInfo.urb ∧ ∀ k < g.archInfo.urb,
        (g.xToAddr i)[f * g.archInfo.urb + k]? = some (if k < m then g.archInfo.xwEleAddrStart +
          cacheLineByte * ((f * g.dataInfo.xH + i) * g.archInfo.urb + k) else 0) := by
    obtain ⟨m, hm, hmle, hcells⟩ := hT i hi f hf
    refine ⟨m, hm, hmle, fun k hk => ?_⟩
    have hroom : f * g.archInfo.urb + g.archInfo.urb ≤ g.archInfo.bf * g.archInfo.urb := by
      rw [← Nat.succ_mul]
      exact Nat.mul_le_mul_right _ hf
    rw [hcell i hi _ (by omega), hcells k hk, slotAddr_fold hk]
    by_cases hkm : k < m
    · simp [hkm, mapCell]
    · simp [hkm, mapCell]
  -- where an address comes from
  have horigin (i : ℕ) (hi : i < g.dataInfo.xH) (c a : ℕ) (ha : a ≠ 0)
      (hget : (g.xToAddr i)[c]? = some a) :
      a = g.archInfo.xwEleAddrStart + cacheLineByte *
        ((c / g.archInfo.urb * g.dataInfo.xH + i) * g.archInfo.urb + c % g.archInfo.urb) := by
    have hc : c < g.archInfo.urb * g.archInfo.bf := by
      rw [Nat.mul_comm, ← htotal, ← hlen i hi]
      exact (List.getElem?_eq_some_iff.mp hget).1
    obtain ⟨m, -, -, hcells⟩ := hslot i hi (c / g.archInfo.urb) (Nat.div_lt_of_lt_mul hc)
    have hcell' := hcells _ (Nat.mod_lt c hurb)
    rw [Nat.mul_comm (c / g.archInfo.urb), Nat.div_add_mod, hget, Option.some.injEq] at hcell'
    rw [hcell'] at ha ⊢
    exact if_pos (by by_contra hge; exact ha (if_neg hge))
  refine ⟨htotal, hlen, fun f hf i hi k hk => ?_, fun f hf i hi => ?_, ?_, ?_, haxw⟩
  · obtain ⟨m, -, -, hcells⟩ := hslot i hi f hf
    rw [hcells k hk]
    by_cases hkm : k < m
    · exact .inr (by rw [if_pos hkm])
    · exact .inl (by rw [if_neg hkm])
  · obtain ⟨m, hm, hmle, hcells⟩ := hslot i hi f hf
    refine ⟨m, hm, hmle, fun k hk => ?_⟩
    rw [hcells k hk, Ne, Option.some.injEq]
    by_cases hkm : k < m
    · rw [if_pos hkm]
      exact iff_of_true (by omega) hkm
    · rw [if_neg hkm]
      exact iff_of_false (by simp) hkm
  · intro i hi j hj c d a ha hc hd
    have heq := (horigin i hi c a ha hc).symm.trans (horigin j hj d a ha hd)
    have heq' := Nat.eq_of_mul_eq_mul_left (by decide) (Nat.add_left_cancel heq)
    obtain ⟨hrow, hk⟩ := Rounds.eq_of_counter_eq (Nat.mod_lt c hurb) (Nat.mod_lt d hurb) heq'
    obtain ⟨hf, hij⟩ := Rounds.eq_of_counter_eq hi hj hrow
    refine ⟨hij, ?_⟩
    rw [← Nat.div_add_mod c g.archInfo.urb, hf, hk, Nat.div_add_mod]
  · intro i hi a hmem ha
    obtain ⟨c, hc⟩ := List.getElem?_of_mem hmem
    rw [horigin i hi c a ha hc]
    omega

/-! ## When the layout is in place -/

section XCmp

variable {inp : Input} {g₁ : Globals}

/-- The globals before the features are mapped. -/
theorem mapGraph_xCmp (hmode : inp.mode = .xCmp)
    (hgraph : mapGraph (transXW inp.xw (distribute inp)) = some g₁) :
    g₁.archInfo.mode = .xCmp ∧ g₁.archInfo.urb = ceilDiv inp.xUnit cacheLineCount ∧
      g₁.archInfo.bf = ceilDiv inp.xW inp.xUnit ∧
      g₁.dataInfo.totalUrb = ceilDiv inp.xW inp.xUnit * ceilDiv inp.xUnit cacheLineCount ∧
      g₁.dataInfo.xH = inp.aH ∧ g₁.archInfo.nOfEngine = inp.nOfEngine ∧
      0 < (g₁.rowPtr 0).length ∧
      g₁.xToAddr = fun i => transXCmpRow inp.xUnit inp.xW (ceilDiv inp.xUnit cacheLineCount)
        (ceilDiv inp.xW inp.xUnit)
        (ceilDiv inp.xW inp.xUnit * ceilDiv inp.xUnit cacheLineCount) (inp.xw i) := by
  obtain ⟨hmode₁, hbf, hurb, htotal, hxH, -, hn, hptr, htable⟩ := mapGraph_inputs hgraph
  refine ⟨hmode₁.trans hmode, ?_, ?_, ?_, hxH, hn, hptr, ?_⟩
  · rw [hurb]
    simp only [Input.foldLines, hmode]
  · rw [hbf]
    simp only [Input.folds, hmode]
  · rw [htotal]
    simp only [Input.rowLines, Input.folds, Input.foldLines, hmode]
  · rw [htable]
    funext i
    simp only [Input.cells, Input.rowLines, Input.folds, Input.foldLines, hmode]

/-- The rows before the features are mapped. -/
theorem length_xToAddr_xCmp (hmode : inp.mode = .xCmp) (hunit : 1 ≤ inp.xUnit)
    (hgraph : mapGraph (transXW inp.xw (distribute inp)) = some g₁) (i : ℕ) :
    (g₁.xToAddr i).length = slices inp.xW inp.xUnit * g₁.archInfo.urb := by
  obtain ⟨-, hurb, -, -, -, -, -, htable⟩ := mapGraph_xCmp hmode hgraph
  rw [htable, hurb]
  exact length_transXCmpRow hunit _ _ _

/-- The layout of `X_CMP` is the one of all folds. -/
theorem mapFeatures_xCmp (hmode : inp.mode = .xCmp)
    (hgraph : mapGraph (transXW inp.xw (distribute inp)) = some g₁) :
    mapFeatures g₁ = mapFolds g₁.archInfo.bf g₁.dataInfo.xH g₁.archInfo.urb
      (g₁.archInfo.bf * g₁.archInfo.urb) ⟨g₁.xToAddr, g₁.archInfo.xwEleAddrStart⟩ := by
  obtain ⟨hmode₁, hurb, hbf, htotal, -⟩ := mapGraph_xCmp hmode hgraph
  unfold mapFeatures
  simp only [hmode₁, htotal, hbf, hurb]

/-- A row that is as long as `total_urb` has `bf` slices. -/
theorem folds_eq_of_isInPlace {g : Globals} (hmode : inp.mode = .xCmp) (hunit : 1 ≤ inp.xUnit)
    (hrow : 0 < inp.aH) (hmap : addressMapping (transXW inp.xw (distribute inp)) = some g)
    (hg : IsInPlace g) : ceilDiv inp.xW inp.xUnit = slices inp.xW inp.xUnit := by
  obtain ⟨g₁, s, hgraph, hfeat, rfl⟩ := addressMapping_spec hmap
  obtain ⟨-, hurb, hbf, htotal, hxH, -⟩ := mapGraph_xCmp hmode hgraph
  rw [mapFeatures_xCmp hmode hgraph] at hfeat
  have hlen := hg.length_eq 0 (by simpa only [hxH] using hrow)
  simp only [(mapFolds_inv hfeat).length_eq 0, length_xToAddr_xCmp hmode hunit hgraph, htotal,
    hurb] at hlen
  exact (Nat.eq_of_mul_eq_mul_right (ceilDiv_pos hunit (by decide)) hlen).symm

/-- Rows with a cell for every slot are mapped in place. -/
theorem exists_isInPlace (hmode : inp.mode = .xCmp) (hunit : 1 ≤ inp.xUnit)
    (hn : 1 ≤ inp.nOfEngine)
    (hgraph : mapGraph (transXW inp.xw (distribute inp)) = some g₁)
    (hrows : ∀ r < g₁.dataInfo.xH,
      (g₁.xToAddr r).length = g₁.archInfo.bf * g₁.archInfo.urb) :
    ∃ g, addressMapping (transXW inp.xw (distribute inp)) = some g ∧ IsInPlace g := by
  obtain ⟨-, hurb, hbf, htotal, -, hn₁, hptr, htable⟩ := mapGraph_xCmp hmode hgraph
  have hurb_pos : 0 < g₁.archInfo.urb := by rw [hurb]; exact ceilDiv_pos hunit (by decide)
  have htotal' : g₁.dataInfo.totalUrb = g₁.archInfo.bf * g₁.archInfo.urb := by
    rw [htotal, hbf, hurb]
  obtain ⟨s, hs, hplaced, haddr⟩ := mapFolds_placed g₁.archInfo.xwEleAddrStart hrows
  have hmap : addressMapping (transXW inp.xw (distribute inp)) = some { g₁ with
      archInfo := { g₁.archInfo with axwAddrStart := s.address }
      xToAddr := s.table } := by
    unfold addressMapping
    simp only [hgraph, mapFeatures_xCmp hmode hgraph, hs, Option.bind_eq_bind, Option.bind_some]
    rfl
  have hline := (mapGraph_spec hgraph).1.line_le_xwEle (by omega) hptr
  refine ⟨_, hmap, isInPlace_of_placed (T := g₁.xToAddr) hurb_pos ?_ htotal' ?_ ?_ ?_ haddr⟩
  · simp only [cacheLineByte] at hline ⊢
    omega
  · intro i hi
    simp only [(mapFolds_inv hs).length_eq, htotal']
    exact hrows i hi
  · intro i hi f hf
    have hroom : (f + 1) * g₁.archInfo.urb ≤ (g₁.xToAddr i).length := by
      rw [hrows i hi]
      exact Nat.mul_le_mul_right _ hf
    simp only [hurb, hbf] at hf ⊢
    rw [htable, hurb] at hroom
    rw [htable]
    exact transXCmpRow_slice (inp.xw i) hunit (hurb ▸ hurb_pos)
      (last_slice_width (by omega) _) hroom
  · intro i hi c hc
    exact hplaced.visited i c ⟨hi, hc⟩

/-- Given that the regions of the graph fit, the features are laid out in place
exactly when there is no row, or the `float` quotient rounds up to the exact number
of slices. -/
theorem isInPlace_iff (inp : Input) (hmode : inp.mode = .xCmp) (hunit : 1 ≤ inp.xUnit)
    (hn : 1 ≤ inp.nOfEngine) (g₁ : Globals)
    (hgraph : mapGraph (transXW inp.xw (distribute inp)) = some g₁) :
    (∃ g, addressMapping (transXW inp.xw (distribute inp)) = some g ∧ IsInPlace g) ↔
      inp.aH = 0 ∨ ceilDiv inp.xW inp.xUnit = (inp.xW + inp.xUnit - 1) / inp.xUnit := by
  obtain ⟨-, hurb, hbf, -, hxH, -⟩ := mapGraph_xCmp hmode hgraph
  constructor
  · rintro ⟨g, hmap, hg⟩
    rcases Nat.eq_zero_or_pos inp.aH with hzero | hpos
    · exact .inl hzero
    · exact .inr (folds_eq_of_isInPlace hmode hunit hpos hmap hg)
  · intro hcond
    refine exists_isInPlace hmode hunit hn hgraph fun r hr => ?_
    rcases hcond with hzero | heq
    · omega
    · rw [length_xToAddr_xCmp hmode hunit hgraph, hbf, heq, slices]

theorem isInPlace_threeVertices :
    ∃ g, addressMapping (transXW Input.threeVertices.xw (distribute .threeVertices)) = some g ∧
      IsInPlace g := by
  obtain ⟨g, hg⟩ := preprocess_threeVertices
  obtain ⟨g', hmap, -⟩ := preprocess_spec hg
  obtain ⟨g₁, -, hgraph, -⟩ := addressMapping_spec hmap
  exact (isInPlace_iff .threeVertices rfl (by decide) (by decide) g₁ hgraph).mpr
    (.inr (ceilDiv_eq (by decide) (by decide)))

/-- More columns than a `float` can count, in slices of one element. -/
def Input.wideRows : Input := { Input.threeVertices with xW := 2 ^ 24 + 1, xUnit := 1 }

/-- `bf` is one short of the slices that the rows have. -/
theorem not_isInPlace_wideRows :
    (∃ g₁, mapGraph (transXW Input.wideRows.xw (distribute .wideRows)) = some g₁) ∧
      ¬ ∃ g, addressMapping (transXW Input.wideRows.xw (distribute .wideRows)) = some g ∧
        IsInPlace g := by
  constructor
  · exact mapGraph_input_isSome .wideRows size_threeVertices
  · rintro ⟨g, hmap, hg⟩
    have heq := folds_eq_of_isInPlace rfl (by decide) (by decide) hmap hg
    have hslices : slices Input.wideRows.xW Input.wideRows.xUnit = 2 ^ 24 + 1 := by
      simp [slices, Input.wideRows]
    rw [hslices] at heq
    have hfloat : ceilDiv Input.wideRows.xW Input.wideRows.xUnit = 2 ^ 24 :=
      ceilDiv_two_pow_add_one
    omega

end XCmp

end Sgcn

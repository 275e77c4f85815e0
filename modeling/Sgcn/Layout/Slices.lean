-- SUMMARY: The slices of an `X_CMP` row: which element counts towards which slice, and which line slots are marked present.
import Sgcn.Base.Rounds
import Sgcn.Model.Preprocessor

/-!
# Compressed slices

In mode `X_CMP` a row of features is cut into slices of `x_unit` elements, and
`TransXW` marks for each slice as many of its `urb` line slots as its bitmap and
its non-zero elements need. The loop over the elements is one-based: it never
looks at element 0, and it looks at one element behind the last.
-/

namespace Sgcn

variable {xUnit xW urb bf totalUrb : ℕ} {x : ℕ → ℤ}

/-! ## One flush -/

@[simp] theorem length_flushSlice (urb : ℕ) (count : ℤ) : (flushSlice urb count).length = urb := by
  induction urb generalizing count with
  | zero => rfl
  | succ urb ih => simp [flushSlice, ih]

theorem getElem_flushSlice {urb j : ℕ} (count : ℤ) (h : j < (flushSlice urb count).length) :
    (flushSlice urb count)[j] = if (cacheLineCount * j : ℤ) < count then 1 else 0 := by
  induction urb generalizing count j with
  | zero => simp at h
  | succ urb ih =>
    cases j with
    | zero => simp [flushSlice]
    | succ j =>
      simp only [flushSlice, List.getElem_cons_succ]
      rw [ih]
      simp only [cacheLineCount]
      push_cast
      exact if_congr (by omega) rfl rfl

/-! ## The element loop -/

/-- The non-zero elements among those at offsets `1, …, m` that lie in slice `s`. -/
def counted (xUnit : ℕ) (x : ℕ → ℤ) (m s : ℕ) : ℕ :=
  (List.range' 1 m).countP fun c => c / xUnit = s ∧ x c ≠ 0

theorem counted_succ (m s : ℕ) : counted xUnit x (m + 1) s =
    counted xUnit x m s + if (m + 1) / xUnit = s ∧ x (m + 1) ≠ 0 then 1 else 0 := by
  rw [counted, List.range'_1_concat, List.countP_append, Nat.add_comm 1 m, counted]
  simp [List.countP_cons]

theorem counted_eq_zero {m s : ℕ} (h : m / xUnit < s) : counted xUnit x m s = 0 := by
  rw [counted, List.countP_eq_zero]
  intro c hc
  have hle : c ≤ m := by have := List.mem_range'_1.mp hc; omega
  have := Nat.div_le_div_right (c := xUnit) hle
  simp only [decide_eq_true_eq, not_and]
  omega

/-- The loop after the elements up to offset `m`: the full slices have been
flushed, and `count` belongs to the slice of element `m`. -/
theorem transXCmp_loop (hunit : 0 < xUnit) {m : ℕ} (hm : m < xW) :
    (List.range' 1 m).foldl (transXCmpStep xUnit xW urb bf totalUrb x)
        ((ceilDiv xUnit 32 : ℤ), []) =
      ((ceilDiv xUnit 32 + counted xUnit x m (m / xUnit) : ℤ),
        (List.range (m / xUnit)).flatMap fun s =>
          flushSlice urb (ceilDiv xUnit 32 + counted xUnit x m s)) := by
  induction m with
  | zero => simp [counted]
  | succ m ih =>
    rw [List.range'_1_concat, List.foldl_append, ih (by omega), List.foldl_cons, List.foldl_nil,
      Nat.add_comm 1 m]
    have hend : m + 1 ≠ xW := hm.ne
    -- earlier slices do not change
    have hflushed : ∀ n ≤ (m + 1) / xUnit, (List.range n).flatMap (fun s =>
        flushSlice urb (ceilDiv xUnit 32 + counted xUnit x (m + 1) s)) =
          (List.range n).flatMap fun s =>
            flushSlice urb (ceilDiv xUnit 32 + counted xUnit x m s) := by
      intro n hn
      refine List.flatMap_congr fun s hs => ?_
      have hlt := List.mem_range.mp hs
      rw [counted_succ, if_neg (by omega), Nat.add_zero]
    rw [hflushed _ le_rfl]
    unfold transXCmpStep
    rcases Rounds.succ_cases hunit m with ⟨hin, hdiv, hmod⟩ | ⟨hlast, hdiv, hmod⟩
    · simp only [hmod, hend, or_false, Nat.add_eq_zero_iff, Nat.one_ne_zero, and_false, if_false]
      rw [hdiv, counted_succ]
      by_cases hx : x (m + 1) = 0
      · simp [hx]
      · simp [hx, hdiv, add_assoc]
    · simp only [hmod, hend, true_or, if_true, if_false]
      rw [hdiv, counted_succ, counted_eq_zero (Nat.lt_succ_self _), List.range_succ,
        List.flatMap_append, List.flatMap_singleton]
      by_cases hx : x (m + 1) = 0
      · simp [hx]
      · simp [hx, hdiv]

/-- A row is one slice after the other, each flushed with its bitmap words and the
elements counted for it. -/
theorem transXCmpRow_slices (hunit : 0 < xUnit) (hlast : totalUrb - (bf - 1) * urb = urb)
    (hpos : 0 < xW) : transXCmpRow xUnit xW urb bf totalUrb x =
      (List.range ((xW - 1) / xUnit + 1)).flatMap fun s =>
        flushSlice urb (ceilDiv xUnit 32 + counted xUnit x (xW - 1) s) := by
  obtain ⟨m, rfl⟩ : ∃ m, xW = m + 1 := ⟨xW - 1, by omega⟩
  rw [transXCmpRow, List.range'_1_concat, List.foldl_append, transXCmp_loop hunit m.lt_succ_self,
    List.foldl_cons, List.foldl_nil, Nat.add_comm 1 m, Nat.add_sub_cancel, List.range_succ,
    List.flatMap_append, List.flatMap_singleton]
  unfold transXCmpStep
  simp only [or_true, if_true, hlast]
  split <;> rfl

/-! ## The elements that are read -/

/-- One iteration as far as the reads go: how many slices have been flushed, and
each element that was tested with the slice whose count it enters. -/
def readStep (xUnit xW : ℕ) (s : ℕ × List (ℕ × ℕ)) (j : ℕ) : ℕ × List (ℕ × ℕ) :=
  let slice := if j % xUnit = 0 ∨ j = xW then s.1 + 1 else s.1
  (slice, s.2 ++ [(j, slice)])

/-- The tests `xw[i][j] != 0` of one row, in order. -/
def xCmpReads (xUnit xW : ℕ) : List (ℕ × ℕ) :=
  ((List.range' 1 xW).foldl (readStep xUnit xW) (0, [])).2

theorem readStep_loop (hunit : 0 < xUnit) {m : ℕ} (hm : m < xW) :
    (List.range' 1 m).foldl (readStep xUnit xW) (0, []) =
      (m / xUnit, (List.range' 1 m).map fun j => (j, j / xUnit)) := by
  induction m with
  | zero => simp
  | succ m ih =>
    rw [List.range'_1_concat, List.foldl_append, ih (by omega), List.foldl_cons, List.foldl_nil,
      Nat.add_comm 1 m]
    have hend : m + 1 ≠ xW := hm.ne
    have hslice : (if (m + 1) % xUnit = 0 ∨ m + 1 = xW then m / xUnit + 1 else m / xUnit) =
        (m + 1) / xUnit := by
      rcases Rounds.succ_cases hunit m with ⟨-, hdiv, hmod⟩ | ⟨-, hdiv, hmod⟩
      · rw [if_neg (by omega), hdiv]
      · rw [if_pos (.inl hmod), hdiv]
    simp only [readStep, hslice, List.map_append, List.map_singleton]

/-- Element 0 is missing, and the last test reads behind the row. -/
theorem xCmpReads_eq (hunit : 0 < xUnit) (hpos : 0 < xW) : xCmpReads xUnit xW =
    (List.range' 1 (xW - 1)).map (fun j => (j, j / xUnit)) ++ [(xW, (xW - 1) / xUnit + 1)] := by
  obtain ⟨m, rfl⟩ : ∃ m, xW = m + 1 := ⟨xW - 1, by omega⟩
  rw [xCmpReads, List.range'_1_concat, List.foldl_append, readStep_loop hunit m.lt_succ_self,
    List.foldl_cons, List.foldl_nil, Nat.add_comm 1 m, Nat.add_sub_cancel]
  simp [readStep]

/-- The cells of a row are determined by the tests: a slice is flushed with its
bitmap words and the non-zero elements that were tested for it. -/
theorem transXCmpRow_reads (hunit : 0 < xUnit) (hlast : totalUrb - (bf - 1) * urb = urb)
    (hpos : 0 < xW) : transXCmpRow xUnit xW urb bf totalUrb x =
      (List.range ((xW - 1) / xUnit + 1)).flatMap fun s =>
        flushSlice urb (ceilDiv xUnit 32 +
          (xCmpReads xUnit xW).countP fun r => r.2 = s ∧ x r.1 ≠ 0) := by
  rw [transXCmpRow_slices hunit hlast hpos]
  refine List.flatMap_congr fun s hs => ?_
  have hlt := List.mem_range.mp hs
  have hcount : (xCmpReads xUnit xW).countP (fun r => r.2 = s ∧ x r.1 ≠ 0) =
      counted xUnit x (xW - 1) s := by
    rw [xCmpReads_eq hunit hpos, List.countP_append, List.countP_map]
    simp only [List.countP_singleton]
    rw [if_neg (by simp only [decide_eq_true_eq]; omega)]
    rfl
  rw [hcount]

/-! ## What the slices should hold -/

/-- The non-zero elements of slice `s`. -/
def sliceNonzeros (xUnit xW : ℕ) (x : ℕ → ℤ) (s : ℕ) : ℕ :=
  (List.range xW).countP fun c => (s * xUnit ≤ c ∧ c < (s + 1) * xUnit) ∧ x c ≠ 0

/-- The loop counts the non-zero elements of a slice, element 0 excepted. -/
theorem sliceNonzeros_eq (hunit : 0 < xUnit) (hpos : 0 < xW) (s : ℕ) :
    sliceNonzeros xUnit xW x s =
      counted xUnit x (xW - 1) s + if s = 0 ∧ x 0 ≠ 0 then 1 else 0 := by
  obtain ⟨m, rfl⟩ : ∃ m, xW = m + 1 := ⟨xW - 1, by omega⟩
  have hslice (c : ℕ) : (s * xUnit ≤ c ∧ c < (s + 1) * xUnit) ↔ c / xUnit = s := by
    rw [Nat.div_eq_iff hunit, Nat.add_mul, Nat.one_mul]
    omega
  rw [sliceNonzeros, Nat.add_sub_cancel, List.range_eq_range', List.range'_succ,
    List.countP_cons, counted]
  simp only [hslice, Nat.zero_div, eq_comm (a := 0), decide_eq_true_eq, Nat.zero_add]

/-- Slice `s` of row `i`: the lines that its bitmap and its non-zero elements need
are marked, up to the `urb` slots there are, and no others. -/
def SliceMarked (g : Globals) (xw : ℕ → ℕ → ℤ) (i s : ℕ) : Prop :=
  ∀ k < g.archInfo.urb, (g.xToAddr i)[s * g.archInfo.urb + k]? =
    some (if k < min g.archInfo.urb (((g.archInfo.xUnit + 31) / 32 +
      sliceNonzeros g.archInfo.xUnit g.dataInfo.xW (xw i) s + 15) / 16) then 1 else 0)

/-- What `TransXW` should leave in mode `X_CMP`. -/
structure CompressedSlices (g : Globals) (xw : ℕ → ℕ → ℤ) : Prop where
  marked : ∀ i < g.dataInfo.xH, ∀ s < g.archInfo.bf, SliceMarked g xw i s
  /-- Every element is counted once, in its own slice. -/
  counted : ∀ i < g.dataInfo.xH, ∀ c < g.dataInfo.xW,
    ((xCmpReads g.archInfo.xUnit g.dataInfo.xW).filter (·.1 = c)).map (·.2) =
      [c / g.archInfo.xUnit]
  /-- No element outside the row is read. -/
  inside : ∀ i < g.dataInfo.xH, ∀ r ∈ xCmpReads g.archInfo.xUnit g.dataInfo.xW,
    r.1 < g.dataInfo.xW

/-- What `TransXW` leaves in mode `X_CMP`. -/
theorem transXW_xCmp {g : Globals} (xw : ℕ → ℕ → ℤ) (hmode : g.archInfo.mode = .xCmp) :
    transXW xw g =
      { g with
        archInfo := { g.archInfo with
          urb := ceilDiv g.archInfo.xUnit cacheLineCount
          bf := ceilDiv g.dataInfo.xW g.archInfo.xUnit }
        dataInfo := { g.dataInfo with
          totalUrb := ceilDiv g.dataInfo.xW g.archInfo.xUnit *
            ceilDiv g.archInfo.xUnit cacheLineCount }
        xToAddr := fun i => transXCmpRow g.archInfo.xUnit g.dataInfo.xW
          (ceilDiv g.archInfo.xUnit cacheLineCount) (ceilDiv g.dataInfo.xW g.archInfo.xUnit)
          (ceilDiv g.dataInfo.xW g.archInfo.xUnit * ceilDiv g.archInfo.xUnit cacheLineCount)
          (xw i)
        dataIndex := fun i =>
          { g.dataIndex i with
            totalWrite := int32 (((g.rowPtr i).length - 1 - (g.dataIndex i).zeroRow) *
              (ceilDiv g.dataInfo.xW g.archInfo.xUnit *
                ceilDiv g.archInfo.xUnit cacheLineCount) : ℕ) } } := by
  unfold transXW
  rw [hmode]

/-- The last slice is as wide as the others. -/
theorem last_slice_width {bf : ℕ} (hbf : 0 < bf) (urb : ℕ) : bf * urb - (bf - 1) * urb = urb := by
  rw [← Nat.sub_mul, show bf - (bf - 1) = 1 by omega, Nat.one_mul]

/-- Slot `k` of slice `s` is marked when the elements counted for the slice reach it. -/
theorem getElem?_transXCmpRow (hunit : 0 < xUnit) (hlast : totalUrb - (bf - 1) * urb = urb)
    (hpos : 0 < xW) {s k : ℕ} (hs : s ≤ (xW - 1) / xUnit) (hk : k < urb) :
    (transXCmpRow xUnit xW urb bf totalUrb x)[s * urb + k]? =
      some (if 16 * k < ceilDiv xUnit 32 + counted xUnit x (xW - 1) s then 1 else 0) := by
  rw [transXCmpRow_slices hunit hlast hpos,
    Rounds.getElem?_flatMap_range (fun _ _ => length_flushSlice _ _) (Nat.lt_succ_of_le hs) hk,
    List.getElem?_eq_getElem (by simpa using hk), getElem_flushSlice]
  simp only [cacheLineCount, Option.some.injEq]
  exact if_congr (by omega) rfl rfl

section Claim

variable {g : Globals} {xw : ℕ → ℕ → ℤ}

/-- A slice is marked as it should be unless it is the first one, its element 0 is
not zero, and it is this element that needs a further line. -/
theorem sliceMarked_transXW_iff (hmode : g.archInfo.mode = .xCmp) (hunit : 1 ≤ g.archInfo.xUnit)
    (hunitSize : g.archInfo.xUnit ≤ 2 ^ 24) (hsize : g.dataInfo.xW ≤ 2 ^ 24) {i s : ℕ}
    (hs : s < (transXW xw g).archInfo.bf) :
    SliceMarked (transXW xw g) xw i s ↔
      ¬ (s = 0 ∧ xw i 0 ≠ 0 ∧
        16 ∣ (g.archInfo.xUnit + 31) / 32 +
          sliceNonzeros g.archInfo.xUnit g.dataInfo.xW (xw i) s - 1 ∧
        ((g.archInfo.xUnit + 31) / 32 +
          sliceNonzeros g.archInfo.xUnit g.dataInfo.xW (xw i) s - 1) / 16 <
            (transXW xw g).archInfo.urb) := by
  rw [transXW_xCmp xw hmode] at hs ⊢
  unfold SliceMarked
  simp only at hs ⊢
  have hpos : 0 < g.dataInfo.xW := by
    rcases Nat.eq_zero_or_pos g.dataInfo.xW with h | h
    · simp [h] at hs
    · exact h
  have hbf : 0 < ceilDiv g.dataInfo.xW g.archInfo.xUnit := ceilDiv_pos hpos hunit
  have hlast := last_slice_width hbf (ceilDiv g.archInfo.xUnit cacheLineCount)
  have hs' : s ≤ (g.dataInfo.xW - 1) / g.archInfo.xUnit := by
    rw [ceilDiv_eq hsize hunit,
      show g.dataInfo.xW + g.archInfo.xUnit - 1 = g.dataInfo.xW - 1 + g.archInfo.xUnit by omega,
      Nat.add_div_right _ hunit] at hs
    exact Nat.le_of_lt_succ hs
  have hhead : ceilDiv g.archInfo.xUnit 32 = (g.archInfo.xUnit + 31) / 32 :=
    ceilDiv_eq hunitSize (by decide)
  have hhead_pos : 0 < (g.archInfo.xUnit + 31) / 32 := by omega
  have hcell (k : ℕ) (hk : k < ceilDiv g.archInfo.xUnit cacheLineCount) :=
    getElem?_transXCmpRow (x := xw i) hunit hlast hpos hs' hk
  rw [hhead] at hcell
  have hnz := sliceNonzeros_eq (x := xw i) hunit hpos s
  generalize (g.archInfo.xUnit + 31) / 32 = head at *
  generalize sliceNonzeros g.archInfo.xUnit g.dataInfo.xW (xw i) s = nz at *
  generalize counted g.archInfo.xUnit (xw i) (g.dataInfo.xW - 1) s = cnt at *
  generalize ceilDiv g.archInfo.xUnit cacheLineCount = urb at *
  constructor
  · rintro h ⟨hfirst, hx, hdvd, hlt⟩
    rw [if_pos ⟨hfirst, hx⟩] at hnz
    have hmark := (hcell _ hlt).symm.trans (h _ hlt)
    rw [if_neg (by omega), if_pos (by omega)] at hmark
    simp at hmark
  · intro hne k hk
    rw [hcell k hk]
    congr 1
    refine if_congr ?_ rfl rfl
    by_cases hfirst : s = 0 ∧ xw i 0 ≠ 0
    · rw [if_pos hfirst] at hnz
      have hroom : ¬ (16 ∣ head + nz - 1 ∧ (head + nz - 1) / 16 < urb) :=
        fun h => hne ⟨hfirst.1, hfirst.2, h⟩
      omega
    · rw [if_neg hfirst] at hnz
      omega

/-- The element behind the row is always read. -/
theorem exists_read_outside (hunit : 0 < xUnit) (hpos : 0 < xW) :
    ∃ r ∈ xCmpReads xUnit xW, r.1 = xW := by
  rw [xCmpReads_eq hunit hpos]
  exact ⟨(xW, (xW - 1) / xUnit + 1), by simp, rfl⟩

/-- A matrix with an element is never compressed as it should be, since the loop
reads behind every row. As for the marks alone, a slice has them right unless it
is the first one and needs a further line for a non-zero element 0. -/
theorem compressedSlices_iff (g : Globals) (xw : ℕ → ℕ → ℤ) (hmode : g.archInfo.mode = .xCmp)
    (hunit : 1 ≤ g.archInfo.xUnit) :
    (CompressedSlices (transXW xw g) xw ↔ g.dataInfo.xH = 0 ∨ g.dataInfo.xW = 0) ∧
      (g.archInfo.xUnit ≤ 2 ^ 24 → g.dataInfo.xW ≤ 2 ^ 24 →
        ∀ i s, s < (transXW xw g).archInfo.bf →
          (SliceMarked (transXW xw g) xw i s ↔
            ¬ (s = 0 ∧ xw i 0 ≠ 0 ∧
              16 ∣ (g.archInfo.xUnit + 31) / 32 +
                sliceNonzeros g.archInfo.xUnit g.dataInfo.xW (xw i) s - 1 ∧
              ((g.archInfo.xUnit + 31) / 32 +
                sliceNonzeros g.archInfo.xUnit g.dataInfo.xW (xw i) s - 1) / 16 <
                  (transXW xw g).archInfo.urb))) := by
  refine ⟨?_, fun hunitSize hsize i s hs => sliceMarked_transXW_iff hmode hunit hunitSize hsize hs⟩
  constructor
  · intro h
    by_contra hne
    obtain ⟨hrow, hcol⟩ : 0 < g.dataInfo.xH ∧ 0 < g.dataInfo.xW := by omega
    have hinside := h.inside
    rw [transXW_xCmp xw hmode] at hinside
    obtain ⟨r, hr, hout⟩ := exists_read_outside hunit hcol
    exact absurd (hinside 0 hrow r hr) (by simp [hout])
  · intro h
    rw [transXW_xCmp xw hmode]
    rcases h with hrow | hcol
    · refine ⟨?_, ?_, ?_⟩ <;> simp [hrow]
    · refine ⟨?_, ?_, ?_⟩ <;> simp [hcol, xCmpReads]

end Claim

/-- Sixteen ones fill the only slot of their slice with or without element 0. -/
theorem sliceMarked_threeVertices :
    SliceMarked (transXW Input.threeVertices.xw (readData .threeVertices))
      Input.threeVertices.xw 0 0 := by
  have hbf : (transXW Input.threeVertices.xw (readData .threeVertices)).archInfo.bf = 2 :=
    ceilDiv_eq (by decide) (by decide)
  have hurb : (transXW Input.threeVertices.xw (readData .threeVertices)).archInfo.urb = 1 :=
    ceilDiv_eq (by decide) (by decide)
  refine ((compressedSlices_iff (readData .threeVertices) Input.threeVertices.xw rfl
    (by decide)).2 (by decide) (by decide) 0 0 (by omega)).mpr ?_
  rw [hurb]
  decide

/-- Sixteen non-zero elements and a bitmap word need two lines. -/
def Input.sixteenOnes : Input :=
  { Input.threeVertices with
    xUnit := 32
    xw := fun _ c => if c < 16 then 1 else 0 }

/-- The loop misses element 0 and marks one line. -/
theorem not_compressedSlices_sixteenOnes :
    ¬ CompressedSlices (transXW Input.sixteenOnes.xw (readData .sixteenOnes))
      Input.sixteenOnes.xw := by
  intro h
  have hbf : (transXW Input.sixteenOnes.xw (readData .sixteenOnes)).archInfo.bf = 1 :=
    ceilDiv_eq (by decide) (by decide)
  have hurb : (transXW Input.sixteenOnes.xw (readData .sixteenOnes)).archInfo.urb = 2 :=
    ceilDiv_eq (by decide) (by decide)
  refine (sliceMarked_transXW_iff rfl (by decide) (by decide) (by decide) (by omega)).mp
    (h.marked 0 (by decide) 0 (by omega)) ?_
  rw [hurb]
  decide

end Sgcn

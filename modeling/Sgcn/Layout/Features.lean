-- SUMMARY: The feature layout of `X_CMP` and `MAT`: which cells get an address, and the slices of the `X_CMP` table.
import Sgcn.Layout.Regions
import Sgcn.Layout.Slices

/-!
# Feature tables

`X_CMP` and `MAT` hand out addresses fold by fold and row by row. A cell that
`TransXW` marked present takes the running address (`MapInv`). In `X_CMP` the
present cells of a slice come first (`FeatureTable`).
-/

namespace Sgcn

open Loop

variable {base : ℕ} {T : ℕ → List ℕ} {P Q : ℕ → ℕ → Prop} {s s' : XMap}

/-! ## The running address -/

/-- The cells in `P` that `T` marks present hold line addresses from `base` up to
the running address; all other cells are as in `T`. -/
structure MapInv (base : ℕ) (T : ℕ → List ℕ) (P : ℕ → ℕ → Prop) (s : XMap) : Prop where
  base_le : base ≤ s.address
  aligned : cacheLineByte ∣ s.address - base
  length_eq : ∀ r, (s.table r).length = (T r).length
  mapped : ∀ r c, P r c → (T r)[c]? = some 1 →
    ∃ a, (s.table r)[c]? = some a ∧ base ≤ a ∧ a < s.address ∧ cacheLineByte ∣ a - base
  kept : ∀ r c, ¬ (P r c ∧ (T r)[c]? = some 1) → (s.table r)[c]? = (T r)[c]?

theorem MapInv.init (base : ℕ) (T : ℕ → List ℕ) : MapInv base T (fun _ _ => False) ⟨T, base⟩ where
  base_le := le_rfl
  aligned := by simp
  length_eq := fun _ => rfl
  mapped := fun _ _ h => h.elim
  kept := fun _ _ _ => rfl

theorem MapInv.congr (h : MapInv base T P s) (hPQ : ∀ r c, P r c ↔ Q r c) : MapInv base T Q s := by
  obtain rfl : P = Q := by
    funext r c
    exact propext (hPQ r c)
  exact h

theorem length_update_set (t : ℕ → List ℕ) (row col a v r : ℕ) :
    ((if v = 1 then Function.update t row ((t row).set col a) else t) r).length =
      (t r).length := by
  split
  · by_cases hr : r = row
    · subst hr
      rw [Function.update_self, List.length_set]
    · rw [Function.update_of_ne hr]
  · rfl

/-- A marked cell takes the address, an absent one stays, and so does every other. -/
theorem getElem?_markCell {t : ℕ → List ℕ} {row col v : ℕ} (hget : (t row)[col]? = some v)
    (a r c : ℕ) :
    ((if v = 1 then Function.update t row ((t row).set col a) else t) r)[c]? =
      if r = row ∧ c = col then some (if v = 1 then a else v) else (t r)[c]? := by
  have hlt : col < (t row).length := (List.getElem?_eq_some_iff.mp hget).1
  by_cases hr : r = row
  · subst hr
    by_cases hc : c = col
    · subst hc
      by_cases hv : v = 1
      · simp [hv, hlt]
      · simp [hv, hget]
    · split
      · simp [hc, List.getElem?_set_ne (Ne.symm hc)]
      · simp [hc]
  · split
    · simp [hr]
    · simp [hr]

/-- One cell: it takes the running address if it is marked, and the address moves
on in any case. -/
theorem MapInv.step (h : MapInv base T P s) {row col v : ℕ} (hfresh : ¬ P row col)
    (hget : (s.table row)[col]? = some v) :
    MapInv base T (fun r c => P r c ∨ r = row ∧ c = col)
      ⟨if v = 1 then Function.update s.table row ((s.table row).set col s.address) else s.table,
        s.address + cacheLineByte⟩ := by
  have hT : (T row)[col]? = some v := by rw [← h.kept row col (fun hP => hfresh hP.1), hget]
  have hbase := h.base_le
  refine ⟨by simp only; omega, ?_, ?_, ?_, ?_⟩
  · have halign := h.aligned
    simp only [cacheLineByte] at halign ⊢
    omega
  · intro r
    rw [← h.length_eq r]
    exact length_update_set s.table row col s.address v r
  · intro r c hP hone
    by_cases hrc : r = row ∧ c = col
    · obtain ⟨rfl, rfl⟩ := hrc
      have hv : v = 1 := by simpa [hT] using hone
      refine ⟨s.address, ?_, hbase, by simp, h.aligned⟩
      rw [getElem?_markCell hget, if_pos ⟨rfl, rfl⟩, if_pos hv]
    · obtain ⟨a, ha, hlo, hhi, hdvd⟩ := h.mapped r c (hP.resolve_right hrc) hone
      refine ⟨a, ?_, hlo, by simp only; omega, hdvd⟩
      rw [getElem?_markCell hget, if_neg hrc, ha]
  · intro r c hn
    rw [getElem?_markCell hget]
    split
    · next hrc =>
      obtain ⟨rfl, rfl⟩ := hrc
      rw [if_neg fun hv => hn ⟨.inr ⟨rfl, rfl⟩, by rw [hT, hv]⟩, hT]
    · exact h.kept r c fun ⟨hP, hone⟩ => hn ⟨.inl hP, hone⟩

/-! ## One slice, one fold, all folds -/

/-- The slots that `left` iterations from slot `col` on go through. -/
def slotRange (totalUrb col left c : ℕ) : Prop :=
  col ≤ c ∧ c < col + left ∧ (c < totalUrb ∨ totalUrb < col)

/-- A slot and those behind it. -/
theorem or_slot_iff {p q q' : Prop} {r row c col : ℕ} (h : c = col ∨ q ↔ q') :
    ((p ∨ r = row ∧ c = col) ∨ r = row ∧ q) ↔ p ∨ r = row ∧ q' := by
  rw [or_assoc, ← and_or_left, h]

theorem mapSlots_inv {totalUrb row : ℕ} (left col : ℕ) (h : MapInv base T P s)
    (hfresh : ∀ c, col ≤ c → ¬ P row c) (hmap : mapSlots totalUrb row left col s = some s') :
    MapInv base T (fun r c => P r c ∨ r = row ∧ slotRange totalUrb col left c) s' := by
  induction left generalizing col s P with
  | zero =>
    obtain rfl : s = s' := by simpa [mapSlots] using hmap
    refine h.congr fun r c => ?_
    simp only [slotRange]
    constructor
    · exact .inl
    · rintro (hP | ⟨-, hr⟩)
      · exact hP
      · omega
  | succ left ih =>
    rw [mapSlots] at hmap
    split at hmap
    · next hcol =>
      cases hmap
      refine h.congr fun r c => ?_
      simp only [slotRange]
      constructor
      · exact .inl
      · rintro (hP | ⟨-, hr⟩)
        · exact hP
        · omega
    · next hcol =>
      split at hmap
      · cases hmap
      · next v hget =>
        have hstep := h.step (hfresh col le_rfl) hget
        have hrest := ih (col + 1) hstep (fun c hc hPc => by
          rcases hPc with hP | ⟨-, rfl⟩
          · exact hfresh c (by omega) hP
          · omega) hmap
        refine hrest.congr fun r c => ?_
        simp only [slotRange]
        exact or_slot_iff (by omega)

/-- The slots that the first `n` folds go through. -/
def foldRange (urb totalUrb n c : ℕ) : Prop := ∃ f < n, slotRange totalUrb (f * urb) urb c

theorem foldRange_succ {urb totalUrb n c : ℕ} :
    foldRange urb totalUrb (n + 1) c ↔
      foldRange urb totalUrb n c ∨ slotRange totalUrb (n * urb) urb c := by
  unfold foldRange
  constructor
  · rintro ⟨f, hf, hr⟩
    rcases Nat.lt_succ_iff_lt_or_eq.mp hf with hlt | rfl
    · exact .inl ⟨f, hlt, hr⟩
    · exact .inr hr
  · rintro (⟨f, hf, hr⟩ | hr)
    · exact ⟨f, Nat.lt_succ_of_lt hf, hr⟩
    · exact ⟨n, n.lt_succ_self, hr⟩

/-- Later folds touch later slots. -/
theorem not_foldRange {urb totalUrb n c : ℕ} (h : n * urb ≤ c) : ¬ foldRange urb totalUrb n c := by
  rintro ⟨f, hf, -, hlt, -⟩
  have := Nat.mul_le_mul_right urb (Nat.succ_le_of_lt hf)
  rw [Nat.succ_mul] at this
  omega

theorem mapFolds_inv {bf xH urb totalUrb : ℕ}
    (hmap : mapFolds bf xH urb totalUrb ⟨T, base⟩ = some s) :
    MapInv base T (fun r c => r < xH ∧ foldRange urb totalUrb bf c) s := by
  refine forUpto_inv (fun i t => MapInv base T (fun r c => r < xH ∧ foldRange urb totalUrb i c) t)
    hmap ((MapInv.init base T).congr fun r c => ?_) ?_
  · simp [foldRange]
  · intro i t t' _ ht hrows
    -- the rows of one fold
    have key := forUpto_inv (fun j u => MapInv base T (fun r c =>
        (r < xH ∧ foldRange urb totalUrb i c) ∨ r < j ∧ slotRange totalUrb (i * urb) urb c) u)
      hrows (ht.congr fun r c => by simp) ?_
    · refine key.congr fun r c => ?_
      rw [foldRange_succ]
      tauto
    · intro j u u' _ hu hslots
      refine (mapSlots_inv urb (i * urb) hu ?_ hslots).congr fun r c => ?_
      · rintro c hc (⟨-, hf⟩ | ⟨hlt, -⟩)
        · exact not_foldRange hc hf
        · omega
      · rw [or_assoc, lt_succ_and_iff (q := fun _ => slotRange totalUrb (i * urb) urb c)]

/-! ## The cells that are looked at -/

/-- The columns that `left` iterations from slot `col` on look at, in order. -/
def slotAccesses (totalUrb : ℕ) : ℕ → ℕ → List ℕ
  | 0, _ => []
  | left + 1, col => if col = totalUrb then [] else col :: slotAccesses totalUrb left (col + 1)

theorem mem_slotAccesses {totalUrb left col c : ℕ} :
    c ∈ slotAccesses totalUrb left col ↔ slotRange totalUrb col left c := by
  induction left generalizing col with
  | zero => simp only [slotAccesses, List.not_mem_nil, slotRange, false_iff]; omega
  | succ left ih =>
    rw [slotAccesses]
    split
    · simp only [List.not_mem_nil, slotRange, false_iff]
      omega
    · rw [List.mem_cons, ih]
      simp only [slotRange]
      omega

/-- A loop that starts up to the end of the row stops there. -/
theorem slotAccesses_of_le {totalUrb left col : ℕ} (h : col ≤ totalUrb) :
    slotAccesses totalUrb left col = List.range' col (min left (totalUrb - col)) := by
  induction left generalizing col with
  | zero => simp [slotAccesses]
  | succ left ih =>
    rw [slotAccesses]
    split
    · next heq => simp [heq]
    · rw [ih (by omega), show min (left + 1) (totalUrb - col) =
        min left (totalUrb - (col + 1)) + 1 by omega, List.range'_succ]

/-- The loop keeps the lengths of the rows, and is defined exactly when the row has all
the cells that it looks at. -/
theorem mapSlots_length {totalUrb row : ℕ} (left col : ℕ)
    (hmap : mapSlots totalUrb row left col s = some s') (r : ℕ) :
    (s'.table r).length = (s.table r).length := by
  induction left generalizing col s with
  | zero =>
    obtain rfl : s = s' := by simpa [mapSlots] using hmap
    rfl
  | succ left ih =>
    rw [mapSlots] at hmap
    split at hmap
    · cases hmap
      rfl
    · split at hmap
      · cases hmap
      · next v hget => exact (ih (col + 1) hmap).trans (length_update_set s.table row col _ v r)

theorem mapSlots_isSome_iff {totalUrb row : ℕ} (left col : ℕ) (s : XMap) :
    (∃ s', mapSlots totalUrb row left col s = some s') ↔
      ∀ c ∈ slotAccesses totalUrb left col, c < (s.table row).length := by
  induction left generalizing col s with
  | zero => simp [mapSlots, slotAccesses]
  | succ left ih =>
    rw [mapSlots, slotAccesses]
    split
    · simp
    · cases hget : (s.table row)[col]? with
      | none =>
        have hle : (s.table row).length ≤ col := by simpa using hget
        refine iff_of_false (by simp) fun h => ?_
        have := h col List.mem_cons_self
        omega
      | some v =>
        have hlt := (List.getElem?_eq_some_iff.mp hget).1
        simp only [List.forall_mem_cons]
        rw [ih, length_update_set s.table row col s.address v row]
        exact (and_iff_right hlt).symm

theorem mapFolds_isSome_iff {bf xH urb totalUrb : ℕ} (base : ℕ) (T : ℕ → List ℕ) :
    (∃ s, mapFolds bf xH urb totalUrb ⟨T, base⟩ = some s) ↔
      ∀ f < bf, ∀ r < xH, ∀ c ∈ slotAccesses totalUrb urb (f * urb), c < (T r).length := by
  constructor
  · rintro ⟨s, hmap⟩
    refine (forUpto_inv (fun i (t : XMap) => (∀ r, (t.table r).length = (T r).length) ∧
      ∀ f < i, ∀ r < xH, ∀ c ∈ slotAccesses totalUrb urb (f * urb), c < (T r).length)
      hmap ⟨fun _ => rfl, by simp⟩ ?_).2
    rintro i t t' - ⟨hlen, hfolds⟩ hrows
    obtain ⟨hlen', hrow⟩ := forUpto_inv (fun j (u : XMap) =>
      (∀ r, (u.table r).length = (T r).length) ∧
        ∀ r < j, ∀ c ∈ slotAccesses totalUrb urb (i * urb), c < (T r).length)
      hrows ⟨hlen, by simp⟩ fun j u u' _ hu hslots => by
        refine ⟨fun r => (mapSlots_length urb _ hslots r).trans (hu.1 r), fun r hr => ?_⟩
        rcases Nat.lt_succ_iff_lt_or_eq.mp hr with hlt | rfl
        · exact hu.2 r hlt
        · rw [← hu.1 r]
          exact (mapSlots_isSome_iff urb _ u).mp ⟨u', hslots⟩
    refine ⟨hlen', fun f hf => ?_⟩
    rcases Nat.lt_succ_iff_lt_or_eq.mp hf with hlt | rfl
    · exact hfolds f hlt
    · exact hrow
  · intro hacc
    refine (forUpto_isSome (fun _ (t : XMap) => ∀ r, (t.table r).length = (T r).length)
      (fun _ => rfl) ?_).imp fun _ h => h.1
    intro i t hi ht
    refine forUpto_isSome (fun _ (u : XMap) => ∀ r, (u.table r).length = (T r).length) ht ?_
    intro j u hj hu
    obtain ⟨u', hu'⟩ := (mapSlots_isSome_iff urb (i * urb) u).mpr
      (by rw [hu j]; exact hacc i hi j hj)
    exact ⟨u', hu', fun r => (mapSlots_length urb _ hu' r).trans (hu r)⟩

/-- The layout is defined when every row has a cell for every slot. -/
theorem mapFolds_isSome {bf xH urb totalUrb : ℕ}
    (hrows : ∀ r < xH, bf * urb ≤ (T r).length) :
    ∃ s, mapFolds bf xH urb totalUrb ⟨T, base⟩ = some s := by
  refine (mapFolds_isSome_iff base T).mpr fun f hf r hr c hc => ?_
  have hmul := Nat.mul_le_mul_right urb (Nat.succ_le_of_lt hf)
  rw [Nat.succ_mul] at hmul
  have := (mem_slotAccesses.mp hc).2.1
  have := hrows r hr
  omega

/-! ## The slices of an `X_CMP` row -/

/-- How many slices have been flushed before offset `m + 1`. -/
def flushes (xUnit xW m : ℕ) : ℕ := if m = xW then (xW + xUnit - 1) / xUnit else m / xUnit

/-- A row of the `X_CMP` table is one slice after the other, each flushed with a
positive count. -/
theorem transXCmpRow_eq {xUnit urb bf totalUrb : ℕ} (xW : ℕ) (x : ℕ → ℤ) (hunit : 0 < xUnit)
    (hlast : totalUrb - (bf - 1) * urb = urb) :
    ∃ counts : List ℤ, counts.length = flushes xUnit xW xW ∧ (∀ c ∈ counts, 0 < c) ∧
      transXCmpRow xUnit xW urb bf totalUrb x = (counts.map (flushSlice urb)).flatten := by
  have hpos : 0 < (ceilDiv xUnit 32 : ℤ) := by exact_mod_cast ceilDiv_pos hunit (by decide)
  rcases Nat.eq_zero_or_pos xW with rfl | hxW
  · refine ⟨[], ?_, by simp, rfl⟩
    rw [flushes, if_pos rfl, Nat.zero_add, Nat.div_eq_of_lt (by omega)]
    rfl
  · refine ⟨(List.range ((xW - 1) / xUnit + 1)).map fun s =>
      ceilDiv xUnit 32 + counted xUnit x (xW - 1) s, ?_, ?_, ?_⟩
    · rw [flushes, if_pos rfl, show xW + xUnit - 1 = xW - 1 + xUnit by omega,
        Nat.add_div_right _ hunit]
      simp
    · intro c hc
      obtain ⟨s, -, rfl⟩ := List.mem_map.mp hc
      omega
    · rw [transXCmpRow_slices hunit hlast hxW, List.map_map]
      rfl

/-- Slices of equal length, one after the other. -/
theorem getElem?_flatten_map {urb f j : ℕ} (counts : List ℤ) (hj : j < urb)
    (hf : f < counts.length) :
    ((counts.map (flushSlice urb)).flatten)[f * urb + j]? =
      some (if (cacheLineCount * j : ℤ) < counts[f] then 1 else 0) := by
  induction counts generalizing f with
  | nil => simp at hf
  | cons c counts ih =>
    cases f with
    | zero =>
      rw [List.map_cons, List.flatten_cons, Nat.zero_mul, Nat.zero_add,
        List.getElem?_append_left (by simpa using hj),
        List.getElem?_eq_getElem (by simpa using hj), getElem_flushSlice]
      rfl
    | succ f =>
      rw [List.map_cons, List.flatten_cons,
        List.getElem?_append_right (by rw [length_flushSlice, Nat.succ_mul]; omega),
        length_flushSlice, show (f + 1) * urb + j - urb = f * urb + j by rw [Nat.succ_mul]; omega,
        ih (by simpa using hf)]
      rfl

theorem length_flatten_map {urb : ℕ} (counts : List ℤ) :
    ((counts.map (flushSlice urb)).flatten).length = counts.length * urb := by
  induction counts with
  | nil => simp
  | cons c counts ih =>
    rw [List.map_cons, List.flatten_cons, List.length_append, ih, length_flushSlice,
      List.length_cons, Nat.succ_mul]
    omega

/-! ## The table of `X_CMP` -/

/-- A defined slice lies inside its row. -/
theorem mapFolds_le_length {bf xH urb totalUrb : ℕ} (hurb : 0 < urb) (htotal : totalUrb = bf * urb)
    (hmap : mapFolds bf xH urb totalUrb ⟨T, base⟩ = some s) :
    ∀ r < xH, bf * urb ≤ (T r).length := by
  intro r hr
  rcases Nat.eq_zero_or_pos bf with rfl | hbf
  · simp
  · -- the last slot of the last fold
    have hlast : (bf - 1) * urb + urb = bf * urb := by
      rw [← Nat.succ_mul, Nat.succ_eq_add_one, Nat.sub_add_cancel hbf]
    have hlt := (mapFolds_isSome_iff base T).mp ⟨s, hmap⟩ (bf - 1) (by omega) r hr (bf * urb - 1)
      (mem_slotAccesses.mpr ⟨by omega, by omega, .inl (by omega)⟩)
    omega

/-- A slice takes at most one line per slot. -/
theorem mapSlots_address_le {totalUrb row : ℕ} (left col : ℕ)
    (hmap : mapSlots totalUrb row left col s = some s') :
    s'.address ≤ s.address + left * cacheLineByte := by
  induction left generalizing col s with
  | zero =>
    obtain rfl : s = s' := by simpa [mapSlots] using hmap
    exact Nat.le_add_right _ _
  | succ left ih =>
    rw [mapSlots] at hmap
    split at hmap
    · cases hmap
      exact Nat.le_add_right _ _
    · split at hmap
      · cases hmap
      · have hle := ih (col + 1) hmap
        simp only [cacheLineByte] at hle ⊢
        omega

/-- The features take at most `urb` lines per fold and row. -/
theorem mapFolds_address_le {bf xH urb totalUrb : ℕ}
    (hmap : mapFolds bf xH urb totalUrb ⟨T, base⟩ = some s) :
    s.address ≤ base + bf * (xH * (urb * cacheLineByte)) := by
  refine forUpto_inv (fun i (t : XMap) => t.address ≤ base + i * (xH * (urb * cacheLineByte)))
    hmap (Nat.le_add_right _ _) ?_
  intro i t t' _ hle hrows
  have hfold := forUpto_inv (fun j (u : XMap) => u.address ≤ t.address + j * (urb * cacheLineByte))
    hrows (Nat.le_add_right _ _) fun j u u' _ hle' hslots => by
      have hslice := mapSlots_address_le urb (i * urb) hslots
      rw [Nat.succ_mul]
      omega
  rw [Nat.succ_mul]
  omega

/-- A line address of the feature region. -/
structure IsLine (arch : ArchInfo) (a : ℕ) : Prop where
  ge : arch.xwEleAddrStart ≤ a
  lt : a < arch.axwAddrStart
  dvd : cacheLineByte ∣ a
  line_le : cacheLineByte ≤ a

/-- The table of `X_CMP`: every slice holds some lines first and zeros behind
them. -/
structure FeatureTable (g : Globals) : Prop where
  urb_pos : 0 < g.archInfo.urb
  totalUrb_eq : g.dataInfo.totalUrb = g.archInfo.bf * g.archInfo.urb
  slices : ∀ r < g.dataInfo.xH, ∀ f < g.archInfo.bf,
    ∃ m, 1 ≤ m ∧ m ≤ g.archInfo.urb ∧
      (∀ j < m, ∃ a, (g.xToAddr r)[f * g.archInfo.urb + j]? = some a ∧
        IsLine g.archInfo a) ∧
      ∀ j, m ≤ j → j < g.archInfo.urb → (g.xToAddr r)[f * g.archInfo.urb + j]? = some 0

/-- A slice that a row has room for starts with at least one present cell, and
its absent cells come last. -/
theorem transXCmpRow_slice {xUnit xW urb bf totalUrb f : ℕ} (x : ℕ → ℤ) (hunit : 0 < xUnit)
    (hurb : 0 < urb) (hlast : totalUrb - (bf - 1) * urb = urb)
    (hlen : (f + 1) * urb ≤ (transXCmpRow xUnit xW urb bf totalUrb x).length) :
    ∃ m, 1 ≤ m ∧ m ≤ urb ∧ ∀ j < urb,
      (transXCmpRow xUnit xW urb bf totalUrb x)[f * urb + j]? = some (if j < m then 1 else 0) := by
  obtain ⟨counts, -, hpos, hrow⟩ := transXCmpRow_eq xW x hunit hlast
  rw [hrow] at hlen ⊢
  rw [length_flatten_map] at hlen
  have hf : f < counts.length := Nat.le_of_mul_le_mul_right hlen hurb
  have hc := hpos counts[f] (List.getElem_mem hf)
  refine ⟨min urb ((counts[f] + 15) / 16).toNat, by omega, by omega, fun j hj => ?_⟩
  rw [getElem?_flatten_map counts hj hf]
  simp only [cacheLineCount]
  congr 1
  exact if_congr (by omega) rfl rfl

theorem featureTable_of_addressMapping {g₀ g : Globals} {xw : ℕ → ℕ → ℤ}
    (hmode : g₀.archInfo.mode = .xCmp) (hunit : 0 < g₀.archInfo.xUnit)
    (hn : 0 < g₀.archInfo.nOfEngine) (hptr : 0 < (g₀.rowPtr 0).length)
    (h : addressMapping (transXW xw g₀) = some g) : FeatureTable g := by
  have hlayout := addressMapping_layout h
  obtain ⟨g₁, s, hgraph, hfeat, hg⟩ := addressMapping_spec h
  obtain ⟨-, hinfo, hrow, -, htable, -, harch, -⟩ := mapGraph_spec hgraph
  rw [transXW_xCmp xw hmode] at hinfo hrow htable harch
  have hurb : 0 < ceilDiv g₀.archInfo.xUnit cacheLineCount := ceilDiv_pos hunit (by decide)
  generalize hurbEq : ceilDiv g₀.archInfo.xUnit cacheLineCount = urb at *
  generalize hbfEq : ceilDiv g₀.dataInfo.xW g₀.archInfo.xUnit = bf at *
  have hmode₁ : g₁.archInfo.mode = .xCmp := by rw [harch]; exact hmode
  have hurb₁ : g₁.archInfo.urb = urb := by rw [harch]
  have hbf₁ : g₁.archInfo.bf = bf := by rw [harch]
  have htotal₁ : g₁.dataInfo.totalUrb = bf * urb := by rw [hinfo]
  have hxH₁ : g₁.dataInfo.xH = g₀.dataInfo.xH := by rw [hinfo]
  unfold mapFeatures at hfeat
  simp only [hmode₁, hurb₁, hbf₁, htotal₁] at hfeat
  have hinv := mapFolds_inv hfeat
  have hlen := mapFolds_le_length hurb rfl hfeat
  -- the features start at a line other than the first
  have hdvd := hlayout.xwEle_dvd
  have hline : cacheLineByte ≤ g.archInfo.xwEleAddrStart := by
    apply hlayout.line_le_xwEle
    · rw [hg]
      simp only
      rw [harch]
      exact hn
    · rw [hg]
      simp only
      rw [hrow]
      exact hptr
  subst hg
  refine ⟨hurb₁ ▸ hurb, by simp only [htotal₁, hbf₁, hurb₁], fun r hr f hf => ?_⟩
  simp only [hbf₁] at hf
  simp only [hurb₁] at hf hdvd hline ⊢
  have hroom : (f + 1) * urb ≤ (g₁.xToAddr r).length :=
    (Nat.mul_le_mul_right urb (Nat.succ_le_of_lt hf)).trans (hlen r hr)
  have hlast := last_slice_width (Nat.zero_lt_of_lt hf) urb
  rw [htable] at hroom
  obtain ⟨m, hm, hmle, hcells⟩ := transXCmpRow_slice (xw r) hunit hurb hlast hroom
  have hcell : ∀ j < urb, (g₁.xToAddr r)[f * urb + j]? = some (if j < m then 1 else 0) := by
    intro j hj
    rw [htable]
    exact hcells j hj
  have hmul := Nat.mul_le_mul_right urb (Nat.succ_le_of_lt hf)
  rw [Nat.succ_mul] at hmul
  refine ⟨m, hm, hmle, fun j hj => ?_, fun j hj hlt => ?_⟩
  · have hP : r < g₁.dataInfo.xH ∧ foldRange urb (bf * urb) bf (f * urb + j) :=
      ⟨hr, f, hf, by omega, by omega, .inl (by omega)⟩
    obtain ⟨a, ha, hlo, hhi, hal⟩ := hinv.mapped r _ hP (by rw [hcell j (by omega), if_pos hj])
    refine ⟨a, ha, hlo, hhi, ?_, hline.trans hlo⟩
    rw [← Nat.sub_add_cancel hlo]
    exact hal.add hdvd
  · rw [hinv.kept r _ (by rw [hcell j hlt, if_neg (by omega)]; simp), hcell j hlt,
      if_neg (by omega)]

end Sgcn

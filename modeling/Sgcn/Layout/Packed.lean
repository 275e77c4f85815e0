-- SUMMARY: The feature layouts of `CSR` and `X_FULL_CMP`: which line every cell of the table names, as a closed form over the rows.
import Sgcn.Base.Blocks
import Sgcn.Model.Preprocessor

/-!
# Packed feature tables

Mode `CSR` writes the table in three passes: the row pointers, the columns, the
values. The address is a running one that also moves back, so that the line of a
cell depends on all rows before it (`csrLine`). Every pass writes cells of its own
(`Written`), and the line of each cell is known beforehand (`csrCellLine`). In mode
`X_FULL_CMP` the second pass writes every cell, those of the first pass included.
-/

namespace Sgcn

open Loop Blocks

/-! ## Written cells -/

/-- The cells in `P` hold what `v` says; all other cells are as in `T`. -/
structure Written (T : ℕ → List ℕ) (P : ℕ → ℕ → Prop) (v : ℕ → ℕ → ℕ) (t : ℕ → List ℕ) : Prop where
  length_eq : ∀ r, (t r).length = (T r).length
  set : ∀ r c, P r c → (t r)[c]? = some (v r c)
  kept : ∀ r c, ¬ P r c → (t r)[c]? = (T r)[c]?

namespace Written

variable {T t t' : ℕ → List ℕ} {P Q : ℕ → ℕ → Prop} {v : ℕ → ℕ → ℕ} {row col : ℕ}

theorem init (T : ℕ → List ℕ) (v : ℕ → ℕ → ℕ) : Written T (fun _ _ => False) v T :=
  ⟨fun _ => rfl, fun _ _ h => h.elim, fun _ _ _ => rfl⟩

theorem congr (h : Written T P v t) (hPQ : ∀ r c, P r c ↔ Q r c) : Written T Q v t :=
  ⟨h.length_eq, fun r c hQ => h.set r c ((hPQ r c).mpr hQ),
    fun r c hQ => h.kept r c fun hP => hQ ((hPQ r c).mp hP)⟩

/-- A write outside the row is undefined, so that a defined one adds its cell. -/
theorem writeCell (h : Written T P v t) {a : ℕ} (ha : v row col = a)
    (hwrite : writeCell t row col a = some t') :
    Written T (fun r c => P r c ∨ r = row ∧ c = col) v t' := by
  unfold Sgcn.writeCell at hwrite
  split at hwrite
  · next hlt =>
    cases hwrite
    have hother : ∀ r c, ¬ (r = row ∧ c = col) →
        (Function.update t row ((t row).set col a) r)[c]? = (t r)[c]? := by
      intro r c hne
      by_cases hr : r = row
      · subst hr
        rw [Function.update_self, List.getElem?_set_ne fun heq => hne ⟨rfl, heq.symm⟩]
      · rw [Function.update_of_ne hr]
    refine ⟨fun r => ?_, fun r c hP => ?_, fun r c hP => ?_⟩
    · rw [← h.length_eq r]
      by_cases hr : r = row
      · subst hr
        rw [Function.update_self, List.length_set]
      · rw [Function.update_of_ne hr]
    · by_cases hrc : r = row ∧ c = col
      · obtain ⟨rfl, rfl⟩ := hrc
        rw [Function.update_self, List.getElem?_set_self hlt, ha]
      · rw [hother r c hrc]
        exact h.set r c (hP.resolve_right hrc)
    · rw [hother r c fun hrc => hP (.inr hrc)]
      exact h.kept r c fun hP' => hP (.inl hP')
  · cases hwrite

/-- Dropping the last cell of a row, which has not been written. -/
theorem dropLast (h : Written T P v t) (row : ℕ) (hP : ∀ c, P row c → c + 1 < (T row).length) :
    Written (Function.update T row (T row).dropLast) P v
      (Function.update t row (t row).dropLast) := by
  refine ⟨fun r => ?_, fun r c hPrc => ?_, fun r c hPrc => ?_⟩
  · by_cases hr : r = row
    · subst hr
      simp only [Function.update_self, List.length_dropLast, h.length_eq]
    · simp only [Function.update_of_ne hr, h.length_eq]
  · by_cases hr : r = row
    · subst hr
      have hlt := hP c hPrc
      rw [Function.update_self, List.getElem?_dropLast, if_pos (by rw [h.length_eq]; omega)]
      exact h.set r c hPrc
    · rw [Function.update_of_ne hr]
      exact h.set r c hPrc
  · by_cases hr : r = row
    · subst hr
      rw [Function.update_self, Function.update_self, List.getElem?_dropLast,
        List.getElem?_dropLast, h.length_eq, h.kept r c hPrc]
    · rw [Function.update_of_ne hr, Function.update_of_ne hr]
      exact h.kept r c hPrc

end Written

/-! ## Lines -/

/-- Whether the running count of non-zeros ends inside a line after row `i`. -/
def openLine (z : ℕ → ℕ) (i : ℕ) : ℕ := if start z (i + 1) % cacheLineCount ≠ 0 then 1 else 0

theorem openLine_cases (z : ℕ → ℕ) (i : ℕ) :
    openLine z i = 0 ∧ (start z i + z i) % 16 = 0 ∨
      openLine z i = 1 ∧ (start z i + z i) % 16 ≠ 0 := by
  rw [openLine, start_succ]
  by_cases hopen : (start z i + z i) % cacheLineCount = 0
  · exact .inl ⟨if_neg (not_not.mpr hopen), hopen⟩
  · exact .inr ⟨if_pos hopen, hopen⟩

/-- How far the running address has moved before row `i`, in lines: `b` lines forward
per row, one back when the count ends inside a line. -/
def csrLine (z b : ℕ → ℕ) : ℕ → ℤ
  | 0 => 0
  | i + 1 => csrLine z b i + b i - openLine z i

/-- The line of cell `c` of row `r`, from the start of the features on. -/
def csrCellLine (z b : ℕ → ℕ) (xH r c : ℕ) : ℤ :=
  if c = 0 then (r / cacheLineCount : ℕ)
  else if c % 2 = 1 then (xH / cacheLineCount : ℕ) + csrLine z b r + (c / 2 : ℕ)
  else (xH / cacheLineCount : ℕ) + csrLine z b xH + csrLine z b r + (c / 2 - 1 : ℕ)

/-- The line that follows the features. -/
def csrEndLine (z b : ℕ → ℕ) (xH : ℕ) : ℤ := (xH / cacheLineCount : ℕ) + 2 * csrLine z b xH

/-! ## One row -/

section

variable {T : ℕ → List ℕ} {P : ℕ → ℕ → Prop} {v : ℕ → ℕ → ℕ} {s s' : CsrMap} {xH i : ℕ}

/-- The header pass writes the first cell of every row. -/
theorem mapCsrHeaders_spec (hw : Written T (fun _ _ => False) v s.table)
    (hv : ∀ r, v r 0 = wrapAddr (s.address + cacheLineByte * (r / cacheLineCount : ℕ)))
    (h : mapCsrHeaders xH s = some s') :
    Written T (fun r c => r < xH ∧ c = 0) v s'.table ∧
      s'.address = s.address + cacheLineByte * (xH / cacheLineCount : ℕ) ∧ s'.xAcm = s.xAcm := by
  refine forUpto_inv (fun i (t : CsrMap) => Written T (fun r c => r < i ∧ c = 0) v t.table ∧
    t.address = s.address + cacheLineByte * (i / cacheLineCount : ℕ) ∧ t.xAcm = s.xAcm) h
    ⟨hw.congr fun r c => by simp, by simp, rfl⟩ ?_
  rintro i t t' - ⟨ht, haddr, hacm⟩ hbody
  obtain ⟨table, hwrite, hret⟩ := Option.bind_eq_some_iff.mp hbody
  obtain rfl := Option.some.inj hret
  refine ⟨(ht.writeCell (by rw [hv, haddr]) hwrite).congr fun r c => ?_, ?_, hacm⟩
  · exact lt_succ_and_iff (q := fun _ => c = 0)
  · simp only [haddr, cacheLineByte, cacheLineCount]
    split <;> omega

/-- The cells of one row that one pass writes. -/
theorem mapCsrCells_spec {off cnt : ℕ} (hw : Written T P v s.table)
    (hv : ∀ j < cnt, v i (j * 2 + off) = wrapAddr (s.address + cacheLineByte * j))
    (h : mapCsrCells off i cnt s = some s') :
    Written T (fun r c => P r c ∨ r = i ∧ ∃ j < cnt, c = j * 2 + off) v s'.table ∧
      s'.address = s.address + cacheLineByte * cnt ∧ s'.xAcm = s.xAcm := by
  refine forUpto_inv (fun k (t : CsrMap) =>
    Written T (fun r c => P r c ∨ r = i ∧ ∃ j < k, c = j * 2 + off) v t.table ∧
      t.address = s.address + cacheLineByte * k ∧ t.xAcm = s.xAcm) h
    ⟨hw.congr fun r c => by simp, by simp, rfl⟩ ?_
  rintro k t t' hk ⟨ht, haddr, hacm⟩ hbody
  obtain ⟨table, hwrite, hret⟩ := Option.bind_eq_some_iff.mp hbody
  obtain rfl := Option.some.inj hret
  refine ⟨(ht.writeCell (by rw [hv k hk, haddr]) hwrite).congr fun r c => ?_, ?_, hacm⟩
  · constructor
    · rintro ((hP | ⟨rfl, j, hj, hc⟩) | ⟨rfl, hc⟩)
      · exact .inl hP
      · exact .inr ⟨rfl, j, by omega, hc⟩
      · exact .inr ⟨rfl, k, by omega, hc⟩
    · rintro (hP | ⟨rfl, j, hj, hc⟩)
      · exact .inl (.inl hP)
      · rcases Nat.lt_succ_iff_lt_or_eq.mp hj with hlt | rfl
        · exact .inl (.inr ⟨rfl, j, hlt, hc⟩)
        · exact .inr ⟨rfl, hc⟩
  · simp only [haddr, cacheLineByte]
    omega

/-- One row of the column or of the value pass. The last cell still holds the count
of the row. -/
theorem mapCsrRow_spec {off b z : ℕ} {dropLast : Bool} (hw : Written T P v s.table)
    (hoff : 1 ≤ off ∧ off ≤ 2) (hlen : (T i).length = 2 * b + 2)
    (hlast : (T i)[2 * b + 1]? = some z) (hfree : ¬ P i (2 * b + 1))
    (hv : ∀ j < b, v i (j * 2 + off) = wrapAddr (s.address + cacheLineByte * j))
    (h : mapCsrRow off dropLast i s = some s') :
    s'.xAcm = s.xAcm + z ∧
      s'.address = s.address + cacheLineByte * b -
        (if (s.xAcm + z) % cacheLineCount ≠ 0 then cacheLineByte else 0 : ℕ) ∧
      ∃ t, Written T (fun r c => P r c ∨ r = i ∧ ∃ j < b, c = j * 2 + off) v t ∧
        s'.table = if dropLast then Function.update t i (t i).dropLast else t := by
  unfold mapCsrRow at h
  have hcnt : ((s.table i).length - 2) / 2 = b := by
    rw [hw.length_eq, hlen]
    omega
  simp only [hcnt] at h
  obtain ⟨u, hcells, hrest⟩ := Option.bind_eq_some_iff.mp h
  obtain ⟨hu, haddr, hacm⟩ := mapCsrCells_spec hw hv hcells
  have hcount : (u.table i)[(u.table i).length - 1]? = some z := by
    rw [hu.length_eq, hlen, show 2 * b + 2 - 1 = 2 * b + 1 by omega, hu.kept, hlast]
    rintro (hP | ⟨-, j, hj, hc⟩)
    · exact hfree hP
    · omega
  obtain ⟨last, hget, hret⟩ := Option.bind_eq_some_iff.mp hrest
  obtain rfl : z = last := Option.some.inj (hcount.symm.trans hget)
  obtain rfl := Option.some.inj hret
  refine ⟨by rw [hacm], ?_, u.table, hu, rfl⟩
  simp only [hacm, haddr]
  split
  · rfl
  · simp

end

/-! ## All rows -/

section

variable {T : ℕ → List ℕ} {z b : ℕ → ℕ} {xH address : ℕ} {s : CsrMap}

/-- The line after a row, in bytes. -/
theorem csrLine_step (A : ℤ) (i : ℕ) :
    A + cacheLineByte * csrLine z b i + cacheLineByte * b i -
      (if (start z i + z i) % cacheLineCount ≠ 0 then cacheLineByte else 0 : ℕ) =
    A + cacheLineByte * csrLine z b (i + 1) := by
  simp only [csrLine, openLine, start_succ, cacheLineByte]
  split <;> omega

/-- The cells of a row that `off` selects. -/
def csrCells (b : ℕ → ℕ) (off r c : ℕ) : Prop := ∃ j < b r, c = j * 2 + off

/-- A row as `TransXW` leaves it: its length, and its count in the last cell. -/
theorem csrRow_spec {n m : ℕ} {l : List ℕ} (hl : l = 1 :: (List.replicate (2 * n) 1 ++ [m])) :
    l.length = 2 * n + 2 ∧ l[2 * n + 1]? = some m := by
  subst hl
  refine ⟨by simp, ?_⟩
  rw [List.getElem?_cons_succ, List.getElem?_append_right (by simp)]
  simp

/-- The table without the last cells of the first `i` rows, if `drop` is set. -/
def dropRows (drop : Bool) (i : ℕ) (T : ℕ → List ℕ) (r : ℕ) : List ℕ :=
  if drop = true ∧ r < i then (T r).dropLast else T r

theorem dropRows_zero (drop : Bool) (T : ℕ → List ℕ) : dropRows drop 0 T = T := by
  funext r
  simp [dropRows]

theorem dropRows_false (i : ℕ) (T : ℕ → List ℕ) : dropRows false i T = T := by
  funext r
  simp [dropRows]

theorem dropRows_self (drop : Bool) (i : ℕ) (T : ℕ → List ℕ) : dropRows drop i T i = T i := by
  simp [dropRows]

theorem dropRows_succ (i : ℕ) (T : ℕ → List ℕ) :
    Function.update (dropRows true i T) i (T i).dropLast = dropRows true (i + 1) T := by
  funext r
  unfold dropRows
  by_cases hr : r = i
  · subst hr
    rw [Function.update_self, if_pos ⟨rfl, r.lt_succ_self⟩]
  · rw [Function.update_of_ne hr]
    exact if_congr (by simp only [true_and]; omega) rfl rfl

/-- The column pass or the value pass: every row writes its cells, and the address moves
by the lines of all rows. -/
theorem mapCsrPass_spec {P : ℕ → ℕ → Prop} {v : ℕ → ℕ → ℕ} {s s' : CsrMap} {off : ℕ} {drop : Bool}
    (hT : ∀ r < xH, T r = 1 :: (List.replicate (2 * b r) 1 ++ [z r]))
    (hw : Written T P v s.table) (hP : ∀ r c, P r c → c < 2 * b r + 1)
    (hoff : 1 ≤ off ∧ off ≤ 2) (hacm : s.xAcm = 0)
    (hv : ∀ r < xH, ∀ j < b r,
      v r (j * 2 + off) = wrapAddr (s.address + cacheLineByte * (csrLine z b r + j)))
    (h : forUpto xH (mapCsrRow off drop) s = some s') :
    Written (dropRows drop xH T) (fun r c => P r c ∨ r < xH ∧ csrCells b off r c) v s'.table ∧
      s'.address = s.address + cacheLineByte * csrLine z b xH := by
  suffices key : Written (dropRows drop xH T)
      (fun r c => P r c ∨ r < xH ∧ csrCells b off r c) v s'.table ∧
      s'.address = s.address + cacheLineByte * csrLine z b xH ∧ s'.xAcm = start z xH from
    ⟨key.1, key.2.1⟩
  refine forUpto_inv (fun i (t : CsrMap) =>
    Written (dropRows drop i T) (fun r c => P r c ∨ r < i ∧ csrCells b off r c) v t.table ∧
      t.address = s.address + cacheLineByte * csrLine z b i ∧ t.xAcm = start z i) h
    ⟨?_, by simp [csrLine], by simpa using hacm⟩ ?_
  · rw [dropRows_zero]
    exact hw.congr fun r c => by simp
  rintro i t t' hi ⟨ht, haddr, hacm'⟩ hrow
  obtain ⟨hlen, hlast⟩ := csrRow_spec (hT i hi)
  rw [← dropRows_self drop i T] at hlen hlast
  have hcells : ∀ c, (P i c ∨ i < i ∧ csrCells b off i c) ∨ i = i ∧ csrCells b off i c →
      c < 2 * b i + 1 := by
    rintro c ((hPc | ⟨hlt, -⟩) | ⟨-, j, hj, hc⟩)
    · exact hP i c hPc
    · omega
    · omega
  obtain ⟨hacm₁, haddr₁, u, hu, htable⟩ := mapCsrRow_spec ht hoff hlen hlast
    (fun hPc => by have := hcells _ (.inl hPc); omega)
    (fun j hj => by rw [hv i hi j hj, haddr, mul_add, add_assoc]) hrow
  have hset : ∀ r c, ((P r c ∨ r < i ∧ csrCells b off r c) ∨ r = i ∧ csrCells b off i c) ↔
      P r c ∨ r < i + 1 ∧ csrCells b off r c := by
    intro r c
    rw [or_assoc, lt_succ_and_iff (q := fun r => csrCells b off r c)]
  refine ⟨?_, by rw [haddr₁, haddr, hacm', csrLine_step], by rw [hacm₁, hacm', start_succ]⟩
  cases drop with
  | false =>
    rw [if_neg Bool.false_ne_true] at htable
    rw [htable, dropRows_false]
    rw [dropRows_false] at hu
    exact hu.congr hset
  | true =>
    rw [if_pos rfl] at htable
    have hdrop := hu.dropLast i fun c hc => by rw [hlen]; have := hcells c hc; omega
    rw [dropRows_self, dropRows_succ] at hdrop
    rw [htable]
    exact hdrop.congr hset

/-- What mode `CSR` hands out: the address behind the last row, and the line of every
cell. -/
theorem mapCsr_spec (hT : ∀ r < xH, T r = 1 :: (List.replicate (2 * b r) 1 ++ [z r]))
    (h : mapCsr xH T address = some s) :
    s.address = address + cacheLineByte * csrEndLine z b xH ∧
      ∀ r < xH, (s.table r).length = 2 * b r + 1 ∧ ∀ c < 2 * b r + 1,
        (s.table r)[c]? = some (wrapAddr (address + cacheLineByte * csrCellLine z b xH r c)) := by
  unfold mapCsr at h
  obtain ⟨s₀, hhead, hrest⟩ := Option.bind_eq_some_iff.mp h
  obtain ⟨s₁, hcols, hvals⟩ := Option.bind_eq_some_iff.mp hrest
  generalize hvdef :
    (fun r c => wrapAddr (address + cacheLineByte * csrCellLine z b xH r c)) = v
  have hv : ∀ r c, v r c = wrapAddr (address + cacheLineByte * csrCellLine z b xH r c) := by
    intro r c
    rw [← hvdef]
  obtain ⟨hw₀, haddr₀, hacm₀⟩ := mapCsrHeaders_spec (.init T v) (fun r => by
    rw [hv, csrCellLine, if_pos rfl]) hhead
  simp only at haddr₀ hacm₀
  obtain ⟨hw₁, haddr₁⟩ := mapCsrPass_spec hT hw₀ (fun r c hc => by omega) ⟨le_rfl, by omega⟩ hacm₀
    (fun r _ j _ => by
      rw [hv, haddr₀, csrCellLine, if_neg (by omega), if_pos (by omega),
        show (j * 2 + 1) / 2 = j by omega]
      congr 1
      ring) hcols
  rw [dropRows_false] at hw₁
  obtain ⟨hw₂, haddr₂⟩ := mapCsrPass_spec (s := { s₁ with xAcm := 0 }) hT hw₁ (fun r c hc => by
      rcases hc with ⟨-, hc⟩ | ⟨-, j, hj, hc⟩ <;> omega) ⟨by omega, le_rfl⟩ rfl
    (fun r _ j _ => by
      rw [hv, haddr₁, haddr₀, csrCellLine, if_neg (by omega), if_neg (by omega),
        show (j * 2 + 2) / 2 - 1 = j by omega]
      congr 1
      ring) hvals
  refine ⟨?_, fun r hr => ⟨?_, fun c hc => ?_⟩⟩
  · simp only at haddr₂
    rw [haddr₂, haddr₁, haddr₀, csrEndLine]
    ring
  · rw [hw₂.length_eq, dropRows, if_pos ⟨rfl, hr⟩, List.length_dropLast,
      (csrRow_spec (hT r hr)).1]
    omega
  · rw [hw₂.set r c, hv]
    -- every cell is a header, a column or a value
    rcases Nat.eq_zero_or_pos c with hzero | hpos
    · exact .inl (.inl ⟨hr, hzero⟩)
    · rcases Nat.mod_two_eq_zero_or_one c with heven | hodd
      · exact .inr ⟨hr, c / 2 - 1, by omega, by omega⟩
      · exact .inl (.inr ⟨hr, c / 2, by omega, by omega⟩)

end

/-! ## The passes are defined -/

section

variable {T : ℕ → List ℕ} {s : CsrMap} {xH i : ℕ}

theorem writeCell_isSome {t : ℕ → List ℕ} (row col a : ℕ) (h : col < (t row).length) :
    ∃ t', writeCell t row col a = some t' ∧ ∀ r, (t' r).length = (t r).length := by
  refine ⟨_, if_pos h, fun r => ?_⟩
  by_cases hr : r = row
  · subst hr
    rw [Function.update_self, List.length_set]
  · rw [Function.update_of_ne hr]

theorem mapCsrHeaders_isSome (h : ∀ r < xH, 2 ≤ (s.table r).length) :
    ∃ s', mapCsrHeaders xH s = some s' ∧ ∀ r, (s'.table r).length = (s.table r).length := by
  refine forUpto_isSome (fun _ (t : CsrMap) => ∀ r, (t.table r).length = (s.table r).length)
    (fun _ => rfl) fun i t hi ht => ?_
  obtain ⟨table, hwrite, hlen⟩ := writeCell_isSome i 0 (wrapAddr t.address)
    (show 0 < (t.table i).length by rw [ht]; have := h i hi; omega)
  exact ⟨_, by rw [hwrite]; rfl, fun r => (hlen r).trans (ht r)⟩

theorem mapCsrCells_isSome (off cnt : ℕ) (h : ∀ j < cnt, j * 2 + off < (s.table i).length) :
    ∃ s', mapCsrCells off i cnt s = some s' ∧
      ∀ r, (s'.table r).length = (s.table r).length := by
  refine forUpto_isSome (fun _ (t : CsrMap) => ∀ r, (t.table r).length = (s.table r).length)
    (fun _ => rfl) fun j t hj ht => ?_
  obtain ⟨table, hwrite, hlen⟩ := writeCell_isSome i (j * 2 + off) (wrapAddr t.address)
    (show j * 2 + off < (t.table i).length by rw [ht]; exact h j hj)
  exact ⟨_, by rw [hwrite]; rfl, fun r => (hlen r).trans (ht r)⟩

/-- A row of at least two cells is mapped, and no other row changes its length. -/
theorem mapCsrRow_isSome {off : ℕ} (dropLast : Bool) (hoff : off ≤ 2)
    (h : 2 ≤ (s.table i).length) :
    ∃ s', mapCsrRow off dropLast i s = some s' ∧
      ∀ r, dropLast = false ∨ r ≠ i → (s'.table r).length = (s.table r).length := by
  obtain ⟨t, ht, hlen⟩ := mapCsrCells_isSome (s := s) (i := i) off (((s.table i).length - 2) / 2)
    fun j hj => by omega
  have hlast : (t.table i).length - 1 < (t.table i).length := by
    rw [hlen]
    omega
  refine ⟨_, by
    unfold mapCsrRow
    simp only [ht, List.getElem?_eq_getElem hlast, Option.bind_eq_bind, Option.bind_some]
    rfl, fun r hr => ?_⟩
  rw [← hlen r]
  cases dropLast with
  | false => rfl
  | true =>
    have hne : r ≠ i := hr.resolve_left (by simp)
    simp [Function.update_of_ne hne]

/-- Mode `CSR` lays out any rows of at least two cells. -/
theorem mapCsr_isSome (h : ∀ r < xH, 2 ≤ (T r).length) (address : ℕ) :
    ∃ s, mapCsr xH T address = some s := by
  obtain ⟨s₀, hs₀, hlen₀⟩ := mapCsrHeaders_isSome (s := ⟨T, address, 0⟩) h
  obtain ⟨s₁, hs₁, hlen₁⟩ : ∃ s₁, forUpto xH (mapCsrRow 1 false) s₀ = some s₁ ∧
      ∀ r, (s₁.table r).length = (T r).length := by
    refine forUpto_isSome (fun _ (t : CsrMap) => ∀ r, (t.table r).length = (T r).length) hlen₀
      fun i t hi ht => ?_
    obtain ⟨t', ht', hlen⟩ := mapCsrRow_isSome false (show 1 ≤ 2 by decide)
      (show 2 ≤ (t.table i).length by rw [ht]; exact h i hi)
    exact ⟨t', ht', fun r => (hlen r (.inl rfl)).trans (ht r)⟩
  -- the value pass only shortens rows that it is done with
  obtain ⟨s₂, hs₂, -⟩ : ∃ s₂, forUpto xH (mapCsrRow 2 true) { s₁ with xAcm := 0 } = some s₂ ∧
      ∀ r, xH ≤ r → (s₂.table r).length = (T r).length := by
    refine forUpto_isSome (fun i (t : CsrMap) => ∀ r, i ≤ r → (t.table r).length = (T r).length)
      (fun r _ => hlen₁ r) fun i t hi ht => ?_
    obtain ⟨t', ht', hlen⟩ := mapCsrRow_isSome true (show 2 ≤ 2 by decide)
      (show 2 ≤ (t.table i).length by rw [ht i le_rfl]; exact h i hi)
    exact ⟨t', ht', fun r hr => (hlen r (.inr (by omega))).trans (ht r (by omega))⟩
  refine ⟨s₂, ?_⟩
  unfold mapCsr
  simp only [hs₀, hs₁, Option.bind_eq_bind, Option.bind_some]
  exact hs₂

end

/-! ## `X_FULL_CMP` -/

section

variable {T : ℕ → List ℕ} {P : ℕ → ℕ → Prop} {v : ℕ → ℕ → ℕ} {s s' : XMap} {xH change i : ℕ}

/-- The header pass steps on once for every `change` rows. -/
theorem mapFullHeaders_spec (h : mapFullHeaders xH change s = some s') :
    s'.address = s.address + cacheLineByte * (xH / change) ∧
      (∀ r, (s'.table r).length = (s.table r).length) ∧ (0 < xH → 0 < change) := by
  refine forUpto_inv (fun i (t : XMap) => t.address = s.address + cacheLineByte * (i / change) ∧
    (∀ r, (t.table r).length = (s.table r).length) ∧ (0 < i → 0 < change)) h
    ⟨by simp, fun _ => rfl, fun hi => absurd hi (lt_irrefl 0)⟩ ?_
  rintro i t t' - ⟨haddr, hlen, -⟩ hbody
  obtain ⟨table, hwrite, hrest⟩ := Option.bind_eq_some_iff.mp hbody
  split at hrest
  · cases hrest
  · next hne =>
    obtain rfl := Option.some.inj hrest
    refine ⟨?_, fun r => ?_, fun _ => Nat.pos_of_ne_zero hne⟩
    · simp only [haddr, Nat.succ_div, Nat.dvd_iff_mod_eq_zero]
      split
      · rw [mul_add, mul_one, Nat.add_assoc]
      · rw [Nat.add_zero]
    · rw [((Written.init t.table fun _ _ => t.address).writeCell rfl hwrite).length_eq, hlen]

theorem mapFullHeaders_isSome (hchange : 0 < change) (hlen : ∀ r < xH, 0 < (s.table r).length) :
    ∃ s', mapFullHeaders xH change s = some s' := by
  suffices key : ∃ s', mapFullHeaders xH change s = some s' ∧
      ∀ r, (s'.table r).length = (s.table r).length from key.imp fun _ h => h.1
  refine forUpto_isSome (fun _ (t : XMap) => ∀ r, (t.table r).length = (s.table r).length)
    (fun _ => rfl) fun i t hi ht => ?_
  obtain ⟨table, hwrite, hlen'⟩ := writeCell_isSome i 0 t.address
    (show 0 < (t.table i).length by rw [ht]; exact hlen i hi)
  rw [hwrite]
  exact ⟨_, if_neg hchange.ne', fun r => (hlen' r).trans (ht r)⟩

/-- The cells of one row, each with a line of its own. -/
theorem mapFullRow_spec (hw : Written T P v s.table)
    (hv : ∀ c < (T i).length, v i c = s.address + cacheLineByte * c) :
    ∃ s', forUpto (s.table i).length (fun j s => do
        let table ← writeCell s.table i j s.address
        return ⟨table, s.address + cacheLineByte⟩) s = some s' ∧
      Written T (fun r c => P r c ∨ r = i ∧ c < (T i).length) v s'.table ∧
      s'.address = s.address + cacheLineByte * (T i).length := by
  rw [hw.length_eq]
  refine forUpto_isSome (fun j (t : XMap) =>
    Written T (fun r c => P r c ∨ r = i ∧ c < j) v t.table ∧
      t.address = s.address + cacheLineByte * j) ⟨hw.congr fun r c => by simp, by simp⟩ ?_
  rintro j t hj ⟨ht, haddr⟩
  obtain ⟨table, hwrite, -⟩ := writeCell_isSome i j t.address
    (show j < (t.table i).length by rwa [ht.length_eq])
  refine ⟨_, by rw [hwrite]; rfl, (ht.writeCell (by rw [hv j hj, haddr]) hwrite).congr
    fun r c => ?_, ?_⟩
  · rw [or_assoc]
    refine or_congr Iff.rfl ?_
    omega
  · simp only [haddr, cacheLineByte]
    omega

/-- The payload pass is defined for any table, and gives every cell of every row a line of
its own, the header cells included. -/
theorem mapFullCells_spec (s : XMap) (xH : ℕ) :
    ∃ s', mapFullCells xH s = some s' ∧
      s'.address = s.address + cacheLineByte * start (fun r => (s.table r).length) xH ∧
      (∀ r, (s'.table r).length = (s.table r).length) ∧
      ∀ r < xH, ∀ c < (s.table r).length, (s'.table r)[c]? =
        some (s.address + cacheLineByte * (start (fun r => (s.table r).length) r + c)) := by
  generalize hlen : (fun r => (s.table r).length) = len
  have hlen' (r : ℕ) : (s.table r).length = len r := by rw [← hlen]
  obtain ⟨s', hs', hw, haddr⟩ : ∃ s', mapFullCells xH s = some s' ∧
      Written s.table (fun r c => r < xH ∧ c < len r)
        (fun r c => s.address + cacheLineByte * (start len r + c)) s'.table ∧
      s'.address = s.address + cacheLineByte * start len xH := by
    refine forUpto_isSome (fun i (t : XMap) => Written s.table (fun r c => r < i ∧ c < len r)
        (fun r c => s.address + cacheLineByte * (start len r + c)) t.table ∧
      t.address = s.address + cacheLineByte * start len i)
      ⟨(Written.init s.table _).congr fun r c => by simp, by simp⟩ ?_
    rintro i t - ⟨ht, haddr⟩
    obtain ⟨t', ht', hw, haddr'⟩ := mapFullRow_spec (i := i) ht fun c _ => by
      rw [haddr, mul_add, Nat.add_assoc]
    refine ⟨t', ht', hw.congr fun r c => ?_, ?_⟩
    · rw [hlen']
      exact lt_succ_and_iff (q := fun r => c < len r)
    · rw [haddr', haddr, hlen', start_succ, mul_add, Nat.add_assoc]
  refine ⟨s', hs', haddr, hw.length_eq, fun r hr c hc => hw.set r c ⟨hr, ?_⟩⟩
  rwa [← hlen']

end

end Sgcn

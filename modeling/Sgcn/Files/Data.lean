-- SUMMARY: Lines of numbers, graph files and feature files are read back as they were written.
import Sgcn.Model.InputFiles
import Mathlib.Tactic.NormNum

/-!
# The graph and the feature file

A file of lines, each with numerals and single blanks between them, is read back by
`ReadData`. There may be a blank behind the last number of a line, and the last line may have
no end.
-/

namespace Sgcn

open Text

theorem ok_bind {α β : Type} (x : α) (f : α → Except Abort β) : (Except.ok x >>= f) = f x := rfl

/-! ## Numbers -/

theorem stoi_numeral {z : ℤ} (h : FitsInt z) : stoi (numeral z) = .ok z := by
  rw [stoi, toInt?_numeral]
  exact if_pos h

theorem stoi_decimal {n : ℕ} (h : FitsInt n) : stoi (decimal n) = .ok (n : ℤ) :=
  stoi_numeral h

theorem fitsInt_natCast {m : ℕ} (h : m < 2 ^ 31) : FitsInt m :=
  ⟨by omega, by exact_mod_cast h⟩

/-- An array of the program, whose elements are of type `int`. -/
def toInts (l : List ℕ) : List ℤ := l.map fun v : ℕ => (v : ℤ)

/-- Numbers in a line: a blank behind every number, or between them only. -/
def lineText (trailing : Bool) (xs : List ℤ) : List Char :=
  if trailing then (xs.map numeral).flatMap (· ++ [' ']) else [' '].intercalate (xs.map numeral)

variable {trailing : Bool} {xs : List ℤ}

/-- What is written element by element is read element by element. -/
theorem mapM_map_eq_ok {α β : Type} {read : β → Except Abort α} {write : α → β} {l : List α}
    (h : ∀ x ∈ l, read (write x) = .ok x) : (l.map write).mapM read = .ok l := by
  induction l with
  | nil => rfl
  | cons x xs ih =>
    rw [List.map_cons, List.mapM_cons, h x List.mem_cons_self,
      ih fun y hy => h y (List.mem_cons_of_mem x hy)]
    rfl

/-- The numbers of a line are read back. -/
theorem readInts_lineText (h : ∀ x ∈ xs, FitsInt x) : readInts (lineText trailing xs) = .ok xs := by
  have hblank : ∀ x ∈ xs.map numeral, ' ' ∉ x := by
    intro x hx
    obtain ⟨z, -, rfl⟩ := List.mem_map.mp hx
    exact notMem_numeral (by decide) (by decide) z
  have hfields : fields ' ' (lineText trailing xs) = xs.map numeral := by
    unfold lineText
    split
    · exact fields_flatMap hblank
    · refine fields_intercalate hblank fun hlast => ?_
      obtain ⟨z, -, hz⟩ := List.mem_map.mp (List.mem_of_getLast? hlast)
      exact numeral_ne_nil z hz
  rw [readInts, hfields]
  exact mapM_map_eq_ok fun x hx => stoi_numeral (h x hx)

/-- A line of numbers has no line end in it. -/
theorem notMem_lineText : '\n' ∉ lineText trailing xs := by
  have hnl : ∀ z, '\n' ∉ numeral z := notMem_numeral (by decide) (by decide)
  unfold lineText
  split
  · simp [hnl]
  · induction xs with
    | nil => simp
    | cons x xs ih =>
      cases xs with
      | nil => simpa using hnl x
      | cons y ys =>
        rw [List.map_cons, List.map_cons, List.intercalate_cons_cons]
        simpa [hnl] using ih

/-! ## The graph and the features -/

/-- A text of lines: a line end behind every line, or between them only. -/
def linesText (trailing : Bool) (lines : List (List Char)) : List Char :=
  if trailing then lines.flatMap (· ++ ['\n']) else ['\n'].intercalate lines

/-- A graph file. -/
def graphText (blank newline : Bool) (rowPtr colIdx : List ℤ) : List Char :=
  linesText newline [lineText blank rowPtr, lineText blank colIdx]

/-- A feature file. -/
def xwText (blank newline : Bool) (rows : List (List ℤ)) : List Char :=
  linesText newline (rows.map (lineText blank))

variable {blank newline : Bool} {rowPtr colIdx : List ℤ} {xw : List (List ℤ)}

/-- Both arrays of a graph are read back, with or without an end of the last line, and also
when there is no edge. -/
theorem readGraph_graphText (hrow : ∀ x ∈ rowPtr, FitsInt x) (hcol : ∀ x ∈ colIdx, FitsInt x) :
    readGraph (some (graphText blank newline rowPtr colIdx)) = .ok (rowPtr, colIdx) := by
  have hlines : graphLines (graphText blank newline rowPtr colIdx) =
      (lineText blank rowPtr, lineText blank colIdx) := by
    have htext : ∃ rest, (rest = [] ∨ rest = ['\n']) ∧ graphText blank newline rowPtr colIdx =
        lineText blank rowPtr ++ '\n' :: (lineText blank colIdx ++ rest) := by
      unfold graphText linesText
      split
      · exact ⟨['\n'], .inr rfl, by simp⟩
      · exact ⟨[], .inl rfl, by simp [List.intercalate_cons_cons]⟩
    obtain ⟨rest, hrest, htext⟩ := htext
    have hsecond : upTo '\n' (lineText blank colIdx ++ rest) = lineText blank colIdx := by
      rcases hrest with rfl | rfl
      · rw [List.append_nil, upTo_of_notMem notMem_lineText]
      · exact upTo_append notMem_lineText []
    rw [graphLines, htext, if_pos (by simp), upTo_append notMem_lineText,
      after_append notMem_lineText, hsecond]
  rw [readGraph, hlines, readInts_lineText hrow, readInts_lineText hcol]
  rfl

/-- A graph file that ends within its first line is no error: the row pointer is read a
second time, as the columns. -/
theorem readGraph_lineText (hrow : ∀ x ∈ rowPtr, FitsInt x) :
    readGraph (some (lineText blank rowPtr)) = .ok (rowPtr, rowPtr) := by
  rw [readGraph, graphLines, if_neg notMem_lineText, readInts_lineText hrow]
  rfl

theorem lineText_ne_nil (h : xs ≠ []) : lineText trailing xs ≠ [] := by
  cases xs with
  | nil => exact absurd rfl h
  | cons x xs =>
    unfold lineText
    split
    · simp
    · cases xs with
      | nil => simpa using numeral_ne_nil x
      | cons y ys => simp [List.intercalate_cons_cons]

/-- The rows of a matrix are read back; without an end of the last line it must not be
empty. -/
theorem readXw_xwText (h : ∀ row ∈ xw, ∀ x ∈ row, FitsInt x) (hne : ∀ row ∈ xw, row ≠ []) :
    readXw (some (xwText blank newline xw)) = .ok xw := by
  have hnl : ∀ line ∈ xw.map (lineText blank), '\n' ∉ line := by
    intro line hline
    obtain ⟨row, -, rfl⟩ := List.mem_map.mp hline
    exact notMem_lineText
  have hfields : fields '\n' (xwText blank newline xw) = xw.map (lineText blank) := by
    unfold xwText linesText
    split
    · exact fields_flatMap hnl
    · refine fields_intercalate hnl fun hlast => ?_
      obtain ⟨row, hrow, hempty⟩ := List.mem_map.mp (List.mem_of_getLast? hlast)
      exact lineText_ne_nil (hne row hrow) hempty
  rw [readXw, hfields]
  exact mapM_map_eq_ok fun row hrow => readInts_lineText (h row hrow)

end Sgcn

-- SUMMARY: Texts as lists of characters: pieces between delimiters, first occurrences, and decimal numerals.
import Mathlib.Data.List.TakeWhile
import Mathlib.Data.Int.Notation

/-!
# Texts

A text is a list of characters. Reading it up to a delimiter again and again yields its
pieces (`fields`); a text written with a delimiter behind every piece, or between them, is
read back. `find` is the first occurrence of a pattern, and `toInt?` the number that a text
begins with.
-/

namespace Text

/-! ## Pieces -/

/-- The pieces of a text, `cur` being what has been read of the first one. What follows the
last delimiter is a piece unless it is empty. -/
def fieldsFrom (d : Char) : List Char → List Char → List (List Char)
  | cur, [] => if cur.isEmpty then [] else [cur]
  | cur, c :: cs => if c = d then cur :: fieldsFrom d [] cs else fieldsFrom d (cur ++ [c]) cs

/-- The pieces of a text between delimiters. -/
def fields (d : Char) (l : List Char) : List (List Char) := fieldsFrom d [] l

variable {d : Char} {x cur : List Char} {xs : List (List Char)}

@[simp] theorem fields_nil : fields d [] = [] := rfl

theorem fieldsFrom_append (hx : d ∉ x) (rest : List Char) :
    fieldsFrom d cur (x ++ d :: rest) = (cur ++ x) :: fields d rest := by
  induction x generalizing cur with
  | nil => simp [fieldsFrom, fields]
  | cons c x ih =>
    obtain ⟨hne, hx⟩ := not_or.mp (mt List.mem_cons.mpr hx)
    rw [List.cons_append, fieldsFrom, if_neg (Ne.symm hne), ih hx, List.append_assoc]
    rfl

theorem fieldsFrom_of_notMem (hx : d ∉ x) :
    fieldsFrom d cur x = if (cur ++ x).isEmpty then [] else [cur ++ x] := by
  induction x generalizing cur with
  | nil => simp [fieldsFrom]
  | cons c x ih =>
    obtain ⟨hne, hx⟩ := not_or.mp (mt List.mem_cons.mpr hx)
    rw [fieldsFrom, if_neg (Ne.symm hne), ih hx, List.append_assoc]
    rfl

/-- A piece is read up to its delimiter. -/
theorem fields_append (hx : d ∉ x) (rest : List Char) :
    fields d (x ++ d :: rest) = x :: fields d rest :=
  fieldsFrom_append hx rest

theorem fields_of_notMem (hx : d ∉ x) : fields d x = if x.isEmpty then [] else [x] :=
  fieldsFrom_of_notMem hx

/-- Pieces with a delimiter behind each of them are read back, and what follows is read
after them. -/
theorem fields_flatMap_append (hxs : ∀ x ∈ xs, d ∉ x) (rest : List Char) :
    fields d (xs.flatMap (· ++ [d]) ++ rest) = xs ++ fields d rest := by
  induction xs with
  | nil => rfl
  | cons x xs ih =>
    rw [List.flatMap_cons, List.append_assoc, List.append_assoc, List.singleton_append,
      fields_append (hxs x List.mem_cons_self),
      ih fun y hy => hxs y (List.mem_cons_of_mem x hy)]
    rfl

theorem fields_flatMap (hxs : ∀ x ∈ xs, d ∉ x) : fields d (xs.flatMap (· ++ [d])) = xs := by
  have h := fields_flatMap_append hxs []
  rwa [List.append_nil, fields_nil, List.append_nil] at h

/-- Pieces with a delimiter between them are read back, but for a last one that is empty. -/
theorem fields_intercalate (hxs : ∀ x ∈ xs, d ∉ x) (hlast : xs.getLast? ≠ some []) :
    fields d ([d].intercalate xs) = xs := by
  induction xs with
  | nil => rfl
  | cons x xs ih =>
    have hx := hxs x List.mem_cons_self
    cases xs with
    | nil =>
      have hne : x ≠ [] := by simpa using hlast
      rw [List.intercalate_singleton, fields_of_notMem hx, if_neg (by simpa using hne)]
    | cons y ys =>
      have hread := ih (fun z hz => hxs z (List.mem_cons_of_mem x hz))
        (by rwa [List.getLast?_cons_cons] at hlast)
      rw [List.intercalate_cons_cons, List.append_assoc, List.singleton_append, fields_append hx,
        hread]

/-- A text up to the first delimiter. -/
def upTo (d : Char) (l : List Char) : List Char := l.takeWhile (· ≠ d)

/-- What follows the first delimiter. -/
def after (d : Char) (l : List Char) : List Char := (l.dropWhile (· ≠ d)).tail

theorem upTo_append (hx : d ∉ x) (rest : List Char) : upTo d (x ++ d :: rest) = x := by
  rw [upTo, List.takeWhile_append_of_pos (fun c hc => by simpa using ne_of_mem_of_not_mem hc hx),
    List.takeWhile_cons, if_neg (by simp), List.append_nil]

theorem upTo_of_notMem (hx : d ∉ x) : upTo d x = x :=
  List.takeWhile_eq_self_iff.mpr fun c hc => by simpa using ne_of_mem_of_not_mem hc hx

theorem after_append (hx : d ∉ x) (rest : List Char) : after d (x ++ d :: rest) = rest := by
  rw [after, List.dropWhile_append_of_pos (fun c hc => by simpa using ne_of_mem_of_not_mem hc hx),
    List.dropWhile_cons, if_neg (by simp), List.tail_cons]

/-! ## First occurrences -/

/-- Where a pattern first occurs. -/
def find (p : List Char) : List Char → Option ℕ
  | [] => if p.isEmpty then some 0 else none
  | c :: cs => if p.isPrefixOf (c :: cs) then some 0 else (find p cs).map (· + 1)

theorem find_of_starts {p l : List Char} (h : p <+: l) : find p l = some 0 := by
  cases l with
  | nil => simp [find, List.prefix_nil.mp h]
  | cons c cs => rw [find, if_pos (List.isPrefixOf_iff_prefix.mpr h)]

theorem find_cons_of_not_starts {p cs : List Char} {c : Char} (h : ¬ p <+: c :: cs) :
    find p (c :: cs) = (find p cs).map (· + 1) := by
  rw [find, if_neg (mt List.isPrefixOf_iff_prefix.mp h)]

/-- A single character occurs first behind a text without it. -/
theorem find_singleton (hx : d ∉ x) (rest : List Char) :
    find [d] (x ++ d :: rest) = some x.length := by
  induction x with
  | nil => exact find_of_starts (List.prefix_append [d] rest)
  | cons c x ih =>
    obtain ⟨hne, hx⟩ := not_or.mp (mt List.mem_cons.mpr hx)
    rw [List.cons_append, find_cons_of_not_starts, ih hx]
    · rfl
    · intro hpre
      obtain ⟨t, ht⟩ := hpre
      cases ht
      exact hne rfl

theorem find_singleton_eq_none (hx : d ∉ x) : find [d] x = none := by
  induction x with
  | nil => rfl
  | cons c x ih =>
    obtain ⟨hne, hx⟩ := not_or.mp (mt List.mem_cons.mpr hx)
    rw [find_cons_of_not_starts, ih hx]
    · rfl
    · intro hpre
      obtain ⟨t, ht⟩ := hpre
      cases ht
      exact hne rfl

/-- A character between two others occurs first behind a text without it. -/
theorem find_triple {a b : Char} (hx : d ∉ x) (ha : a ≠ d) (rest : List Char) :
    find [a, d, b] (x ++ a :: d :: b :: rest) = some x.length := by
  induction x with
  | nil => exact find_of_starts (List.prefix_append [a, d, b] rest)
  | cons c x ih =>
    obtain ⟨-, hx⟩ := not_or.mp (mt List.mem_cons.mpr hx)
    rw [List.cons_append, find_cons_of_not_starts, ih hx]
    · rfl
    · -- the second character of an earlier occurrence would be `d`
      rintro ⟨t, ht⟩
      cases x with
      | nil =>
        simp only [List.nil_append, List.cons_append, List.cons.injEq] at ht
        exact ha ht.2.1.symm
      | cons c' x =>
        simp only [List.nil_append, List.cons_append, List.cons.injEq] at ht
        exact hx (by simp [ht.2.1])

theorem find_triple_eq_none {a b : Char} (hx : d ∉ x) : find [a, d, b] x = none := by
  induction x with
  | nil => rfl
  | cons c x ih =>
    obtain ⟨-, hx⟩ := not_or.mp (mt List.mem_cons.mpr hx)
    rw [find_cons_of_not_starts, ih hx]
    · rfl
    · rintro ⟨t, ht⟩
      simp only [List.cons_append, List.nil_append, List.cons.injEq] at ht
      exact hx (by rw [← ht.2]; exact List.mem_cons_self)

/-! ## Numerals -/

/-- The characters that `isspace` accepts. -/
def isSpace (c : Char) : Bool := c ∈ [' ', '\t', '\n', '\x0b', '\x0c', '\r']

/-- The number of the digits that a text begins with, if there are any. -/
def leadingNat? (l : List Char) : Option ℕ :=
  let ds := l.takeWhile Char.isDigit
  if ds.isEmpty then none else some (Nat.ofDigitChars 10 ds 0)

/-- The number that a text begins with: blanks, a sign if there is one, and digits. What
follows is not looked at. -/
def toInt? (l : List Char) : Option ℤ :=
  match l.dropWhile isSpace with
  | '-' :: ds => (leadingNat? ds).map fun n : ℕ => -(n : ℤ)
  | '+' :: ds => (leadingNat? ds).map fun n : ℕ => (n : ℤ)
  | ds => (leadingNat? ds).map fun n : ℕ => (n : ℤ)

/-- The decimal numeral of a number. -/
def decimal (n : ℕ) : List Char := Nat.toDigits 10 n

theorem isDigit_of_mem_decimal {n : ℕ} {c : Char} (h : c ∈ decimal n) : c.isDigit = true :=
  Nat.isDigit_of_mem_toDigits (by decide) (by decide) h

/-- A numeral contains no character that is not a digit. -/
theorem notMem_decimal {c : Char} (hc : c.isDigit = false) (n : ℕ) : c ∉ decimal n := by
  intro hmem
  rw [isDigit_of_mem_decimal hmem] at hc
  cases hc

theorem decimal_ne_nil (n : ℕ) : decimal n ≠ [] := Nat.toDigits_ne_nil

/-- A numeral is read back, whatever follows it that is not a digit. -/
theorem leadingNat?_decimal (n : ℕ) {rest : List Char} (hrest : ∀ c ∈ rest.head?, c.isDigit = false) :
    leadingNat? (decimal n ++ rest) = some n := by
  have htail : rest.takeWhile Char.isDigit = [] := by
    cases rest with
    | nil => rfl
    | cons c cs => rw [List.takeWhile_cons, if_neg (by simp [hrest c rfl])]
  have hdigits : (decimal n ++ rest).takeWhile Char.isDigit = decimal n := by
    rw [List.takeWhile_append_of_pos fun c hc => isDigit_of_mem_decimal hc, htail, List.append_nil]
  rw [leadingNat?, hdigits, if_neg (by simpa using decimal_ne_nil n), decimal,
    Nat.ofDigitChars_ten_toDigits]

theorem toInt?_decimal (n : ℕ) {rest : List Char} (hrest : ∀ c ∈ rest.head?, c.isDigit = false) :
    toInt? (decimal n ++ rest) = some (n : ℤ) := by
  obtain ⟨c, cs, hcs⟩ := List.exists_cons_of_ne_nil (decimal_ne_nil n)
  have hdigit : c.isDigit = true := isDigit_of_mem_decimal (by rw [hcs]; exact List.mem_cons_self)
  have hdrop : (decimal n ++ rest).dropWhile isSpace = decimal n ++ rest := by
    rw [hcs, List.cons_append, List.dropWhile_cons, if_neg]
    intro hspace
    simp only [isSpace, List.mem_cons, List.not_mem_nil, or_false, decide_eq_true_eq] at hspace
    rcases hspace with rfl | rfl | rfl | rfl | rfl | rfl <;> exact absurd hdigit (by decide)
  have hread := leadingNat?_decimal n hrest
  rw [toInt?, hdrop]
  -- a numeral begins with no sign
  split
  · next heq =>
    rw [hcs, List.cons_append] at heq
    cases heq
    exact absurd hdigit (by decide)
  · next heq =>
    rw [hcs, List.cons_append] at heq
    cases heq
    exact absurd hdigit (by decide)
  · rw [hread]
    rfl

/-- The numeral of an integer. -/
def numeral : ℤ → List Char
  | .ofNat n => decimal n
  | .negSucc n => '-' :: decimal (n + 1)

theorem notMem_numeral {c : Char} (hc : c.isDigit = false) (hsign : c ≠ '-') (z : ℤ) :
    c ∉ numeral z := by
  cases z with
  | ofNat n => exact notMem_decimal hc n
  | negSucc n =>
    intro hmem
    rcases List.mem_cons.mp hmem with rfl | hmem
    · exact hsign rfl
    · exact notMem_decimal hc (n + 1) hmem

theorem numeral_ne_nil (z : ℤ) : numeral z ≠ [] := by
  cases z with
  | ofNat n => exact decimal_ne_nil n
  | negSucc n => exact List.cons_ne_nil _ _

theorem toInt?_numeral (z : ℤ) : toInt? (numeral z) = some z := by
  cases z with
  | ofNat n =>
    have h : toInt? (decimal n ++ []) = some (n : ℤ) := toInt?_decimal n (by simp)
    rwa [List.append_nil] at h
  | negSucc n =>
    have h : leadingNat? (decimal (n + 1) ++ []) = some (n + 1) :=
      leadingNat?_decimal (n + 1) (by simp)
    rw [List.append_nil] at h
    have hdrop : ('-' :: decimal (n + 1)).dropWhile isSpace = '-' :: decimal (n + 1) := rfl
    rw [numeral, toInt?, hdrop]
    simp only [h, Option.map_some, Int.negSucc_eq, Int.natCast_add, Int.cast_ofNat_Int]

end Text

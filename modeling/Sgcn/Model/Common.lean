-- SUMMARY: Data types of the simulator (`common.h`), its machine arithmetic, and the CSR arrays of a graph.
import Sgcn.Base.Rounding
import Mathlib.Logic.Function.Basic

/-!
# Common data

The records of `common.h`, restricted to the fields the modelled functions read
or write. An `int` that the program only ever counts up is a natural number; an
`int` that it may drive below zero is an integer. A `vector` indexed by the
engine number is a function of the engine number, and a queue is a list with
its front at the head.
-/

namespace Sgcn

/-! ## Constants -/

/-- `CACHE_LINE_COUNT`: four-byte elements in a cache line. -/
@[simp] def cacheLineCount : ℕ := 16

/-- `CACHE_LINE_BYTE`. -/
@[simp] def cacheLineByte : ℕ := 64

/-- `REQUEST_LIMIT`: the length from which the transaction queue refuses. -/
def requestLimit : ℕ := 10240

/-! ## Machine arithmetic -/

/-- Conversion to a 32-bit `int`. -/
def int32 (z : ℤ) : ℤ := Int.bmod z (2 ^ 32)

/-- Conversion to a `uint64_t`. -/
def uint64 (z : ℤ) : ℕ := (z % 2 ^ 64).toNat

theorem int32_eq {z : ℤ} (hlo : 0 ≤ z) (hhi : z < 2 ^ 31) : int32 z = z := by
  unfold int32
  rw [Int.bmod_def]
  split_ifs <;> omega

/-- A non-negative count never gains from the conversion, and keeps its value
exactly when it fits. -/
theorem int32_le {z : ℤ} (hlo : 0 ≤ z) : int32 z ≤ z := by
  unfold int32
  rw [Int.bmod_def]
  split_ifs <;> omega

theorem int32_lt (z : ℤ) : int32 z < 2 ^ 31 := by
  unfold int32
  rw [Int.bmod_def]
  split_ifs <;> omega

theorem uint64_eq {z : ℤ} (hlo : 0 ≤ z) (hhi : z < 2 ^ 64) : (uint64 z : ℤ) = z := by
  unfold uint64
  omega

/-- `(float)n` for a count `n`. -/
def toFloat (n : ℕ) : ℚ := Fp.ofNat 24 n

/-- `x / n` for a `float` `x` and an `int` `n`. -/
def floatDiv (x : ℚ) (n : ℕ) : ℚ := Fp.div 24 x (toFloat n)

/-- `ceil((float)a / b)` stored in an `int`. -/
def ceilDiv (a b : ℕ) : ℕ := ⌈floatDiv (toFloat a) b⌉₊

theorem ceilDiv_eq {a b : ℕ} (ha : a ≤ 2 ^ 24) (hb : 0 < b) :
    ceilDiv a b = (a + b - 1) / b :=
  Fp.ceil_div_ofNat (by decide) ha hb

theorem toFloat_pos {n : ℕ} (h : 0 < n) : 0 < toFloat n :=
  Fp.ofNat_pos (by decide) h

theorem floatDiv_pos {x : ℚ} {n : ℕ} (hx : 0 < x) (hn : 0 < n) : 0 < floatDiv x n :=
  Fp.div_pos (by decide) hx (toFloat_pos hn)

theorem ceilDiv_pos {a b : ℕ} (ha : 0 < a) (hb : 0 < b) : 0 < ceilDiv a b :=
  Nat.ceil_pos.mpr (floatDiv_pos (toFloat_pos ha) hb)

/-- The lines of one of `n` parts of `a` elements. -/
theorem ceil_floatDiv_cacheLineCount {a n : ℕ} (ha : 0 < a) (hap : a ≤ 2 ^ 24) (hn : 0 < n)
    (hnp : n ≤ 2 ^ 24) : ⌈floatDiv (floatDiv (toFloat a) n) cacheLineCount⌉₊ =
      (a + n * cacheLineCount - 1) / (n * cacheLineCount) := by
  have hline : toFloat cacheLineCount = 2 ^ 4 := by
    rw [toFloat, Fp.ofNat_eq (by decide) (by decide)]
    norm_num
  unfold floatDiv
  rw [hline]
  exact Fp.ceil_div_div_two_pow (by decide) ha hap hn hnp 4

/-- A division by a power of two: the dividend is rounded, and the rest is exact. -/
theorem ceilDiv_two_pow (a : ℕ) {k : ℕ} (hk : k ≤ 24) :
    ceilDiv a (2 ^ k) = (Fp.roundNat 24 a + 2 ^ k - 1) / 2 ^ k := by
  have hpow : toFloat (2 ^ k) = 2 ^ k := by
    rw [toFloat, Fp.ofNat_eq (by decide) (Nat.pow_le_pow_right two_pos hk)]
    push_cast
    rfl
  rw [ceilDiv, floatDiv, hpow, toFloat, Fp.div_ofNat_two_pow (by decide),
    Fp.ofNat_eq_roundNat (by decide), ← Fp.ceil_natCast_div _ (Nat.two_pow_pos k)]
  push_cast
  rfl

@[simp] theorem ceilDiv_zero (b : ℕ) : ceilDiv 0 b = 0 := by
  simp [ceilDiv, floatDiv, toFloat, Fp.ofNat, Fp.div]

/-- Dividing a count by one changes nothing, not even for counts that were rounded. -/
theorem floatDiv_toFloat_one (n : ℕ) : floatDiv (toFloat n) 1 = toFloat n := by
  have hone : toFloat 1 = 1 := by
    have h := Fp.ofNat_eq (p := 24) (n := 1) (by decide) (by decide)
    simpa [toFloat] using h
  rcases Nat.eq_zero_or_pos n with rfl | hpos
  · simp [floatDiv, toFloat, Fp.ofNat, Fp.div]
  · rw [floatDiv, Fp.div, hone, div_one]
    exact Fp.round_round (by decide) (by exact_mod_cast hpos)

/-- One element more, and the quotient is too small. -/
theorem ceilDiv_two_pow_add_one : ceilDiv (2 ^ 24 + 1) 1 = 2 ^ 24 := by
  rw [ceilDiv, floatDiv_toFloat_one, toFloat, Fp.ofNat_two_pow_add_one (by decide)]
  exact_mod_cast Nat.ceil_natCast (2 ^ 24)

/-! ## Enumerations -/

/-- `R_TYPE`: what kind of graph data a reply carries. -/
inductive RType where
  | row | column | value | empty
  deriving DecidableEq, Repr

/-- `F_MODE`: how the feature matrix is stored. -/
inductive FMode where
  | xCmp | mat | csr | xFullCmp
  deriving DecidableEq, Repr

/-- `GNN_MODE`: whether the edges carry values. -/
inductive GnnMode where
  | gcn | other
  deriving DecidableEq, Repr

/-! ## Records -/

/-- `ArchInfo`. `lacWidth` is `-1` or `0` until `LAC` replaces it by a width. -/
structure ArchInfo where
  nOfEngine : ℕ
  cacheWay : ℕ
  cacheSet : ℕ
  urb : ℕ
  bf : ℕ
  lacWidth : ℤ
  xUnit : ℕ
  mode : FMode
  gnnMode : GnnMode
  dValueAddrStart : ℕ := 0
  aRowAddrStart : ℕ := 0
  aColAddrStart : ℕ := 0
  xwEleAddrStart : ℕ := 0
  axwAddrStart : ℕ := 0

/-- `DataInfo`. -/
structure DataInfo where
  aH : ℕ
  aW : ℕ
  xH : ℕ
  xW : ℕ
  nTiles : ℕ
  totalUrb : ℕ

/-- `DataIndex`, one record per engine. -/
structure DataIndex where
  valueAddrStart : ℕ := 0
  valueAddrEnd : ℕ := 0
  rowAddrStart : ℕ := 0
  rowAddrEnd : ℕ := 0
  colAddrStart : ℕ := 0
  colAddrEnd : ℕ := 0
  row : ℕ := 0
  zeroRow : ℕ := 0
  totalWrite : ℤ := 0

/-- `EdgeInfo`. The dummy record with `dst = -1` is modelled by `none` where one
of these is optional. -/
structure EdgeInfo where
  id : ℕ
  isLast : Bool
  dst : ℕ
  vFold : ℕ
  deriving DecidableEq, Repr

/-- `Transaction`. -/
structure Transaction where
  address : ℕ
  isWrite : Bool
  deriving DecidableEq, Repr

/-- The global variables of the simulator. -/
structure Globals where
  archInfo : ArchInfo
  dataInfo : DataInfo
  dataIndex : ℕ → DataIndex
  rowPtr : ℕ → List ℕ
  colIdx : ℕ → List ℕ
  xToAddr : ℕ → List ℕ
  totalWrite : ℕ

/-! ## Compressed sparse rows -/

/-- `v[i]`, for an index that the program keeps in range. -/
def vget (l : List ℕ) (i : ℕ) : ℕ := l.getD i 0

theorem vget_eq_getElem {l : List ℕ} {i : ℕ} (h : i < l.length) : vget l i = l[i] := by
  simp [vget, h]

theorem getElem?_eq_vget {l : List ℕ} {i : ℕ} (h : i < l.length) : l[i]? = some (vget l i) := by
  rw [vget_eq_getElem h, List.getElem?_eq_getElem h]

/-- The elements at positions `lo, …, hi - 1` of a vector. -/
def slice (l : List ℕ) (lo hi : ℕ) : List ℕ := (l.drop lo).take (hi - lo)

/-- `rowPtr` and `colIdx` are a valid CSR: the row pointer starts at zero, does
not decrease, and ends at the number of edges. -/
structure ValidCsr (rowPtr colIdx : List ℕ) : Prop where
  head : rowPtr.head? = some 0
  sorted : rowPtr.Pairwise (· ≤ ·)
  last : rowPtr.getLast? = some colIdx.length

/-- A square graph in CSR form, with every column naming a vertex. -/
structure Graph where
  rowPtr : List ℕ
  colIdx : List ℕ
  valid : ValidCsr rowPtr colIdx
  col_lt : ∀ c ∈ colIdx, c < rowPtr.length - 1

/-- The rows a CSR lists, each as its columns in order. -/
def csrRows (rowPtr colIdx : List ℕ) : List (List ℕ) :=
  (List.range (rowPtr.length - 1)).map fun j =>
    slice colIdx (vget rowPtr j) (vget rowPtr (j + 1))

end Sgcn

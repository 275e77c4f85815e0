-- SUMMARY: What `ReadIni` and `ParseIni` make of the configurations that `ini_maker.py` writes.
import Sgcn.Files.Data
import Sgcn.Model.Scripts

/-!
# The configuration

`ini_maker.py` writes one entry a line, with blank lines between some of them. `ReadIni` puts
every entry into its table, and `ParseIni` finds all that it looks for there.
-/

namespace Sgcn

open Text

/-- A key is read up to ` = `, and the rest of the line is its value. -/
theorem iniLine_iniEntry {k : List Char} (hk : '=' ∉ k) (v : List Char) :
    iniLine (iniEntry k v) = (k, v) := by
  have hfind : find " = ".toList (k ++ " = ".toList ++ v) = some k.length := by
    rw [List.append_assoc]
    exact find_triple hk (by decide) v
  simp only [iniLine, iniEntry, hfind]
  simp

theorem notMem_iniEntry {k v : List Char} (hk : '\n' ∉ k) (hv : '\n' ∉ v) :
    '\n' ∉ iniEntry k v := by
  simp [iniEntry, hk, hv]

/-- The lines of a configuration that `ini_maker.py` writes. -/
def iniLines (c u n bf : List Char) : List (List Char) :=
  [iniEntry "CacheSize".toList c, iniEntry "UnitSize".toList u,
    iniEntry "CacheWay".toList "16".toList, [], iniEntry "NumberOfEngine".toList n, [],
    iniEntry "BF".toList bf, [],
    iniEntry "MemoryType".toList "DRAMsim3/configs/HBM2_8Gb_x128.ini".toList]

variable {c u n bf : List Char}

theorem iniMaker_eq : iniMaker c u n bf = (iniLines c u n bf).flatMap (· ++ ['\n']) := by
  simp only [iniMaker, iniLines, List.flatMap_cons, List.flatMap_nil, List.append_assoc,
    List.nil_append, List.cons_append, List.append_nil]

/-- The table that such a configuration gives. -/
theorem readIni_iniMaker (hc : '\n' ∉ c) (hu : '\n' ∉ u) (hn : '\n' ∉ n) (hbf : '\n' ∉ bf) :
    ∃ t : IniTable, readIni (some (iniMaker c u n bf)) = .ok t ∧
      t "CacheSize".toList = some c ∧ t "UnitSize".toList = some u ∧
      t "CacheWay".toList = some "16".toList ∧ t "NumberOfEngine".toList = some n ∧
      t "BF".toList = some bf ∧
      t "MemoryType".toList = some "DRAMsim3/configs/HBM2_8Gb_x128.ini".toList := by
  have hlines : fields '\n' (iniMaker c u n bf) = iniLines c u n bf := by
    rw [iniMaker_eq]
    refine fields_flatMap ?_
    simp only [iniLines, List.forall_mem_cons, List.not_mem_nil, not_false_eq_true, true_and]
    refine ⟨notMem_iniEntry (by decide) hc, notMem_iniEntry (by decide) hu,
      notMem_iniEntry (by decide) (by decide), notMem_iniEntry (by decide) hn,
      notMem_iniEntry (by decide) hbf, notMem_iniEntry (by decide) (by decide), nofun⟩
  refine ⟨_, by rw [readIni, hlines], ?_⟩
  have hblank : iniLine [] = ([], []) := rfl
  simp only [iniLines, List.foldl_cons, List.foldl_nil, IniTable.addLine, hblank,
    iniLine_iniEntry (show '=' ∉ "CacheSize".toList by decide),
    iniLine_iniEntry (show '=' ∉ "UnitSize".toList by decide),
    iniLine_iniEntry (show '=' ∉ "CacheWay".toList by decide),
    iniLine_iniEntry (show '=' ∉ "NumberOfEngine".toList by decide),
    iniLine_iniEntry (show '=' ∉ "BF".toList by decide),
    iniLine_iniEntry (show '=' ∉ "MemoryType".toList by decide)]
  simp [Function.update]

/-- The bytes of a cache of `size` units. -/
def cacheBytes (size : ℕ) (u : List Char) : ℕ :=
  if u = "KB".toList then size * 1024 else size * (1024 * 1024)

theorem getInt_eq_ok {t : IniTable} {name : List Char} {m : ℕ} (ht : t name = some (decimal m))
    (h : m < 2 ^ 31) : t.getInt name = .ok (m : ℤ) := by
  rw [IniTable.getInt, ht]
  exact stoi_decimal (fitsInt_natCast h)

theorem getString_eq_ok {t : IniTable} {name v : List Char} (ht : t name = some v)
    (hv : '"' ∉ v) : t.getString name = .ok v := by
  have hfind : find "\"".toList v = none := find_singleton_eq_none hv
  rw [IniTable.getString, ht]
  simp only [hfind, if_true]

theorem intDiv_natCast {a b : ℕ} (ha : a < 2 ^ 31) (hb : 0 < b) :
    intDiv a b = .ok ((a / b : ℕ) : ℤ) := by
  have hle : a / b ≤ a := Nat.div_le_self a b
  rw [intDiv, if_neg (by exact_mod_cast hb.ne'), ← Int.ofNat_tdiv, checked,
    if_pos (fitsInt_natCast (hle.trans_lt ha))]

/-- What `ParseIni` makes of a configuration that `ini_maker.py` writes. -/
def IniInfo.ofMaker (size : ℕ) (u : List Char) (n bf : ℕ) : IniInfo where
  cacheSize := cacheBytes size u
  cacheWay := 16
  cacheSet := (cacheBytes size u / 16 / 64 : ℕ)
  nOfEngine := n
  bf := bf
  memType := "DRAMsim3/configs/HBM2_8Gb_x128.ini".toList
  logMemType := "HBM2".toList
  logCacheSize := (cacheBytes size u / (1024 * 1024) : ℕ)

theorem readIni_parseIni_iniMaker {size n bf : ℕ} (hu : '\n' ∉ u) (hq : '"' ∉ u)
    (hsize : cacheBytes size u < 2 ^ 31) (hn : n < 2 ^ 31) (hbf : bf < 2 ^ 31) :
    ∃ t, readIni (some (iniMaker (decimal size) u (decimal n) (decimal bf))) = .ok t ∧
      parseIni t = .ok (.ofMaker size u n bf) := by
  have hnl : ∀ m, '\n' ∉ decimal m := notMem_decimal (by decide)
  obtain ⟨t, ht, hcache, hunit, hway, hengine, hfold, hmem⟩ :=
    readIni_iniMaker (hnl size) hu (hnl n) (hnl bf)
  have hle : size ≤ cacheBytes size u := by
    unfold cacheBytes
    split <;> omega
  have hbytes : checked (if u = "KB".toList then (size : ℤ) * 1024 else size * (1024 * 1024)) =
      .ok (cacheBytes size u : ℤ) := by
    have hcast : (if u = "KB".toList then (size : ℤ) * 1024 else size * (1024 * 1024)) =
        cacheBytes size u := by
      unfold cacheBytes
      split <;> push_cast <;> rfl
    rw [hcast, checked, if_pos (fitsInt_natCast hsize)]
  have hways : (t.getInt "CacheWay".toList) = .ok ((16 : ℕ) : ℤ) :=
    getInt_eq_ok (by rw [hway]; rfl) (by decide)
  have hdiv : cacheBytes size u / 16 < 2 ^ 31 := (Nat.div_le_self _ _).trans_lt hsize
  have hback : back (split "DRAMsim3/configs/HBM2_8Gb_x128.ini".toList "/".toList) =
      .ok "HBM2_8Gb_x128.ini".toList := by decide
  have hfront : front (split "HBM2_8Gb_x128.ini".toList "_".toList) = .ok "HBM2".toList := by
    decide
  have hlog : (cacheBytes size u : ℤ).tdiv (1024 * 1024) =
      (cacheBytes size u / (1024 * 1024) : ℕ) := by
    rw [Int.ofNat_tdiv]
    norm_num
  refine ⟨t, ht, ?_⟩
  rw [parseIni, getInt_eq_ok hcache (hle.trans_lt hsize), ok_bind, getString_eq_ok hunit hq,
    ok_bind, hbytes, ok_bind, hways, ok_bind, intDiv_natCast hsize (by decide), ok_bind,
    intDiv_natCast hdiv (by decide), ok_bind, getInt_eq_ok hengine hn, ok_bind,
    getInt_eq_ok hfold hbf, ok_bind, getString_eq_ok hmem (by decide), ok_bind, hback, ok_bind,
    hfront, ok_bind, hlog]
  rfl

end Sgcn

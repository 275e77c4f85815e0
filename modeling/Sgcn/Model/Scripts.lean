-- SUMMARY: The scripts that write input files of the simulator: `ini_maker.py` and `utils/davc_maker.py`.
import Sgcn.Base.Rounding
import Sgcn.Base.Text
import Mathlib.Data.List.Sort

/-!
# The scripts

`ini_maker.py` writes configurations, and `davc_maker.py` chooses the vertices whose features
are to be cached: in every vertex tile those with the most incoming edges. A dictionary of
Python is a list of its items in the order in which the keys were inserted.
-/

namespace Sgcn

/-! ## `ini_maker.py` -/

/-- The text `key = value`. -/
def iniEntry (key value : List Char) : List Char := key ++ " = ".toList ++ value

/-- The text of the configuration that `ini_maker.py` writes for the options `-c`, `-u` and
`-n`, and an element of `bf_list`. -/
def iniMaker (c u n bf : List Char) : List Char :=
  iniEntry "CacheSize".toList c ++ ['\n'] ++
  (iniEntry "UnitSize".toList u ++ ['\n']) ++
  (iniEntry "CacheWay".toList "16".toList ++ ['\n', '\n']) ++
  (iniEntry "NumberOfEngine".toList n ++ ['\n', '\n']) ++
  (iniEntry "BF".toList bf ++ ['\n', '\n']) ++
  (iniEntry "MemoryType".toList "DRAMsim3/configs/HBM2_8Gb_x128.ini".toList ++ ['\n'])

/-! ## `davc_maker.py` -/

/-- A dictionary from destinations to their sources. -/
abbrev GDict := List (ℕ × List ℕ)

/-- One edge: the source is appended to those of a known destination, and a new destination
is inserted. -/
def GDict.addEdge (d : GDict) (src dst : ℕ) : GDict :=
  if d.any fun p => p.1 = dst then
    d.map fun p => if p.1 = dst then (p.1, p.2 ++ [src]) else p
  else d ++ [(dst, [src])]

/-- `tot_g_dict`. -/
def totGDict (edges : List (ℕ × ℕ)) : GDict :=
  edges.foldl (fun d e => d.addEdge e.1 e.2) []

/-- `max_idx`, increased by one for the end index. -/
def maxIdx (edges : List (ℕ × ℕ)) : ℕ :=
  edges.foldl (fun m e =>
    let m := if m < e.1 then e.1 else m
    if m < e.2 then e.2 else m) 0 + 1

/-- `vt_partial_idx` before the accumulation: `int(max_idx/t)` for every tile, a division of
integers that is rounded to a `float`, and one more for the first `max_idx%t` tiles. -/
def vtSizes (maxIdx t : ℕ) : List ℕ :=
  (List.range (maxIdx % t)).foldl (fun l i => l.modify i (· + 1))
    (List.replicate t ⌊Fp.div 53 maxIdx t⌋₊)

/-- `vt_partial_idx`: the end index of every tile. -/
def vtPartialIdx (maxIdx t : ℕ) : List ℕ :=
  if t = 1 then [maxIdx]
  else
    (List.range' 1 (t - 1)).foldl (fun l i => l.modify i (· + l.getD (i - 1) 0))
      (vtSizes maxIdx t)

/-- The tile that a destination goes to: the first one whose end index exceeds it. -/
def vtIdx (vtPartialIdx : List ℕ) (dst : ℕ) : Option ℕ :=
  vtPartialIdx.findIdx? fun e => decide (dst < e)

/-- `g_dicts[vt_i]`. -/
def gDict (vtPartialIdx : List ℕ) (totGDict : GDict) (vtI : ℕ) : GDict :=
  totGDict.filter fun p => vtIdx vtPartialIdx p.1 = some vtI

/-- `sorted_dict[:element_per_vts[vt_i]]`. The sort keeps the order of keys with as many
sources, although it is reversed. -/
def sortedDict (d : GDict) (elements : ℕ) : List ℕ :=
  ((d.mergeSort fun p q => decide (q.2.length ≤ p.2.length)).take elements).map Prod.fst

/-- `sorted_elements`. -/
def sortedElements (edges : List (ℕ × ℕ)) (s t : ℕ) : List ℕ :=
  (List.range t).flatMap fun vtI =>
    sortedDict (gDict (vtPartialIdx (maxIdx edges) t) (totGDict edges) vtI) (s * 1024)

/-- The text that `davc_maker.py` writes for the edges of its input and the options `-s` and
`-t`. Without a tile `max_idx%t` is an exception. -/
def davcMaker (edges : List (ℕ × ℕ)) (s t : ℕ) : Option (List Char) :=
  if t = 0 then none
  else some ((sortedElements edges s t).flatMap fun e => Text.decimal e ++ [' '])

end Sgcn

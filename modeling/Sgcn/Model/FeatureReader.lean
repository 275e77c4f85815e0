-- SUMMARY: The shared feature reader (`f_reader.cc`).
import Sgcn.Model.Memory
import Mathlib.Data.Finset.Basic

/-!
# The feature reader

One feature reader serves all engines. Per engine it keeps a queue `pq` of edges
to read and a queue `fq` of cache lines on their way to the SIMD unit; the set
`requested` and the cache are shared. In `fq` the value 0 marks the end of a row
and 1 stands for a line that was cached when it was entered.
-/

namespace Sgcn

/-- `F_STAT` and `FR_STAT` of one engine. -/
structure FrStat where
  isLast : Bool
  dst : ℕ
  vFold : ℕ
  curColIdx : ℕ
  pqReadNeed : Bool

/-- The feature reader with the cache and the memory its pointers reach. -/
structure FeatureReader where
  frs : ℕ → FrStat
  pq : ℕ → List EdgeInfo
  requested : Finset ℕ
  fq : ℕ → List ℕ
  cah : Cache
  mem : Memory

namespace FeatureReader

/-- `FeatureReader::FeatureReader`. -/
def init : FeatureReader where
  frs := fun _ => ⟨false, 0, 0, 0, true⟩
  pq := fun _ => []
  requested := ∅
  fq := fun _ => []
  cah := .init
  mem := .init

/-- `FeatureReader::EnterFtoList`. -/
def enterFtoList (s : FeatureReader) (ei : EdgeInfo) : FeatureReader :=
  { s with pq := Function.update s.pq ei.id (s.pq ei.id ++ [ei]) }

/-- `cah->Access(address)`. -/
def access (g : Globals) (s : FeatureReader) (address : ℕ) : Bool × FeatureReader :=
  let (hit, cah) := s.cah.access g.archInfo address
  (hit, { s with cah := cah })

/-- Enter `address` in `requested` and issue the read, unless it is there already. -/
def request (s : FeatureReader) (address : ℕ) : FeatureReader :=
  if address ∈ s.requested then s
  else
    { s with
      requested := insert address s.requested
      mem := s.mem.addTransaction ⟨address, false⟩ }

/-- `if (!cah->Access(a) && requested.find(a) == requested.end()) …`. -/
def fetch (g : Globals) (s : FeatureReader) (address : ℕ) : FeatureReader :=
  let (hit, s) := s.access g address
  if hit then s else s.request address

/-- `fq[id].push(v)`. -/
def pushFq (s : FeatureReader) (id v : ℕ) : FeatureReader :=
  { s with fq := Function.update s.fq id (s.fq id ++ [v]) }

def setFrs (s : FeatureReader) (id : ℕ) (f : FrStat) : FeatureReader :=
  { s with frs := Function.update s.frs id f }

/-- `FeatureReader::ConsumePendingQ`. -/
def consumePendingQ (s : FeatureReader) (id : ℕ) (ei : EdgeInfo) (rest : List EdgeInfo) :
    FeatureReader :=
  { s with
    pq := Function.update s.pq id rest
    frs := Function.update s.frs id ⟨ei.isLast, ei.dst, ei.vFold, 0, false⟩ }

/-- `FeatureReader::ReturnAddress`; a read outside the table is undefined. -/
def returnAddress (g : Globals) (row col fold : ℕ) : Option ℕ :=
  (g.xToAddr row)[fold * g.archInfo.urb + col]?

/-- The end of the current edge: ask for the next one, and mark the end of a row. -/
def endEdge (s : FeatureReader) (id : ℕ) (f : FrStat) : FeatureReader :=
  let s := s.setFrs id { f with pqReadNeed := true }
  if f.isLast then s.pushFq id 0 else s

/-- The test that another column of the current slice may follow. -/
def moreColumns (g : Globals) (f : FrStat) : Bool :=
  decide ((f.vFold * g.archInfo.urb + f.curColIdx : ℤ) ≠ g.dataInfo.totalUrb - 1 ∧
    (f.curColIdx : ℤ) ≠ g.archInfo.urb - 1)

/-- The `X_CMP` branch of `ReadNext`. A line that is cached when it is entered is
entered as 1. The next slot is looked up at once: an unmapped one ends the edge. -/
def readXCmp (g : Globals) (id : ℕ) (s : FeatureReader) : Option FeatureReader := do
  let f := s.frs id
  let fAddr ← returnAddress g f.dst f.curColIdx f.vFold
  let s := s.fetch g fAddr
  let (hit, s) := s.access g fAddr
  let s := s.pushFq id (if hit then 1 else fAddr)
  if moreColumns g f then
    let f := { f with curColIdx := f.curColIdx + 1 }
    let next ← returnAddress g f.dst f.curColIdx f.vFold
    if next = 0 then
      return s.endEdge id { f with curColIdx := g.archInfo.urb - 1 }
    else return s.setFrs id f
  else return s.endEdge id f

/-- The `MAT` branch of `ReadNext`. -/
def readMat (g : Globals) (id : ℕ) (s : FeatureReader) : Option FeatureReader := do
  let f := s.frs id
  let fAddr ← returnAddress g f.dst f.curColIdx f.vFold
  let s := (s.fetch g fAddr).pushFq id fAddr
  if moreColumns g f then
    return s.setFrs id { f with curColIdx := f.curColIdx + 1 }
  else return s.endEdge id f

/-- The `CSR` and the `X_FULL_CMP` branch of `ReadNext`, which are the same: the
header line has to be cached before the rest of the row is read. -/
def readHeaded (g : Globals) (id : ℕ) (s : FeatureReader) : Option FeatureReader := do
  let row := g.xToAddr (s.frs id).dst
  let body (s : FeatureReader) : Option FeatureReader := do
    let f := s.frs id
    let fAddr ← row[f.curColIdx]?
    let s := (s.fetch g fAddr).pushFq id fAddr
    if (f.curColIdx : ℤ) ≠ row.length - 1 then
      return s.setFrs id { f with curColIdx := f.curColIdx + 1 }
    else return s.endEdge id f
  if (s.frs id).curColIdx = 0 then
    let header ← row[0]?
    let (hit, s) := s.access g header
    if hit then body (s.setFrs id { s.frs id with curColIdx := 1 })
    else return s.request header
  else body s

/-- The mode dispatch of `ReadNext`. -/
def readMode (g : Globals) (id : ℕ) (s : FeatureReader) : Option FeatureReader :=
  match g.archInfo.mode with
  | .xCmp => readXCmp g id s
  | .mat => readMat g id s
  | .csr | .xFullCmp => readHeaded g id s

/-- `FeatureReader::ReadNext`. -/
def readNext (g : Globals) (id : ℕ) (s : FeatureReader) : Option FeatureReader :=
  if 256 ≤ (s.fq id).length ∨ ¬ s.mem.willAcceptTransaction then some s
  else if (s.frs id).pqReadNeed then
    match s.pq id with
    | [] => some s
    | ei :: rest => readMode g id (s.consumePendingQ id ei rest)
  else readMode g id s

/-- `FeatureReader::FeatureReceive`: every line in the reply queue enters the cache. -/
def featureReceive (g : Globals) (s : FeatureReader) : FeatureReader :=
  s.mem.fq.foldl (fun s address =>
      { s with
        cah := s.cah.insert g.archInfo address
        requested := s.requested.erase address
        mem := { s.mem with fq := s.mem.fq.tail } }) s

/-- `FeatureReader::PassFtoSIMD`: `-1` when the front line is not there yet, 0 when
it ends a row, 1 otherwise. -/
def passFtoSIMD (g : Globals) (id : ℕ) (s : FeatureReader) : ℤ × FeatureReader :=
  match s.fq id with
  | [] => (-1, s)
  | next :: rest =>
    let (hit, s) := if next = 1 then (true, s) else s.access g next
    if hit then
      match rest with
      | 0 :: rest' => (0, { s with fq := Function.update s.fq id rest' })
      | _ => (1, { s with fq := Function.update s.fq id rest })
    else (-1, s.request next)

end FeatureReader

end Sgcn

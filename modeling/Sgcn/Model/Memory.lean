-- SUMMARY: The memory front end (`memory.cc`) and the feature cache (`cache.cc`).
import Sgcn.Model.Common

/-!
# Memory and cache

`Memory` queues transactions for DRAMsim3 and sorts the replies. DRAMsim3 itself
is not modelled here: what it may do with an accepted transaction is part of the
transition system of the controller.
-/

namespace Sgcn

/-! ## `Memory` -/

/-- The queues and the counters of `Memory`. -/
structure Memory where
  rq : ℕ → List RType
  fq : List ℕ
  tq : List Transaction
  gAccess : ℕ
  fEleAccess : ℕ
  oAccess : ℕ

namespace Memory

/-- `Memory::Memory`. -/
def init : Memory where
  rq := fun _ => []
  fq := []
  tq := []
  gAccess := 0
  fEleAccess := 0
  oAccess := 0

/-- `Memory::AddTransaction`. -/
def addTransaction (m : Memory) (t : Transaction) : Memory := { m with tq := m.tq ++ [t] }

/-- `Memory::WillAcceptTransaction`. -/
def willAcceptTransaction (m : Memory) : Bool := decide (m.tq.length < requestLimit)

/-- The kind of graph data at `address`, decided by the two inner boundaries. -/
def graphType (a : ArchInfo) (address : ℕ) : RType :=
  if address < a.aRowAddrStart then .value
  else if address < a.aColAddrStart then .row
  else .column

/-- Whether `address` lies in the region of kind `type` that `d` describes. -/
def inRegion (d : DataIndex) (type : RType) (address : ℕ) : Bool :=
  match type with
  | .value => decide (d.valueAddrStart ≤ address ∧ address < d.valueAddrEnd)
  | .row => decide (d.rowAddrStart ≤ address ∧ address < d.rowAddrEnd)
  | .column => decide (d.colAddrStart ≤ address ∧ address < d.colAddrEnd)
  | .empty => false

/-- `Memory::ReadCompleteCallback`. When no engine owns the address, the source
uses an uninitialised `id`, which is undefined. -/
def readCompleteCallback (g : Globals) (m : Memory) (address : ℕ) : Option Memory :=
  let fAddrStart := g.archInfo.xwEleAddrStart
  if g.archInfo.dValueAddrStart ≤ address ∧ address < fAddrStart then
    let type := graphType g.archInfo address
    match (List.range g.archInfo.nOfEngine).find? fun i =>
        inRegion (g.dataIndex i) type address with
    | some id =>
      some { m with
        gAccess := m.gAccess + 1
        rq := Function.update m.rq id (m.rq id ++ [type]) }
    | none => none
  else if fAddrStart ≤ address then
    some { m with fEleAccess := m.fEleAccess + 1, fq := m.fq ++ [address] }
  else some m

/-- `Memory::GetGraph`. -/
def getGraph (m : Memory) (id : ℕ) : RType × Memory :=
  match m.rq id with
  | [] => (.empty, m)
  | ret :: rest => (ret, { m with rq := Function.update m.rq id rest })

/-- `Memory::GetFeature`: the front reply, or the largest `uint64_t` when there is none. -/
def getFeature (m : Memory) : ℕ × Memory :=
  match m.fq with
  | [] => (2 ^ 64 - 1, m)
  | ret :: rest => (ret, { m with fq := rest })

/-- The part of `Memory::WriteCompleteCallback` inside `Memory`. -/
def writeCompleteCallback (m : Memory) : Memory := { m with oAccess := m.oAccess + 1 }

end Memory

/-! ## `Cache` -/

/-- `sa_cache`: per set, the cached addresses, most recent first. -/
structure Cache where
  saCache : ℕ → List ℕ

namespace Cache

/-- `Cache::Cache`. -/
def init : Cache where
  saCache := fun _ => []

/-- `Cache::FindSet`. -/
def findSet (a : ArchInfo) (address : ℕ) : ℕ :=
  uint64 ((address : ℤ) - a.xwEleAddrStart) / cacheLineByte % a.cacheSet

/-- `Cache::Insert`. -/
def insert (a : ArchInfo) (c : Cache) (address : ℕ) : Cache :=
  let set := findSet a address
  let ways := c.saCache set
  let ways := if ways.length = a.cacheWay then ways.dropLast else ways
  { saCache := Function.update c.saCache set (address :: ways) }

/-- `Cache::Access`, with `Cache::FindWay` inlined: a hit moves to the front. -/
def access (a : ArchInfo) (c : Cache) (address : ℕ) : Bool × Cache :=
  let set := findSet a address
  let ways := c.saCache set
  if address ∈ ways then
    (true, { saCache := Function.update c.saCache set (address :: ways.erase address) })
  else (false, c)

end Cache

end Sgcn

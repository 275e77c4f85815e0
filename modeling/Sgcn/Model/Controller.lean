-- SUMMARY: The main loop (`Controller::GCNInference`) as a transition system, with DRAMsim3 as its environment.
import Sgcn.Base.Machine
import Sgcn.Model.Preprocessor
import Sgcn.Model.GraphReader
import Sgcn.Model.FeatureReader
import Sgcn.Model.Simd
import Mathlib.Data.Multiset.AddSub

/-!
# The controller

`GCNInference` calls the units of every engine in a fixed order, drains the
transaction queue, ticks DRAMsim3 and tests the global counter. Every call is one
step, so that a statement about all reachable states also covers the middle of a
cycle.

DRAMsim3 is nondeterministic: it may refuse the front transaction at any time,
and a tick answers any accepted transactions in any order, each exactly once and
through the callback of its kind. In the loop `davc_list` is taken to be empty, so that
`DAVCRead` has returned at once; what it does otherwise is modelled on its own.
-/

namespace Sgcn

/-- The units of the controller, the transactions inside DRAMsim3, and the global
`total_write`. The memory and the cache are those of the feature reader. -/
structure Controller where
  gr : ℕ → GraphReader
  si : ℕ → Simd
  fr : FeatureReader
  dram : Multiset Transaction
  totalWrite : ℕ

/-- The calls made for one engine in one cycle, in this order. -/
inductive EngineCall where
  | vertexRequest | edgeRequest | graphReceive | nextFeature | readNext | passFtoSIMD | write
  deriving DecidableEq, Repr

/-- Where the loop is. -/
inductive Pc where
  | engine (i : ℕ) (k : EngineCall)
  | featureReceive
  | consumeTransaction
  | updateCycle
  | loopTest
  | done
  deriving DecidableEq, Repr

namespace Controller

/-- `Controller::Controller`, with the counter the preprocessor left. -/
def init (g : Globals) : Controller where
  gr := .init g
  si := .init g
  fr := .init
  dram := 0
  totalWrite := g.totalWrite

def setGr (c : Controller) (i : ℕ) (r : GraphReader) (m : Memory) : Controller :=
  { c with gr := Function.update c.gr i r, fr := { c.fr with mem := m } }

/-- One call for engine `i`, with the guard the loop puts around it. -/
def call (g : Globals) (i : ℕ) : EngineCall → Controller → Option Controller
  | .vertexRequest, c =>
    if (c.gr i).vReqOver then some c
    else
      let (r, m) := (c.gr i).vertexRequest g i c.fr.mem
      some (c.setGr i r m)
  | .edgeRequest, c =>
    if (c.gr i).eReqOver then some c
    else
      let (r, m) := (c.gr i).edgeRequest g i c.fr.mem
      some (c.setGr i r m)
  | .graphReceive, c =>
    if (c.gr i).reciOver then some c
    else
      let (reci, m) := c.fr.mem.getGraph i
      some (c.setGr i ((c.gr i).graphReceive g i reci) m)
  | .nextFeature, c =>
    if (c.gr i).passOver then some c
    else
      match (c.gr i).nextFeature g i with
      | none => none
      | some (r, none) => some { c with gr := Function.update c.gr i r }
      | some (r, some ei) =>
        some { c with gr := Function.update c.gr i r, fr := c.fr.enterFtoList ei }
  | .readNext, c => (c.fr.readNext g i).map fun fr => { c with fr := fr }
  | .passFtoSIMD, c =>
    let (pass, fr) := c.fr.passFtoSIMD g i
    some { c with fr := fr, si := Function.update c.si i ((c.si i).getFeature g pass) }
  | .write, c =>
    let (s, m) := (c.si i).write c.fr.mem
    some { c with si := Function.update c.si i s, fr := { c.fr with mem := m } }

end Controller

/-- The start of a cycle. -/
def Pc.start (g : Globals) : Pc :=
  if 0 < g.archInfo.nOfEngine then .engine 0 .vertexRequest else .featureReceive

/-- What follows call `k` for engine `i`. -/
def Pc.next (g : Globals) (i : ℕ) : EngineCall → Pc
  | .vertexRequest => .engine i .edgeRequest
  | .edgeRequest => .engine i .graphReceive
  | .graphReceive => .engine i .nextFeature
  | .nextFeature => .engine i .readNext
  | .readNext => .engine i .passFtoSIMD
  | .passFtoSIMD => .engine i .write
  | .write =>
    if i + 1 < g.archInfo.nOfEngine then .engine (i + 1) .vertexRequest else .featureReceive

/-- A position in the loop and the state there. -/
structure Config where
  pc : Pc
  ctr : Controller

/-- The steps of `GCNInference`. -/
inductive Step (g : Globals) : Config → Config → Prop where
  | call {i : ℕ} {k : EngineCall} {c c' : Controller} :
      c.call g i k = some c' → Step g ⟨.engine i k, c⟩ ⟨.next g i k, c'⟩
  | featureReceive {c : Controller} :
      Step g ⟨.featureReceive, c⟩ ⟨.consumeTransaction, { c with fr := c.fr.featureReceive g }⟩
  /-- `ConsumeTransaction` hands the front transaction to DRAMsim3. -/
  | accept {c : Controller} {t : Transaction} {rest : List Transaction} :
      c.fr.mem.tq = t :: rest →
      Step g ⟨.consumeTransaction, c⟩
        ⟨.consumeTransaction,
          { c with
            fr := { c.fr with mem := { c.fr.mem with tq := rest } }
            dram := t ::ₘ c.dram }⟩
  /-- The queue is empty, or DRAMsim3 refuses its front. -/
  | refuse {c : Controller} : Step g ⟨.consumeTransaction, c⟩ ⟨.updateCycle, c⟩
  | readReply {c : Controller} {address : ℕ} {m : Memory} :
      ⟨address, false⟩ ∈ c.dram →
      c.fr.mem.readCompleteCallback g address = some m →
      Step g ⟨.updateCycle, c⟩
        ⟨.updateCycle,
          { c with fr := { c.fr with mem := m }, dram := c.dram.erase ⟨address, false⟩ }⟩
  /-- `WriteCompleteCallback`, whose decrement is a `uint64_t` one. -/
  | writeReply {c : Controller} {address : ℕ} :
      ⟨address, true⟩ ∈ c.dram →
      Step g ⟨.updateCycle, c⟩
        ⟨.updateCycle,
          { c with
            fr := { c.fr with mem := c.fr.mem.writeCompleteCallback }
            dram := c.dram.erase ⟨address, true⟩
            totalWrite := uint64 (c.totalWrite - 1) }⟩
  | tick {c : Controller} : Step g ⟨.updateCycle, c⟩ ⟨.loopTest, c⟩
  | again {c : Controller} : c.totalWrite ≠ 0 → Step g ⟨.loopTest, c⟩ ⟨.start g, c⟩
  | exit {c : Controller} : c.totalWrite = 0 → Step g ⟨.loopTest, c⟩ ⟨.done, c⟩

/-- The state in which `GCNInference` enters its loop. -/
def Config.init (g : Globals) : Config := ⟨.start g, .init g⟩

/-- The states a run of `GCNInference` goes through. -/
def Config.Reachable (g : Globals) (s : Config) : Prop :=
  Machine.Reachable (Step g) (.init g) s

/-! ## The cycle count and the progress lines -/

/-- The local variables of `GCNInference` beside the units: the cycles, `prop_count`, and the
`PROGRESS` lines printed so far. -/
structure Inference where
  cfg : Config
  cycle : ℕ
  propCount : ℤ
  progress : List (ℕ × ℕ)

/-- `unit_write`, from the `total_write` that the preprocessor left. -/
def unitWrite (g : Globals) : ℕ := ceilDiv g.totalWrite 10

namespace Inference

def init (g : Globals) : Inference := ⟨.init g, 0, 9, []⟩

/-- The loop body behind `UpdateCycle`, up to the loop test: the cycle is counted, and the
progress printed. `unit_write * prop_count` is a `uint64_t` product. -/
def report (g : Globals) (s : Inference) : Inference :=
  if s.cfg.ctr.totalWrite ≤ uint64 (unitWrite g * s.propCount) then
    { s with
      cycle := s.cycle + 1
      propCount := s.propCount - 1
      progress := s.progress ++
        [(uint64 ((g.totalWrite : ℤ) - s.cfg.ctr.totalWrite), g.totalWrite)] }
  else { s with cycle := s.cycle + 1 }

end Inference

/-- The steps of `GCNInference` with its local variables. -/
inductive InferenceStep (g : Globals) : Inference → Inference → Prop where
  | inner {s : Inference} {cfg : Config} : s.cfg.pc ≠ .loopTest → Step g s.cfg cfg →
      InferenceStep g s { s with cfg := cfg }
  | test {s : Inference} {cfg : Config} : s.cfg.pc = .loopTest → Step g s.cfg cfg →
      InferenceStep g s { s.report g with cfg := cfg }

/-! ## The DAVC warm-up -/

/-- What DRAMsim3 does in one cycle: how many transactions it accepts from the front of the
queue, and the reads it answers, in this order. -/
structure DramCycle where
  accepted : ℕ
  replies : List ℕ

/-- The state of `Controller::DAVCRead`, with the global `xw_get`. -/
structure Davc where
  mem : Memory
  dram : Multiset Transaction
  xwGet : ℕ
  cycle : ℕ

namespace Davc

/-- A new controller; `xw_get` is a global. -/
def init : Davc where
  mem := .init
  dram := 0
  xwGet := 0
  cycle := 0

/-- `ConsumeTransaction` when DRAMsim3 accepts `accepted` transactions and then refuses. -/
def consumeTransaction (accepted : ℕ) (s : Davc) : Option Davc :=
  if accepted ≤ s.mem.tq.length then
    some { s with
      mem := { s.mem with tq := s.mem.tq.drop accepted }
      dram := ↑(s.mem.tq.take accepted) + s.dram }
  else none

/-- `ReadCompleteCallback`, which counts the feature lines, for a read inside DRAMsim3. -/
def reply (g : Globals) (s : Davc) (address : ℕ) : Option Davc :=
  if ⟨address, false⟩ ∈ s.dram then
    (s.mem.readCompleteCallback g address).map fun m =>
      { s with
        mem := m
        dram := s.dram.erase ⟨address, false⟩
        xwGet := if g.archInfo.xwEleAddrStart ≤ address then uint64 (s.xwGet + 1) else s.xwGet }
  else none

/-- `UpdateCycle` when DRAMsim3 answers `replies`. -/
def updateCycle (g : Globals) (replies : List ℕ) (s : Davc) : Option Davc :=
  replies.foldlM (reply g) s

/-- What the two loops have in common. The reply that `GetFeature` returns is dropped. -/
def cycleWith (g : Globals) (e : DramCycle) (s : Davc) : Option Davc := do
  let s ← s.consumeTransaction e.accepted
  let s ← s.updateCycle g e.replies
  return { s with mem := s.mem.getFeature.2, cycle := s.cycle + 1 }

/-- The `for` loop, `n` iterations before its end. It leaves the cycles to come. -/
def forLoop (g : Globals) : ℕ → List DramCycle → Davc → Option (List DramCycle × Davc)
  | 0, es, s => some (es, s)
  | _ + 1, [], _ => none
  | n + 1, e :: es, s => do
    let s ← cycleWith g e
      { s with mem := s.mem.addTransaction ⟨g.archInfo.xwEleAddrStart, false⟩ }
    forLoop g n es s

/-- The `while` loop. -/
def whileLoop (g : Globals) (total : ℕ) : List DramCycle → Davc → Option Davc
  | [], s => if s.xwGet < total then none else some s
  | e :: es, s =>
    if s.xwGet < total then do
      let s ← cycleWith g e s
      whileLoop g total es s
    else none

end Davc

/-- `Controller::DAVCRead` on a new controller, for what DRAMsim3 does in the cycles that it
takes; defined when it returns after exactly these cycles. `width` and the counter of the
`for` loop are of type `int`: a product they do not hold is undefined. -/
def davcRead (g : Globals) (davcList : Finset ℤ) (es : List DramCycle) : Option Davc :=
  if davcList = ∅ then if es.isEmpty then some .init else none
  else
    let width := g.archInfo.urb * g.archInfo.bf
    let total := davcList.card * width
    if width < 2 ^ 31 ∧ total < 2 ^ 31 then do
      let (es, s) ← Davc.forLoop g total es .init
      let s ← Davc.whileLoop g total es s
      return { s with xwGet := 0 }
    else none

end Sgcn

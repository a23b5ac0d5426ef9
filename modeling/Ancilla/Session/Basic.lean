import Ancilla.Allocator
import Ancilla.Session.Frame

/-!
The compilation session: the allocator, the circuit under construction and the stack of open
environments.

A step answers with its result and the session it leaves behind; also a failed step leaves one.
An owned qubit that was the target of an unbalanced gate which is not diagonal, or was measured,
may hold a value when its frame closes and is reported as leaked.
-/

namespace Ancilla

structure SessionConfig where
  name : String := "session"
  maxQubits : Option Nat := none
  deriving DecidableEq, Repr

/-- A session. Once a frame was closed out of order it is poisoned and refuses every step. -/
structure Session (R : Type) where
  config : SessionConfig
  allocator : Allocator
  circuit : Circuit R
  frames : FrameStack R
  nextFrame : FrameId := 1
  isPoisoned : Bool := false
  deriving BEq, DecidableEq, Repr

abbrev Answer (R α : Type) := Reply SessionError (Session R) α

namespace Session

variable {R : Type}

def new (config : SessionConfig) : Session R where
  config := config
  allocator := Allocator.new config.maxQubits
  circuit := Circuit.new config.name
  frames := ⟨Frame.new 0 .scope "root", []⟩

def numOpen (s : Session R) : Nat := s.frames.numOpen

def isClean (s : Session R) (q : QubitId) : Bool := !s.frames.any fun f => f.touched.contains q

def refuse {α : Type} (s : Session R) (e : SessionError) : Answer R α := (.error e, s)

def onCircuit {α : Type} (s : Session R) (step : Circuit R → α × Circuit R) : α × Session R :=
  match s with
  | ⟨config, allocator, circuit, frames, nextFrame, isPoisoned⟩ =>
    let (a, circuit) := step circuit
    (a, ⟨config, allocator, circuit, frames, nextFrame, isPoisoned⟩)

def allocate (s : Session R) (count : Nat) (name : String) : Answer R (List QubitId) :=
  if s.isPoisoned then s.refuse .poisoned
  else if s.frames.any fun f => f.environment = .inversion then
    s.refuse (.resource .allocationInInversion)
  else
    match s.allocator.allocate count with
    | (.error e, allocator) => (.error (.resource e), { s with allocator })
    | (.ok qs, allocator) =>
      let circuit := qs.zipIdx.foldl
        (fun c (q, i) => c.registerQubit ⟨q, some name, some i⟩) s.circuit
      (.ok qs, { s with allocator, circuit, frames := s.frames.modifyTop fun f => f.own qs })

def reclaim (s : Session R) (qs : List QubitId) : Answer R Unit :=
  if qs.isEmpty then (.ok (), s)
  else
    match s.allocator.deallocate qs with
    | (.error e, allocator) => (.error (.resource e), { s with allocator })
    | (.ok (), allocator) =>
      -- a returned qubit comes back fresh, so no frame keeps anything about it
      (.ok (), { s with
        allocator
        circuit := s.circuit.recordRelease qs
        frames := s.frames.map fun f => f.forget qs })

def release (s : Session R) (qs : List QubitId) : Answer R Unit :=
  if s.isPoisoned then s.refuse .poisoned
  else
    let pending := qs.findSome? fun q =>
      (s.frames.toList.reverse.find? fun f => f.references q).map fun f => (q, f.environment.name)
    match pending with
    | some (q, name) => s.refuse (.resource (.pendingEnvironment q name))
    | none =>
      match qs.filter fun q => !s.isClean q with
      | [] => s.reclaim qs
      | dirty => s.refuse (.uncomputation s.frames.top.label dirty)

def exportFault? (f : Frame R) : List QubitId → Option SessionError
  | [] => none
  | q :: qs =>
    if !f.owns q then some (.resource (.notOwned q))
    else if f.computeAncillae.contains q then
      some (.invalidExport q "allocated in a compute phase")
    else exportFault? f qs

def exportQubits (s : Session R) (qs : List QubitId) : Answer R Unit :=
  if s.isPoisoned then s.refuse .poisoned
  else if s.frames.below.isEmpty then s.refuse .noOpenFrame
  else
    match s.frames.top.environment with
    | .classical _ => s.refuse (.carryValue qs)
    | _ =>
      match exportFault? s.frames.top qs with
      | some e => s.refuse e
      | none =>
        (.ok (), { s with frames := s.frames.modifyTop fun f =>
          { f with exported := Ordered.union f.exported qs } })

/-- Declares that qubits are back in their initial state by an identity that the session cannot
see. -/
def assertRestored (s : Session R) (qs : List QubitId) : Answer R Unit :=
  if s.isPoisoned then s.refuse .poisoned
  else
    (.ok (), { s with frames := s.frames.map fun f =>
      { f with touched := f.touched.eraseAll qs } })

def deliver (s : Session R) (i : Instruction R) : Answer R Unit :=
  let s := { s with
    allocator := i.qubits.foldl Allocator.markEntangled s.allocator
    frames := s.frames.map fun f => { f with emitted := f.emitted + 1 } }
  match s.onCircuit fun c => c.push i with
  | (.ok (), s) => (.ok (), s)
  | (.error e, s) => s.refuse (.circuit e)

def send (s : Session R) (i : Instruction R) (balanced : Bool) : Answer R Unit :=
  let (routed, frames) := s.frames.route i balanced
  let s := { s with frames }
  match routed with
  | .error e => s.refuse e
  | .ok none => (.ok (), s)
  | .ok (some i) => s.deliver i

def emit (s : Session R) (i : Instruction R) : Answer R Unit :=
  if s.isPoisoned then s.refuse .poisoned
  else
    match i.qubits.find? fun q => !s.allocator.isLive q with
    | some q => s.refuse (.resource (.notAllocated q))
    | none => s.send i false

def apply (s : Session R) (g : Gate R) (qubits : List QubitId) : Answer R Unit :=
  s.emit (.ofGate g qubits)

def barrier (s : Session R) (qubits : List QubitId) : Answer R Unit := s.emit (.barrier qubits)

def measureFault? (s : Session R) : Option SessionError :=
  let frames := s.frames.toList
  let controlling := frames.find? fun f => match f.environment with
    | .controlled _ | .classical _ => true
    | _ => false
  match controlling with
  | some f => some (.uncontrollable "measure" f.environment.name)
  | none =>
    let undoing := frames.find? fun f => f.environment = .inversion || f.isComputing
    undoing.map fun f =>
      .nonInvertible ("measure inside " ++ f.environment.name ++ " '" ++ f.label ++ "'")

def measure (s : Session R) (q : QubitId) : Answer R ClbitId :=
  if s.isPoisoned then s.refuse .poisoned
  else
    match s.measureFault? with
    | some e => s.refuse e
    | none =>
      if !s.allocator.isLive q then s.refuse (.resource (.notAllocated q))
      else
        let (b, s) := s.onCircuit fun c => c.addClbit (some q)
        match s.emit (.measure q b) with
        | (.ok (), s) => (.ok b, s)
        | (.error e, s) => (.error e, s)

def enter (s : Session R) (environment : Environment) (label : String) : Answer R FrameId :=
  if s.isPoisoned then s.refuse .poisoned
  else
    let dead := match environment with
      | .controlled controls => controls.find? fun q => !s.allocator.isLive q
      | _ => none
    match dead with
    | some q => s.refuse (.resource (.notAllocated q))
    | none =>
      let id := s.nextFrame
      (.ok id, { s with nextFrame := id + 1, frames := s.frames.push (.new id environment label) })

def beginAction (s : Session R) : Answer R Unit :=
  if s.isPoisoned then s.refuse .poisoned
  else if s.frames.top.isComputing then
    (.ok (), { s with frames := s.frames.modifyTop fun f => { f with phase := .act } })
  else s.refuse .notInCompute

variable [Scalar R]

def undo : Session R → List (Instruction R × Bool) → Answer R Unit
  | s, [] => (.ok (), s)
  | s, (i, balanced) :: rest =>
    match i.adjoint? with
    | none => s.refuse (.nonInvertible "measure")
    | some j =>
      match s.send j balanced with
      | (.ok (), s) => s.undo rest
      | (.error e, s) => (.error e, s)

/-- Sends what a closing frame owes to the frames around: a conjugation undoes its computation,
an inversion undoes all it kept. -/
def replay (s : Session R) (f : Frame R) : Answer R Unit :=
  match f.environment with
  | .conjugation => s.undo (f.log.map fun (i, _) => (i, true))
  | .inversion => s.undo f.log
  | _ => (.ok (), s)

def forceReclaim (s : Session R) (f : Frame R) : Session R :=
  (s.reclaim (f.owned.filter s.allocator.isLive)).2

def exit (s : Session R) (id : FrameId) : Answer R Unit :=
  if s.isPoisoned then s.refuse .poisoned
  else
    match s.frames.below with
    | [] => s.refuse .noOpenFrame
    | parent :: rest =>
      let frame := s.frames.top
      -- closing another one poisons the session
      if frame.id ≠ id then
        (.error (.scopeViolation frame.id id), { s with isPoisoned := true })
      else
        match { s with frames := ⟨parent, rest⟩ }.replay frame with
        | (.error e, s) => (.error e, s.forceReclaim frame)
        | (.ok (), s) =>
          match frame.leaked with
          | [] =>
            match s.reclaim frame.toReclaim with
            | (.error e, s) => (.error e, s)
            | (.ok (), s) =>
              (.ok (), { s with frames := s.frames.modifyTop fun f => f.own frame.exported })
          | leaked => (.error (.uncomputation frame.label leaked), s.forceReclaim frame)

/-- Drops an environment and all inside it, without sending anything; their qubits are returned
whatever they hold. -/
def abort (s : Session R) (id : FrameId) : Session R :=
  match FrameStack.cut? id s.frames.top s.frames.below with
  | none => s
  | some (dropped, frames) => dropped.foldl forceReclaim { s with frames }

def finish (s : Session R) : Except SessionError (Circuit R) :=
  if s.isPoisoned then .error .poisoned
  else if s.frames.below.isEmpty then .ok s.circuit.finish
  else .error (.unclosedEnvironment s.numOpen)

end Session

end Ancilla

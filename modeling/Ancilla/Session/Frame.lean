import Ancilla.Circuit.Basic
import Ancilla.Gate.Adjoint
import Ancilla.QubitSet
import Ancilla.Resource

/-!
Frames of open environments and the way of an instruction through them.

An instruction travels from the innermost frame outwards. A conjugation in its compute phase
keeps it for later undoing, and from there on it is balanced: it will be undone. Controls and
conditions are added to unbalanced instructions only, since `U · C(V) · U†` is `C(U · V · U†)`.
An inversion keeps the instruction and lets nothing through.
-/

namespace Ancilla

abbrev FrameId := Nat

inductive SessionError
  | resource (e : ResourceError)
  | scopeViolation (expected got : FrameId)
  | poisoned
  | uncomputation (fragment : String) (qubits : List QubitId)
  | nonInvertible (what : String)
  | uncontrollable (operation environment : String)
  | carryValue (qubits : List QubitId)
  | invalidExport (q : QubitId) (reason : String)
  | notInCompute
  | noOpenFrame
  | unclosedEnvironment (count : Nat)
  | circuit (e : CircuitError)
  deriving DecidableEq, Repr

def SessionError.message : SessionError → String
  | resource e => e.message
  | scopeViolation expected got =>
    s!"Environment #{got} exited while #{expected} is innermost"
  | poisoned => "Session is poisoned by an earlier scope violation"
  | uncomputation fragment qubits =>
    "Fragment '" ++ fragment ++ "' leaves qubits " ++ qubitList qubits ++ " entangled at exit"
  | nonInvertible what => "Cannot invert " ++ what
  | uncontrollable operation environment =>
    operation ++ " is not allowed inside a " ++ environment ++ " environment"
  | carryValue qubits =>
    "Qubits " ++ qubitList qubits ++ " cannot leave a classical-control environment"
  | invalidExport q reason => "Qubit " ++ qubitName q ++ " cannot be exported: " ++ reason
  | notInCompute => "No conjugation is in its compute phase"
  | noOpenFrame => "No open environment"
  | unclosedEnvironment count => s!"{count} environments are still open"
  | circuit e => e.message

inductive Environment
  | conjugation
  | iteration
  | controlled (controls : List QubitId)
  | classical (condition : Condition)
  | inversion
  | scope
  deriving DecidableEq, Repr

def Environment.name : Environment → String
  | conjugation => "conjugation"
  | iteration => "iteration"
  | controlled _ => "controlled"
  | classical _ => "classical-control"
  | inversion => "inversion"
  | scope => "scope"

inductive Phase
  | compute
  | act
  deriving DecidableEq, Repr

/-- An open environment.

`touched` are the qubits that may hold a value when the frame closes, `superposed` the owned ones
that the compute phase may have put in superposition, and `log` the instructions kept for undoing,
the latest first, each with the mark whether it was balanced. -/
structure Frame (R : Type) where
  id : FrameId
  environment : Environment
  label : String
  phase : Phase := .compute
  owned : List QubitId := []
  exported : List QubitId := []
  touched : QubitSet := {}
  superposed : QubitSet := {}
  computeAncillae : QubitSet := {}
  log : List (Instruction R × Bool) := []
  emitted : Nat := 0
  deriving BEq, DecidableEq, Repr

namespace Instruction

variable {R : Type}

def movedTargets (i : Instruction R) : List QubitId :=
  match i.gate? with
  | some g => if g.kind.action = .diagonal then [] else i.qubits.drop g.kind.numControls
  | none => []

def spreadTargets (i : Instruction R) : List QubitId :=
  match i.gate? with
  | some g => if g.kind.action = .general then i.qubits.drop g.kind.numControls else []
  | none => []

def addControls (i : Instruction R) (controls : List QubitId) :
    Except SessionError (Instruction R) :=
  match i.operation with
  | .gate g =>
    let kind := g.kind.withControls controls.length
    .ok { i with operation := .gate { g with kind }, qubits := controls ++ i.qubits }
  | .measure => .error (.uncontrollable "measure" "controlled")
  | .barrier => .ok i

def addCondition (i : Instruction R) (c : Condition) : Except SessionError (Instruction R) :=
  match i.operation with
  | .gate g => .ok { i with operation := .gate (g.withCondition c) }
  | .measure => .error (.uncontrollable "measure" "classical-control")
  | .barrier => .ok i

end Instruction

namespace Frame

variable {R : Type}

def new (id : FrameId) (environment : Environment) (label : String) : Frame R :=
  { id, environment, label }

def isComputing (f : Frame R) : Bool := f.environment = .conjugation && f.phase = .compute

def owns (f : Frame R) (q : QubitId) : Bool := f.owned.contains q

def references (f : Frame R) (q : QubitId) : Bool :=
  match f.environment with
  | .controlled controls => controls.contains q
  | .conjugation | .inversion => f.log.any fun (i, _) => i.qubits.contains q
  | _ => false

def toReclaim (f : Frame R) : List QubitId := f.owned.filter fun q => !f.exported.contains q

def leaked (f : Frame R) : List QubitId := f.toReclaim.filter f.touched.contains

def touch (f : Frame R) (qs : List QubitId) : Frame R :=
  { f with touched := f.touched.insertAll qs }

/-- Remembers what an instruction that goes on outwards may leave behind: a measured qubit, or a
target of an unbalanced gate that is not diagonal. -/
def note (f : Frame R) (i : Instruction R) (balanced : Bool) : Frame R :=
  if i.isMeasure then f.touch i.qubits
  else if balanced then f
  else f.touch i.movedTargets

def keep (f : Frame R) (i : Instruction R) (balanced : Bool) : Frame R :=
  { f with log := (i, balanced) :: f.log }

def forget (f : Frame R) (qs : List QubitId) : Frame R :=
  let stays (q : QubitId) : Bool := !qs.contains q
  { f with
    owned := f.owned.filter stays
    exported := f.exported.filter stays
    touched := f.touched.eraseAll qs
    superposed := f.superposed.eraseAll qs
    computeAncillae := f.computeAncillae.eraseAll qs }

def own (f : Frame R) (qs : List QubitId) : Frame R :=
  { f with
    owned := f.owned ++ qs
    computeAncillae :=
      if f.isComputing then f.computeAncillae.insertAll qs else f.computeAncillae }

/-- One frame on the way outwards: the frame afterwards, and the instruction as it goes on, or
`none` if it is kept back. -/
def pass (f : Frame R) (i : Instruction R) (balanced : Bool) :
    Except SessionError (Frame R × Option (Instruction R × Bool)) :=
  match f.environment with
  | .conjugation =>
    if f.phase = .compute then
      if i.isMeasure then .error (.nonInvertible "measure")
      else
        -- what goes on is balanced: closing the frame undoes it
        let spread := i.spreadTargets.filter f.owns
        let f := { f with superposed := f.superposed.insertAll spread }
        .ok ((f.keep i balanced).note i true, some (i, true))
    else
      -- an action on a qubit in superposition may keep the computation from being undone
      let f := if balanced then f else f.touch (i.qubits.filter f.superposed.contains)
      .ok (f.note i balanced, some (i, balanced))
  | .controlled controls =>
    if balanced then .ok (f.note i true, some (i, true))
    else do
      let i ← i.addControls controls
      return (f.note i false, some (i, false))
  | .classical condition =>
    if balanced then .ok (f.note i true, some (i, true))
    else do
      let i ← i.addCondition condition
      return (f.note i false, some (i, false))
  | .inversion =>
    if i.isMeasure then .error (.nonInvertible "measure")
    else .ok (f.keep i balanced, none)
  | .iteration | .scope => .ok (f.note i balanced, some (i, balanced))

end Frame

structure FrameStack (R : Type) where
  top : Frame R
  below : List (Frame R) := []
  deriving BEq, DecidableEq, Repr

namespace FrameStack

variable {R : Type}

def toList (s : FrameStack R) : List (Frame R) := s.top :: s.below

def push (s : FrameStack R) (f : Frame R) : FrameStack R := ⟨f, s.top :: s.below⟩

def numOpen (s : FrameStack R) : Nat := s.below.length

def map (f : Frame R → Frame R) (s : FrameStack R) : FrameStack R := ⟨f s.top, s.below.map f⟩

def modifyTop (f : Frame R → Frame R) (s : FrameStack R) : FrameStack R := { s with top := f s.top }

def any (s : FrameStack R) (p : Frame R → Bool) : Bool := s.toList.any p

/-- Leads an instruction outwards through frames: the frames afterwards, and the instruction if it
comes out, `none` if an inversion kept it. -/
def routeThrough : List (Frame R) → Instruction R → Bool →
    Except SessionError (Option (Instruction R)) × List (Frame R)
  | [], i, _ => (.ok (some i), [])
  | f :: fs, i, balanced =>
    match f.pass i balanced with
    -- a refusal leaves the frames further out unchanged, not those already passed
    | .error e => (.error e, f :: fs)
    | .ok (f, none) => (.ok none, f :: fs)
    | .ok (f, some (i, balanced)) =>
      let (r, fs) := routeThrough fs i balanced
      (r, f :: fs)

def route (s : FrameStack R) (i : Instruction R) (balanced : Bool) :
    Except SessionError (Option (Instruction R)) × FrameStack R :=
  match s.top.pass i balanced with
  | .error e => (.error e, s)
  | .ok (f, none) => (.ok none, { s with top := f })
  | .ok (f, some (i, balanced)) =>
    let (r, fs) := routeThrough s.below i balanced
    (r, ⟨f, fs⟩)

def cut? (id : FrameId) : Frame R → List (Frame R) → Option (List (Frame R) × FrameStack R)
  | _, [] => none
  | f, g :: rest =>
    if f.id = id then some ([f], ⟨g, rest⟩)
    else (cut? id g rest).map fun (dropped, stack) => (f :: dropped, stack)

end FrameStack

end Ancilla

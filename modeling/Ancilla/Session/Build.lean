import Ancilla.Session.Basic

/-!
Construction steps in sequence. A step may fail, and the session it leaves behind counts either
way, so what was emitted before a failure stays. Environments with a body open a frame, run the
body and close the frame; a body that fails has its frame dropped instead.
-/

namespace Ancilla

/-- Construction over a session with errors in `ε` and further effects in `m`. -/
abbrev BuildT (R ε : Type) (m : Type → Type) := ExceptT ε (StateT (Session R) m)

abbrev Build (R ε : Type) := BuildT R ε Id

class FromSession (ε : Type) where
  ofSession : SessionError → ε

instance : FromSession SessionError := ⟨fun e => e⟩

namespace Build

variable {R ε α β : Type} {m : Type → Type} [Monad m] [FromSession ε]

def step (f : Session R → Answer R α) : BuildT R ε m α := ExceptT.mk fun s =>
  let (r, s) := f s
  pure (r.mapError FromSession.ofSession, s)

def embed {ε' : Type} (report : ε' → ε) (b : Build R ε' α) : BuildT R ε m α := ExceptT.mk fun s =>
  let (r, s) := Id.run (b.run.run s)
  pure (r.mapError report, s)

def ofExcept (r : Except ε α) : BuildT R ε m α := ExceptT.mk (pure r)

def session : BuildT R ε m (Session R) := ExceptT.mk fun s => pure (.ok s, s)

def allocate (count : Nat) (name : String) : BuildT R ε m (List QubitId) :=
  step fun s => s.allocate count name

def allocateOne (name : String) : BuildT R ε m QubitId :=
  (fun qs => qs.headD 0) <$> (allocate 1 name : BuildT R ε m (List QubitId))

def release (qs : List QubitId) : BuildT R ε m Unit := step fun s => s.release qs

def exportQubits (qs : List QubitId) : BuildT R ε m Unit := step fun s => s.exportQubits qs

def assertRestored (qs : List QubitId) : BuildT R ε m Unit := step fun s => s.assertRestored qs

def apply (g : Gate R) (qs : List QubitId) : BuildT R ε m Unit := step fun s => s.apply g qs

def standard (g : Standard R) (qs : List QubitId) : BuildT R ε m Unit := apply (.ofStandard g) qs

def barrier (qs : List QubitId) : BuildT R ε m Unit := step fun s => s.barrier qs

def measure (q : QubitId) : BuildT R ε m ClbitId := step fun s => s.measure q

def enter (environment : Environment) (label : String) : BuildT R ε m FrameId :=
  step fun s => s.enter environment label

def beginAction : BuildT R ε m Unit := step fun s => s.beginAction

def x (q : QubitId) : BuildT R ε m Unit := standard .x [q]

def h (q : QubitId) : BuildT R ε m Unit := standard .h [q]

def s (q : QubitId) : BuildT R ε m Unit := standard .s [q]

def t (q : QubitId) : BuildT R ε m Unit := standard .t [q]

def tdg (q : QubitId) : BuildT R ε m Unit := standard .tdg [q]

def p (theta : Expr R) (q : QubitId) : BuildT R ε m Unit := standard (.p theta) [q]

def cx (control target : QubitId) : BuildT R ε m Unit := standard .cx [control, target]

def cz (control target : QubitId) : BuildT R ε m Unit := standard .cz [control, target]

def cp (theta : Expr R) (control target : QubitId) : BuildT R ε m Unit :=
  standard (.cp theta) [control, target]

def ccx (c₁ c₂ target : QubitId) : BuildT R ε m Unit := standard .ccx [c₁, c₂, target]

def mcx (controls : List QubitId) (target : QubitId) : BuildT R ε m Unit :=
  apply (.controlled .x controls.length) (controls ++ [target])

def swap (a b : QubitId) : BuildT R ε m Unit := standard .swap [a, b]

variable [Scalar R]

def exit (id : FrameId) : BuildT R ε m Unit := step fun s => s.exit id

def abort (id : FrameId) : BuildT R ε m Unit := step fun s => (.ok (), s.abort id)

def within (environment : Environment) (label : String) (body : BuildT R ε m α) :
    BuildT R ε m α := do
  let id ← enter environment label
  let result ← ExceptT.mk (do return .ok (← body.run))
  match result with
  | .ok a =>
    exit id
    return a
  | .error e =>
    abort id
    throw e

def conjugate (label : String) (compute : BuildT R ε m α) (act : α → BuildT R ε m β) :
    BuildT R ε m β :=
  within .conjugation label do
    let a ← compute
    beginAction
    act a

def control (controls : List QubitId) (body : BuildT R ε m α) : BuildT R ε m α :=
  within (.controlled controls) "control" body

def controlClassical (clbits : List ClbitId) (value : Nat) (body : BuildT R ε m α) :
    BuildT R ε m α :=
  within (.classical (.ofValue clbits value)) "if" body

def invert (body : BuildT R ε m α) : BuildT R ε m α := within .inversion "invert" body

def scope (label : String) (body : BuildT R ε m α) : BuildT R ε m α := within .scope label body

def underControls (controls : List QubitId) (body : BuildT R ε m α) : BuildT R ε m α :=
  if controls.isEmpty then body else control controls body

end Build

end Ancilla

import Ancilla.Variable.Decoder

/-! Quantum variables: named registers of qubits with a decoder. -/

namespace Ancilla

structure Variable where
  name : String
  qubits : List QubitId
  decoder : Decoder
  deriving DecidableEq, Repr

namespace Variable

def width (v : Variable) : Nat := v.qubits.length

def ofQubits (name : String) (qubits : List QubitId) (decoder : Decoder) :
    Except VariableError Variable := do
  decoder.checkWidth qubits.length
  return ⟨name, qubits, decoder⟩

def withDecoder (v : Variable) (decoder : Decoder) : Except VariableError Variable :=
  ofQubits v.name v.qubits decoder

def decode (v : Variable) (raw : Nat) : Option Value := v.decoder.decode raw v.width

def encode (v : Variable) (value : Value) : Except VariableError Nat :=
  v.decoder.encode value v.width

def outputRegister (v : Variable) : OutputRegister := ⟨v.name, v.qubits⟩

variable {R : Type}

def allocate (name : String) (width : Nat) (decoder : Decoder) :
    Build R VariableError Variable := do
  Build.ofExcept (decoder.checkWidth width)
  let qubits ← Build.allocate width name
  return ⟨name, qubits, decoder⟩

def integer (name : String) (width : Nat) : Build R VariableError Variable :=
  allocate name width (.integer false)

def flipBits (raw : Nat) : Nat → List QubitId → Build R VariableError Unit
  | _, [] => pure ()
  | i, q :: qs => do
    if raw.testBit i then Build.x q
    flipBits raw (i + 1) qs

def init (v : Variable) (value : Value) : Build R VariableError Unit := do
  let raw ← Build.ofExcept (v.encode value)
  flipBits raw 0 v.qubits

def exportQubits (v : Variable) : Build R VariableError Unit := Build.exportQubits v.qubits

def release (v : Variable) : Build R VariableError Unit := Build.release v.qubits

end Variable

end Ancilla

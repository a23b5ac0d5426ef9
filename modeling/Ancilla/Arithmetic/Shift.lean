import Ancilla.Arithmetic.Error

/-!
Cyclic shifts of a list of equally wide cells: the content of cell `i` moves to cell
`(i + k) mod n`. A quantum offset is read bit by bit, and bit `j` controls a rotation by `2 ^ j`.
-/

namespace Ancilla

inductive ShiftStrategy
  | doubling
  | naive
  deriving DecidableEq, Repr

namespace Shift

open Synthesis (checkWidth checkSameWidth)

variable {R : Type} [Scalar R]

def checkCells (operation : String) : List Variable → Except SynthesisError Unit
  | [] => .error (.unsupportedShape operation "no cells")
  | first :: rest => do
    checkWidth operation first.width
    rest.forM fun cell => checkSameWidth operation first.width cell.width

def swapCells (a b : Variable) : Synthesis R Unit :=
  (a.qubits.zip b.qubits).forM fun (p, q) => Build.swap p q

def reverse (cells : List Variable) : Synthesis R Unit :=
  ((cells.take (cells.length / 2)).zip cells.reverse).forM fun (a, b) => swapCells a b

def rotateByReversals (cells : List Variable) (r : Nat) : Synthesis R Unit := do
  reverse cells
  reverse (cells.take r)
  reverse (cells.drop r)

def rotateByOne (cells : List Variable) : Synthesis R Unit :=
  (cells.reverse.zip cells.reverse.tail).forM fun (a, b) => swapCells a b

def rotateByPlaces (cells : List Variable) : Nat → Synthesis R Unit
  | 0 => pure ()
  | r + 1 => do
    rotateByOne cells
    rotateByPlaces cells r

def rotate (cells : List Variable) (r : Nat) : ShiftStrategy → Synthesis R Unit
  | .doubling => rotateByReversals cells r
  | .naive => rotateByPlaces cells r

def stages (cells : List Variable) (strategy : ShiftStrategy) :
    Nat → List QubitId → Synthesis R Unit
  | _, [] => pure ()
  | j, control :: rest => do
    let r := bitWeight j % cells.length
    if r ≠ 0 then Build.control [control] (rotate cells r strategy)
    stages cells strategy (j + 1) rest

def cyclic (cells : List Variable) (offset : Variable) (strategy : ShiftStrategy) :
    Synthesis R Unit := do
  Build.ofExcept (checkCells "cyclic_shift" cells)
  Build.ofExcept (checkWidth "cyclic_shift" offset.width)
  stages cells strategy 0 offset.qubits

def cyclicBy (cells : List Variable) (k : Int) : Synthesis R Unit := do
  Build.ofExcept (checkCells "cyclic_shift" cells)
  let r := (k % (cells.length : Int)).toNat
  if r ≠ 0 then rotateByReversals cells r

end Shift

end Ancilla

import Ancilla.Instruction

/-!
Adjoints of gates and instructions. A label follows its gate into the adjoint and back by gaining
or losing the mark `_dg`; a measurement has no adjoint and a barrier is its own.
-/

namespace Ancilla

def Standard.adjoint {R : Type} [Scalar R] : Standard R → Standard R
  | .s => .sdg
  | .sdg => .s
  | .t => .tdg
  | .tdg => .t
  | .sx => .sxdg
  | .sxdg => .sx
  | .rx a => .rx a.opposite
  | .ry a => .ry a.opposite
  | .rz a => .rz a.opposite
  | .p a => .p a.opposite
  | .u theta phi lambda => .u theta.opposite lambda.opposite phi.opposite
  | .crx a => .crx a.opposite
  | .cry a => .cry a.opposite
  | .crz a => .crz a.opposite
  | .cp a => .cp a.opposite
  | g => g

def Standard.isSelfInverse {R : Type} [Scalar R] (g : Standard R) : Bool :=
  g.adjoint == g && g.parameters.isEmpty

def GateKind.adjoint {R : Type} [Scalar R] : GateKind R → GateKind R
  | standard g => standard g.adjoint
  | controlled base n _ => (standard base.adjoint).withControls n

def adjointMark : String := "_dg"

/-- The label of the adjoint: the mark is taken off if it is there and put on otherwise. -/
def adjointLabel (label : String) : String :=
  let cs := label.toList
  let mark := adjointMark.toList
  if mark.isSuffixOf cs then String.ofList (cs.take (cs.length - mark.length))
  else label ++ adjointMark

def Gate.adjoint {R : Type} [Scalar R] (g : Gate R) : Gate R :=
  ⟨g.kind.adjoint, g.label.map adjointLabel, g.condition⟩

def Instruction.adjoint? {R : Type} [Scalar R] (i : Instruction R) : Option (Instruction R) :=
  match i.operation with
  | .gate g => some { i with operation := .gate g.adjoint }
  | .measure => none
  | .barrier => some i

end Ancilla

import Ancilla.Scalar

/-!
Amplitudes over scalars. The operations that move a state need only addition and multiplication;
gates and measurements also need a number from its real and imaginary parts and its squared
absolute value.
-/

namespace Ancilla

class Amplitude (R : outParam Type) (α : Type)
    extends Zero α, One α, Neg α, Add α, Mul α, BEq α where
  ofParts : R → R → α
  scale : R → α → α
  conj : α → α
  normSq : α → R

namespace Amplitude

variable {R α : Type} [Scalar R] [Amplitude R α]

def ofReal (x : R) : α := ofParts x Scalar.zero

def polar (r theta : R) : α := ofParts (r * Scalar.cos theta) (r * Scalar.sin theta)

def i : α := ofParts (Scalar.zero : R) Scalar.one

@[specialize]
def normSqSum (v : Array α) : R := v.foldl (fun acc a => acc + normSq a) Scalar.zero

end Amplitude

structure ComplexFloat where
  re : Float
  im : Float
  deriving Repr

namespace ComplexFloat

instance : Zero ComplexFloat := ⟨⟨0, 0⟩⟩

instance : One ComplexFloat := ⟨⟨1, 0⟩⟩

instance : Neg ComplexFloat := ⟨fun a => ⟨-a.re, -a.im⟩⟩

instance : Add ComplexFloat := ⟨fun a b => ⟨a.re + b.re, a.im + b.im⟩⟩

instance : Mul ComplexFloat :=
  ⟨fun a b => ⟨a.re * b.re - a.im * b.im, a.re * b.im + a.im * b.re⟩⟩

instance : BEq ComplexFloat := ⟨fun a b => a.re == b.re && a.im == b.im⟩

instance : Amplitude Float ComplexFloat where
  ofParts re im := ⟨re, im⟩
  scale r a := ⟨a.re * r, a.im * r⟩
  conj a := ⟨a.re, -a.im⟩
  normSq a := a.re * a.re + a.im * a.im

end ComplexFloat

end Ancilla

import Ancilla.Simulation.Kernel
import Ancilla.Simulation.Random

/-! Dense states: an amplitude for every basis state, the bits of an index being the qubits.
Measuring and sampling take the random number they use as an argument. -/

namespace Ancilla

structure StateVector (α : Type) where
  numQubits : Nat
  amplitudes : Array α
  deriving DecidableEq, Repr

namespace StateVector

variable {R α : Type} [Scalar R] [Amplitude R α]

def zero (numQubits : Nat) : StateVector α :=
  ⟨numQubits, (Array.replicate (bitWeight numQubits) 0).setIfInBounds 0 1⟩

def ofAmplitudes? (amplitudes : Array α) : Option (StateVector α) :=
  let n := Nat.log2 amplitudes.size
  if amplitudes.size = bitWeight n then some ⟨n, amplitudes⟩ else none

@[specialize]
def applyAll (s : StateVector α) (ks : List (Kernel α)) : StateVector α :=
  { s with amplitudes := Kernel.applyAll ks s.amplitudes }

@[specialize]
def normSq (s : StateVector α) : R := Amplitude.normSqSum s.amplitudes

@[specialize]
def probabilities (s : StateVector α) : Array R := s.amplitudes.map Amplitude.normSq

@[specialize]
def probabilityOne (s : StateVector α) (q : QubitId) : R :=
  s.amplitudes.zipIdx.foldl
    (fun acc (a, i) => if i.testBit q then acc + Amplitude.normSq a else acc) Scalar.zero

@[specialize]
def project (s : StateVector α) (q : QubitId) (outcome : Bool) (factor : R) : StateVector α :=
  { s with amplitudes := s.amplitudes.mapIdx fun i a =>
      if i.testBit q == outcome then Amplitude.scale factor a else 0 }

/-- Measures a qubit with a random number: the outcome is 1 if the number lies below the weight
of 1, and what remains is scaled back to length 1. -/
@[specialize]
def measure (s : StateVector α) (q : QubitId) (draw : R) : Bool × StateVector α :=
  let p := s.probabilityOne q
  let outcome := Scalar.below draw p
  let kept := if outcome then p else Scalar.one - p
  let factor := if Scalar.below Scalar.zero kept then Scalar.one / Scalar.sqrt kept else Scalar.zero
  (outcome, s.project q outcome factor)

@[specialize]
def scan (level : R) : R → Nat → List α → Option Nat
  | _, _, [] => none
  | total, i, a :: rest =>
    let total := total + Amplitude.normSq a
    if Scalar.below level total then some i else scan level total (i + 1) rest

@[specialize]
def sample (s : StateVector α) (draw : R) : Nat :=
  (scan (draw * s.normSq) Scalar.zero 0 s.amplitudes.toList).getD (s.amplitudes.size - 1)

def sampleMany {σ : Type} [DrawSource σ R] (s : StateVector α) : Nat → σ → List Nat × σ
  | 0, source => ([], source)
  | n + 1, source =>
    let (draw, source) := DrawSource.next source
    let (rest, source) := s.sampleMany n source
    (s.sample draw :: rest, source)

def fidelity (s t : StateVector α) : R :=
  if s.numQubits = t.numQubits then
    Amplitude.normSq ((s.amplitudes.zip t.amplitudes).foldl
      (fun acc (a, b) => acc + Amplitude.conj a * b) (0 : α))
  else Scalar.zero

end StateVector

end Ancilla

import Ancilla.Session.Build

/-!
Walks. Each step asks one question of the present state and moves forward where the answer is
yes and backward where it is no. Shared steps compute the answer once into a flag and drive both
moves from it; naive steps compute it once for each move.
-/

namespace Ancilla

inductive IterationStrategy
  | shared
  | naive
  deriving DecidableEq, Repr

def IterationStrategy.evaluations : IterationStrategy → Nat
  | shared => 1
  | naive => 2

structure IterationReport where
  steps : Nat
  predicateEvaluations : Nat
  deriving DecidableEq, Repr

namespace Build

variable {R ε : Type} {m : Type → Type} [Monad m] [FromSession ε] [Scalar R]

def askInto (question : QubitId → BuildT R ε m Unit) : BuildT R ε m QubitId := do
  let flag ← allocateOne "flag"
  question flag
  return flag

def sharedStep (question : QubitId → BuildT R ε m Unit) (forward backward : BuildT R ε m Unit) :
    BuildT R ε m Unit :=
  conjugate "predicate" (askInto question) fun flag => do
    control [flag] forward
    conjugate "negate" (x flag) fun _ => control [flag] backward

def naiveStep (question : QubitId → BuildT R ε m Unit) (forward backward : BuildT R ε m Unit) :
    BuildT R ε m Unit := do
  conjugate "predicate" (askInto question) fun flag => control [flag] forward
  conjugate "predicate"
    (do
      let flag ← askInto question
      x flag
      return flag)
    fun flag => control [flag] backward

def countUp (f : Nat → BuildT R ε m Unit) : Nat → Nat → BuildT R ε m Unit
  | 0, _ => pure ()
  | count + 1, first => do
    f first
    countUp f count (first + 1)

def iterate (steps : Nat) (strategy : IterationStrategy)
    (predicate : Nat → QubitId → BuildT R ε m Unit) (forward backward : Nat → BuildT R ε m Unit) :
    BuildT R ε m IterationReport :=
  within .iteration "iterate" do
    countUp
      (fun k => match strategy with
        | .shared => sharedStep (predicate k) (forward k) (backward k)
        | .naive => naiveStep (predicate k) (forward k) (backward k))
      steps 0
    return ⟨steps, steps * strategy.evaluations⟩

end Build

end Ancilla

import Ancilla.Variable.Basic

/-! Measuring variables by simulation: the values they take with their probabilities, the most
likely first. -/

namespace Ancilla

structure MeasureOptions where
  shots : Option Nat := none
  seed : Option Nat := none
  bindings : Bindings Float := []

/-- The joint distribution of variables. Outcomes go by falling probability, and those of equal
probability by ascending pattern. -/
structure Measurement where
  names : List String
  outcomes : List (List Value × Float)

namespace Measurement

def probability (m : Measurement) (values : List Value) : Float :=
  ((m.outcomes.find? fun (v, _) => v == values).map Prod.snd).getD 0

def mostLikely? (m : Measurement) : Option (List Value) := m.outcomes.head?.map Prod.fst

end Measurement

def Simulator.measure (sim : Simulator) (circuit : Circuit Float) (vs : List Variable)
    (options : MeasureOptions) : Except VariableError (Option Measurement) := do
  let request : SimulationRequest Float :=
    { circuit
      bindings := options.bindings
      outputs := vs.map Variable.outputRegister
      shots := options.shots
      seed := options.seed }
  let result ← (sim.run request).mapError .simulation
  let weights : List (Outcome × Float) := match result with
    | .exact _ probabilities _ _ => probabilities.toList
    | .sampled _ shots counts _ =>
      counts.toList.map fun (o, n) => (o, Float.ofNat n / Float.ofNat (max shots 1))
  let outcomes : Option (List (List Value × Float)) := weights.mapM fun (o, p) => do
    let values ← (vs.zip o).mapM fun (v, raw) => v.decode raw
    return (values, p)
  return outcomes.map fun l => ⟨vs.map Variable.name, l.mergeSort fun a b => b.2 ≤ a.2⟩

def Variable.distribution (v : Variable) (sim : Simulator) (circuit : Circuit Float)
    (options : MeasureOptions) : Except VariableError (Option (List (Value × Float))) := do
  let m? ← sim.measure circuit [v] options
  return m?.map fun m =>
    m.outcomes.filterMap fun (values, p) => values.getLast?.map fun x => (x, p)

end Ancilla

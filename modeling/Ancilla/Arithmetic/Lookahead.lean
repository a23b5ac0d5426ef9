import Ancilla.Arithmetic.Adder

/-!
The carry-lookahead adder. After the round with span `d`, the generate bit `i` tells whether the
bits from `i + 1 - 2 d` to `i` produce a carry and the propagate bit `i` whether they pass one on. A
group never does both, so their disjunction is a single flip. Every gate of a round has a fresh
target, so the gates are emitted layer by layer.
-/

namespace Ancilla.Adder

open Synthesis (checkWidth checkSameWidth)

variable {R : Type} [Scalar R]

def spans (n : Nat) : List Nat := ((List.range n).map bitWeight).takeWhile (· < n)

structure Prefixes where
  generate : List QubitId
  propagate : List QubitId
  deriving DecidableEq, Repr

def widenGenerate (n d : Nat) (p : Prefixes) : Synthesis R (List QubitId) := do
  let fresh ← Build.allocate (n - d) "generate"
  ((p.generate.drop d).zip fresh).forM fun (g, f) => Build.cx g f
  ((p.propagate.drop d).zip (p.generate.zip fresh)).forM fun (q, g, f) => Build.ccx q g f
  return p.generate.take d ++ fresh

/-- Widens the propagate bits by a span, as far as a later round needs them. -/
def widenPropagate (n d : Nat) (p : Prefixes) : Synthesis R (List QubitId) := do
  if 2 * d < n then
    let fresh ← Build.allocate (n - 2 * d) "propagate"
    let gates := ((p.propagate.drop (2 * d)).zip ((p.propagate.drop d).zip fresh)).zipIdx (2 * d)
    -- a propagate bit also feeds the one a span further on, so even and odd blocks go separately
    [0, 1].forM fun parity =>
      gates.forM fun ((q, r, f), i) => do
        if i / d % 2 = parity then Build.ccx q r f
    return p.propagate.take (2 * d) ++ fresh
  else return p.propagate

def lookaheadRound (n : Nat) (p : Prefixes) (d : Nat) : Synthesis R Prefixes := do
  let generate ← widenGenerate n d p
  let propagate ← widenPropagate n d p
  return ⟨generate, propagate⟩

def lookaheadAdd (a b : Variable) : Synthesis R Variable := do
  let n := a.width
  Build.ofExcept (checkWidth "lookahead_add" n)
  Build.ofExcept (checkSameWidth "lookahead_add" n b.width)
  Build.conjugate "lookahead_add"
    (do
      let generate ← Build.allocate n "generate"
      (carryBits a.qubits b.qubits generate).forM fun bit => do
        Build.ccx bit.a bit.b bit.carry
        Build.cx bit.a bit.b
      let last ← (spans n).foldlM (lookaheadRound n) ⟨generate, b.qubits⟩
      return last.generate)
    fun carry => do
      let sum ← Build.allocate (n + 1) "sum"
      sumBits none ((b.qubits.map ([·])).zip carry) sum
      exportSum sum

end Ancilla.Adder

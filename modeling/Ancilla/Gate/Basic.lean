import Ancilla.Condition
import Ancilla.Expr

/-!
Gates: a closed set of named gates, each of them a root gate with a number of leading controls,
and the lifting of a root by any number of further controls. The controls always come first
among the operands.
-/

namespace Ancilla

inductive Standard (R : Type)
  | id
  | x
  | y
  | z
  | h
  | s
  | sdg
  | t
  | tdg
  | sx
  | sxdg
  | rx (theta : Expr R)
  | ry (theta : Expr R)
  | rz (theta : Expr R)
  | p (theta : Expr R)
  | u (theta phi lambda : Expr R)
  | cx
  | cy
  | cz
  | ch
  | swap
  | crx (theta : Expr R)
  | cry (theta : Expr R)
  | crz (theta : Expr R)
  | cp (theta : Expr R)
  | ccx
  | cswap
  deriving BEq, DecidableEq, Repr

/-- What a gate does to the computational basis of its targets. -/
inductive Action
  | diagonal
  | permutation
  | general
  deriving DecidableEq, Repr

namespace Standard

variable {R : Type}

def name : Standard R → String
  | id => "id"
  | x => "x"
  | y => "y"
  | z => "z"
  | h => "h"
  | s => "s"
  | sdg => "sdg"
  | t => "t"
  | tdg => "tdg"
  | sx => "sx"
  | sxdg => "sxdg"
  | rx _ => "rx"
  | ry _ => "ry"
  | rz _ => "rz"
  | p _ => "p"
  | u .. => "u"
  | cx => "cx"
  | cy => "cy"
  | cz => "cz"
  | ch => "ch"
  | swap => "swap"
  | crx _ => "crx"
  | cry _ => "cry"
  | crz _ => "crz"
  | cp _ => "cp"
  | ccx => "ccx"
  | cswap => "cswap"

def parameters : Standard R → List (Expr R)
  | rx a | ry a | rz a | p a | crx a | cry a | crz a | cp a => [a]
  | u a b c => [a, b, c]
  | _ => []

def plain : List (Standard R) :=
  [id, x, y, z, h, s, sdg, t, tdg, sx, sxdg, cx, cy, cz, ch, swap, ccx, cswap]

def rotations (a : Expr R) : List (Standard R) :=
  [rx a, ry a, rz a, p a, crx a, cry a, crz a, cp a]

def ofName? (name : String) (angles : List (Expr R)) : Option (Standard R) :=
  let candidates := match angles with
    | [] => plain
    | [a] => rotations a
    | [a, b, c] => [u a b c]
    | _ => []
  candidates.find? fun g => g.name = name

def splitControls : Standard R → Standard R × Nat
  | cx => (x, 1)
  | cy => (y, 1)
  | cz => (z, 1)
  | ch => (h, 1)
  | crx a => (rx a, 1)
  | cry a => (ry a, 1)
  | crz a => (rz a, 1)
  | cp a => (p a, 1)
  | ccx => (x, 2)
  | cswap => (swap, 1)
  | g => (g, 0)

def rootWidth : Standard R → Nat
  | swap => 2
  | _ => 1

def numControls (g : Standard R) : Nat := g.splitControls.2

def numQubits (g : Standard R) : Nat := g.splitControls.2 + g.splitControls.1.rootWidth

def isParameterized (g : Standard R) : Bool := g.parameters.any Expr.isSymbolic

def action (g : Standard R) : Action :=
  match g.splitControls.1 with
  | id | z | s | sdg | t | tdg | rz _ | p _ => .diagonal
  | x | y | swap => .permutation
  | _ => .general

end Standard

/-- The operation of a gate: a named gate, or a root under a number of controls with the name
it goes by. -/
inductive GateKind (R : Type)
  | standard (g : Standard R)
  | controlled (base : Standard R) (controls : Nat) (name : String)
  deriving BEq, DecidableEq, Repr

namespace GateKind

variable {R : Type}

def named? : Standard R → Nat → Option (Standard R)
  | g, 0 => some g
  | .x, 1 => some .cx
  | .y, 1 => some .cy
  | .z, 1 => some .cz
  | .h, 1 => some .ch
  | .rx a, 1 => some (.crx a)
  | .ry a, 1 => some (.cry a)
  | .rz a, 1 => some (.crz a)
  | .p a, 1 => some (.cp a)
  | .x, 2 => some .ccx
  | .swap, 1 => some .cswap
  | _, _ => none

def canonical (root : Standard R) (controls : Nat) : GateKind R :=
  match named? root controls with
  | some g => standard g
  | none => controlled root controls ("c" ++ toString controls ++ root.name)

def splitControls : GateKind R → Standard R × Nat
  | standard g => g.splitControls
  | controlled base n _ => (base, n)

def withControls (k : GateKind R) (extra : Nat) : GateKind R :=
  canonical k.splitControls.1 (k.splitControls.2 + extra)

def name : GateKind R → String
  | standard g => g.name
  | controlled _ _ name => name

def numQubits : GateKind R → Nat
  | standard g => g.numQubits
  | controlled base n _ => n + base.rootWidth

def numControls (k : GateKind R) : Nat := k.splitControls.2

def action : GateKind R → Action
  | standard g => g.action
  | controlled base _ _ => base.action

def parameters : GateKind R → List (Expr R)
  | standard g => g.parameters
  | controlled base _ _ => base.parameters

end GateKind

structure Gate (R : Type) where
  kind : GateKind R
  label : Option String := none
  condition : Option Condition := none
  deriving BEq, DecidableEq, Repr

namespace Gate

variable {R : Type}

def ofStandard (g : Standard R) : Gate R := ⟨.standard g, none, none⟩

def controlled (g : Standard R) (controls : Nat) : Gate R :=
  ⟨(GateKind.standard g).withControls controls, none, none⟩

def withLabel (g : Gate R) (label : String) : Gate R := { g with label := some label }

def withCondition (g : Gate R) (c : Condition) : Gate R :=
  { g with condition := some (match g.condition with
      | some d => d.both c
      | none => c) }

end Gate

end Ancilla

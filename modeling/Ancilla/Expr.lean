import Ancilla.Scalar
import Ancilla.Ordered

/-!
Angle expressions. A gate angle may mention free symbols that are bound later; an expression is
kept as written, and folding replaces a subexpression by its value only where that value exists.
-/

namespace Ancilla

inductive ArithOp
  | add
  | sub
  | mul
  | div
  deriving DecidableEq, Repr

namespace ArithOp

variable {R : Type} [Scalar R]

def apply : ArithOp → R → R → R
  | add, x, y => x + y
  | sub, x, y => x - y
  | mul, x, y => x * y
  | div, x, y => x / y

def fold? (op : ArithOp) (x y : R) : Option R :=
  match op with
  | div => if y == Scalar.zero then none else some (x / y)
  | op => some (op.apply x y)

def sign : ArithOp → String
  | add => "+"
  | sub => "-"
  | mul => "*"
  | div => "/"

end ArithOp

inductive Expr (R : Type)
  | constant (value : R)
  | symbol (name : String)
  | pi
  | neg (e : Expr R)
  | binary (op : ArithOp) (a b : Expr R)
  deriving BEq, DecidableEq, Repr

/-- Values of free symbols; of two entries for one name the first counts. -/
abbrev Bindings (R : Type) := List (String × R)

def Bindings.binds {R : Type} (b : Bindings R) (name : String) : Bool :=
  (b.lookup name).isSome

inductive ParameterError
  | unbound (name : String)
  | nonFinite (expression : String)
  deriving DecidableEq, Repr

def ParameterError.message : ParameterError → String
  | unbound name => s!"Parameter '{name}' is unbound"
  | nonFinite e => s!"Parameter expression '{e}' is not finite"

namespace Expr

section Shape

variable {R : Type}

def isSymbolic : Expr R → Bool
  | constant _ => false
  | symbol _ => true
  | pi => false
  | neg e => e.isSymbolic
  | binary _ a b => a.isSymbolic || b.isSymbolic

def collectSymbols : Expr R → List String → List String
  | constant _, acc => acc
  | symbol name, acc => Ordered.insert name acc
  | pi, acc => acc
  | neg e, acc => e.collectSymbols acc
  | binary _ a b, acc => b.collectSymbols (a.collectSymbols acc)

def symbols (e : Expr R) : List String := e.collectSymbols []

def substitute (value? : String → Option R) : Expr R → Expr R
  | constant v => constant v
  | symbol name =>
    match value? name with
    | some v => constant v
    | none => symbol name
  | pi => pi
  | neg e => neg (e.substitute value?)
  | binary op a b => binary op (a.substitute value?) (b.substitute value?)

def bind (name : String) (v : R) (e : Expr R) : Expr R :=
  e.substitute fun n => if n = name then some v else none

end Shape

variable {R : Type} [Scalar R]

def value? : Expr R → Option R
  | constant v => some v
  | symbol _ => none
  | pi => some Scalar.pi
  | neg e => e.value?.map fun v => -v
  | binary op a b => do op.fold? (← a.value?) (← b.value?)

def eval? (b : Bindings R) : Expr R → Option R
  | constant v => some v
  | symbol name => b.lookup name
  | pi => some Scalar.pi
  | neg e => (e.eval? b).map fun v => -v
  | binary op x y => do return op.apply (← x.eval? b) (← y.eval? b)

def text : Expr R → String
  | constant v => Scalar.text v
  | symbol name => name
  | pi => "π"
  | neg e => "-(" ++ e.text ++ ")"
  | binary op a b => "(" ++ a.text ++ " " ++ op.sign ++ " " ++ b.text ++ ")"

def evaluate (b : Bindings R) (e : Expr R) : Except ParameterError R :=
  -- the first missing symbol in ascending order, whatever the shape of the expression
  match e.symbols.find? fun name => !b.binds name with
  | some name => .error (.unbound name)
  | none =>
    match e.eval? b with
    | some v => if Scalar.isFinite v then .ok v else .error (.nonFinite e.text)
    | none => .error (.nonFinite e.text)

def join (op : ArithOp) (a b : Expr R) : Expr R :=
  match a.value?, b.value? with
  | some x, some y =>
    match op.fold? x y with
    | some v => constant v
    | none => binary op a b
  | _, _ => binary op a b

def simplify (e : Expr R) : Expr R :=
  match e.value? with
  | some v => constant v
  | none =>
    match e with
    | neg a =>
      let a := a.simplify
      match a.value? with
      | some v => constant (-v)
      | none => neg a
    | binary op a b => join op a.simplify b.simplify
    | e => e

def bindAll (b : Bindings R) (e : Expr R) : Expr R :=
  (e.substitute fun name => b.lookup name).simplify

/-- The opposite angle: a number changes sign and a leading negation is dropped. -/
def opposite : Expr R → Expr R
  | constant v => constant (-v)
  | neg e => e
  | e => neg e

end Expr

end Ancilla

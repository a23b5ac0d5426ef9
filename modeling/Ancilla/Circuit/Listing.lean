import Ancilla.Circuit.Basic
import Ancilla.Text.Quoted

/-!
Exact listings of circuits: a line for every instruction, with the constants among its angles by
their bits, and a fingerprint of the lines.
-/

namespace Ancilla

namespace Listing

def word (w : UInt64) : String :=
  let digits := Text.hex w.toNat
  "".pushn '0' (16 - digits.length) ++ digits

def bits (x : Float) : String := if x.isNaN then "nan" else word x.toBits

def arith : ArithOp → String
  | .add => "add"
  | .sub => "sub"
  | .mul => "mul"
  | .div => "div"

def expr : Expr Float → String
  | .constant v => bits v
  | .symbol name => "$" ++ name
  | .pi => "pi"
  | .neg e => "neg(" ++ expr e ++ ")"
  | .binary op a b => arith op ++ "(" ++ expr a ++ "," ++ expr b ++ ")"

def kind (k : GateKind Float) : String :=
  let angles := k.parameters.map expr
  if angles.isEmpty then k.name else k.name ++ "(" ++ ",".intercalate angles ++ ")"

def ids (l : List Nat) : String := ",".intercalate (l.map toString)

def term (t : ClbitId × Bool) : String := toString t.1 ++ (if t.2 then "=1" else "=0")

def instruction (i : Instruction Float) : String :=
  let head := match i.gate? with
    | some g => kind g.kind
    | none => i.name
  head ++ " " ++ ids i.qubits ++ (if i.clbits.isEmpty then "" else " > " ++ ids i.clbits) ++
    ((i.condition?.map fun c => " ? " ++ "&".intercalate (c.terms.map term)).getD "") ++
    ((i.label?.map fun l => " # " ++ l).getD "")

def event : AllocationEvent → String
  | .allocate q n => "+" ++ toString q ++ "@" ++ toString n
  | .release q n => "-" ++ toString q ++ "@" ++ toString n

/-- A fingerprint of lines, each with its end: the 64-bit FNV-1a hash of their bytes. -/
def fingerprint (lines : List String) : String :=
  word (lines.foldl
    (fun h l => (l ++ "\n").toUTF8.foldl (fun h b => (h ^^^ b.toUInt64) * 0x100000001b3) h)
    0xcbf29ce484222325)

end Listing

namespace Circuit

def listingFrom (c : Circuit Float) (position : Nat) : List String :=
  (c.instructions.toList.drop position).map Listing.instruction

def eventsFrom (c : Circuit Float) (number : Nat) : List String :=
  (c.timeline.toList.drop number).map Listing.event

end Circuit

end Ancilla

import Ancilla.Decimal.Shortest
import Ancilla.Session.Build
import Ancilla.Simulation.Simulator
import Ancilla.Text.Quoted
import Ancilla.Word

/-!
Typed values and the bit patterns that stand for them. Bit `i` of a pattern is the reading of
qubit `i` of a variable, the least significant first.
-/

namespace Ancilla

inductive Value
  | int (v : Int)
  | real (v : Float)
  | bool (v : Bool)
  | char (v : Char)
  | bits (v : String)
  deriving BEq, Repr

def Value.text : Value → String
  | int v => toString v
  | real v => Decimal.text v
  | bool v => if v then "true" else "false"
  | char v => Text.quoted v
  | bits v => "0b" ++ v

inductive Decoder
  | integer (signed : Bool)
  | fixed (exponent : Int) (signed : Bool)
  | boolean
  | char
  | bitstring
  deriving DecidableEq, Repr

inductive VariableError
  | invalidWidth (decoder : String) (width : Nat)
  | overflow (decoder value : String) (width : Nat)
  | valueMismatch (decoder value : String)
  | unknownSymbol (c : Char)
  | inexact (value : Float) (exponent : Int)
  | session (e : SessionError)
  | simulation (e : SimulationError)

def VariableError.message : VariableError → String
  | invalidWidth decoder width => s!"Invalid width {width} for {decoder} variable"
  | overflow decoder value width => s!"Value {value} does not fit in {width} bits as {decoder}"
  | valueMismatch decoder value => s!"{decoder} variable cannot hold {value}"
  | unknownSymbol c => "Character " ++ Text.quoted c ++ " is not in the alphabet"
  | inexact value exponent =>
    Decimal.text value ++ " is not a multiple of 2^" ++ toString exponent
  | session e => e.message
  | simulation e => e.message

instance : FromSession VariableError := ⟨.session⟩

namespace Decoder

def alphabet : List Char := "abcdefghijklmnopqrstuvwxyz .,!?'".toList

def charWidth : Nat := 5

def maxNumericWidth : Nat := 63

def name : Decoder → String
  | integer _ => "integer"
  | fixed .. => "fixed"
  | boolean => "boolean"
  | char => "char"
  | bitstring => "bitstring"

def accepts (d : Decoder) (width : Nat) : Bool :=
  match d with
  | integer _ | fixed .. => 1 ≤ width && width ≤ maxNumericWidth
  | boolean => width = 1
  | char => width = charWidth
  | bitstring => 1 ≤ width && width ≤ 64

def checkWidth (d : Decoder) (width : Nat) : Except VariableError Unit :=
  if d.accepts width then .ok () else .error (.invalidWidth d.name width)

/-- The integer of a pattern, in two's complement if it is signed, worked out in words of 64 bits:
none where a shift is as long as the word or a number leaves it. -/
def readInt? (raw width : Nat) (signed : Bool) : Option Int :=
  if 64 ≤ width || signed && width = 0 then none
  else
    let low := raw % bitWeight width
    -- in a word with a sign the weight of its last bit is the least number
    let weight := (bitWeight width : Int).bmod Word.bound64
    if signed && low.testBit (width - 1) then Word.signed? Word.half64 (low - weight)
    else some low

def intRange (width : Nat) (signed : Bool) : Int × Int :=
  let half : Int := bitWeight (width - 1)
  if signed then (-half, half - 1) else (0, (bitWeight width : Int) - 1)

def writeInt (v : Int) (width : Nat) (signed : Bool) : Option Nat :=
  let (least, greatest) := intRange width signed
  if least ≤ v ∧ v ≤ greatest then some (v % (bitWeight width : Int)).toNat else none

def powerOfTwo (e : Int) : Float :=
  -- a negative power is 0 where its opposite is beyond the largest number
  if e < 0 then 1 / Float.scaleB 1 (-e) else Float.scaleB 1 e

def decode (d : Decoder) (raw width : Nat) : Option Value :=
  match d with
  | integer signed => (readInt? raw width signed).map .int
  | fixed exponent signed =>
    (readInt? raw width signed).map fun n => .real (Float.ofInt n * powerOfTwo exponent)
  | boolean => some (.bool (raw.testBit 0))
  | char => some (.char (alphabet.getD (raw % 32) 'a'))
  | bitstring =>
    let digit (i : Nat) : Char := if raw.testBit i then '1' else '0'
    if 64 < width then none
    else some (.bits (String.ofList ((List.range width).reverse.map digit)))

def overflow (d : Decoder) (v : Value) (width : Nat) : VariableError :=
  .overflow d.name v.text width

def encodeFixed (d : Decoder) (v : Float) (exponent : Int) (signed : Bool) (width : Nat) :
    Except VariableError Nat :=
  let scaled := v * powerOfTwo (-exponent)
  if !scaled.isFinite || scaled.floor != scaled then .error (.inexact v exponent)
  else if powerOfTwo maxNumericWidth ≤ scaled.abs then .error (d.overflow (.real v) width)
  else
    match writeInt scaled.toInt64.toInt width signed with
    | some raw => .ok raw
    | none => .error (d.overflow (.real v) width)

def readBinary : Nat → List Char → Option Nat
  | acc, [] => some acc
  | acc, '0' :: cs => readBinary (2 * acc) cs
  | acc, '1' :: cs => readBinary (2 * acc + 1) cs
  | _, _ => none

def encode (d : Decoder) (v : Value) (width : Nat) : Except VariableError Nat := do
  d.checkWidth width
  match d, v with
  | integer signed, .int n =>
    match writeInt n width signed with
    | some raw => return raw
    | none => throw (d.overflow v width)
  | fixed exponent signed, .real x => d.encodeFixed x exponent signed width
  | fixed exponent signed, .int n => d.encodeFixed (Float.ofInt n) exponent signed width
  | boolean, .bool b => return if b then 1 else 0
  | char, .char c =>
    match alphabet.findIdx? fun a => a = c with
    | some i => return i
    | none => throw (.unknownSymbol c)
  | bitstring, .bits s =>
    if s.utf8ByteSize ≠ width then throw (d.overflow v width)
    match readBinary 0 s.toList with
    | some raw => return raw
    | none => throw (.valueMismatch d.name s)
  | _, _ => throw (.valueMismatch d.name v.text)

end Decoder

end Ancilla

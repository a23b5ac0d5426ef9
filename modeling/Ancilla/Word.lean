/-! The weights of bits, and the ranges of numbers that are kept in words of 32 and 64 bits. -/

namespace Ancilla

def bitWeight (n : Nat) : Nat := Nat.pow 2 n

namespace Word

def bound32 : Nat := bitWeight 32

def bound64 : Nat := bitWeight 64

def half32 : Int := bitWeight 31

def half64 : Int := bitWeight 63

def signed? (half v : Int) : Option Int := if -half ≤ v ∧ v < half then some v else none

end Word

end Ancilla

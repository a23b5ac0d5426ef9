import Ancilla.Word

/-!
The random numbers of seeded simulations: the ChaCha stream cipher with twelve rounds, keyed by
the seed through a linear congruential generator, read as 64-bit words of which the upper 53 bits
make a number in [0, 1).
-/

namespace Ancilla

class DrawSource (σ : Type) (R : outParam Type) where
  next : σ → R × σ

/-- The state of the generator: the key, the number of draws made, and the current block of the
key stream. -/
structure Generator where
  key : Array UInt32
  position : Nat := 0
  block : Array UInt32 := #[]
  deriving DecidableEq, Repr

namespace Generator

def rotateLeft (x : UInt32) (n : UInt32) : UInt32 := (x <<< n) ||| (x >>> (32 - n))

def keyWord (state : UInt64) : UInt32 :=
  let x := (((state >>> 18) ^^^ state) >>> 27).toUInt32
  let r := (state >>> 59).toUInt32
  (x >>> r) ||| (x <<< ((32 - r) % 32))

def keyWords : Nat → UInt64 → List UInt32
  | 0, _ => []
  | n + 1, state =>
    let state := state * 6364136223846793005 + 11634580027462260723
    keyWord state :: keyWords n state

def ofSeed (seed : Nat) : Generator := { key := (keyWords 8 (UInt64.ofNat seed)).toArray }

def quarter (s : Array UInt32) (a b c d : Nat) : Array UInt32 :=
  let wa := s.getD a 0 + s.getD b 0
  let wd := rotateLeft (s.getD d 0 ^^^ wa) 16
  let wc := s.getD c 0 + wd
  let wb := rotateLeft (s.getD b 0 ^^^ wc) 12
  let wa := wa + wb
  let wd := rotateLeft (wd ^^^ wa) 8
  let wc := wc + wd
  let wb := rotateLeft (wb ^^^ wc) 7
  (((s.setIfInBounds a wa).setIfInBounds b wb).setIfInBounds c wc).setIfInBounds d wd

def rows : List (Nat × Nat × Nat × Nat) :=
  [(0, 4, 8, 12), (1, 5, 9, 13), (2, 6, 10, 14), (3, 7, 11, 15),
   (0, 5, 10, 15), (1, 6, 11, 12), (2, 7, 8, 13), (3, 4, 9, 14)]

def doubleRound (s : Array UInt32) : Array UInt32 :=
  rows.foldl (fun s (a, b, c, d) => quarter s a b c d) s

def blockAt (key : Array UInt32) (counter : Nat) : Array UInt32 :=
  let start : Array UInt32 := #[0x61707865, 0x3320646e, 0x79622d32, 0x6b206574] ++ key ++
    #[UInt32.ofNat counter, UInt32.ofNat (counter / Word.bound32), 0, 0]
  let mixed := (List.range 6).foldl (fun s _ => doubleRound s) start
  mixed.zipWith (· + ·) start

def nextWord (g : Generator) : UInt64 × Generator :=
  let slot := g.position % 8
  let block := if slot = 0 then blockAt g.key (g.position / 8) else g.block
  let low := (block.getD (2 * slot) 0).toUInt64
  let high := (block.getD (2 * slot + 1) 0).toUInt64
  (low ||| (high <<< 32), { g with position := g.position + 1, block })

def next (g : Generator) : Float × Generator :=
  let (w, g) := g.nextWord
  ((w >>> 11).toFloat / Float.ofNat (bitWeight 53), g)

instance : DrawSource Generator Float := ⟨next⟩

end Generator

end Ancilla

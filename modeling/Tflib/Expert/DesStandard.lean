import Tflib.Core.BitMoves
import Tflib.Core.Bytes
import Tflib.Core.Feistel

/-! # DES as the standard defines it

Bit 1 of a block, a key or a half is the leftmost.
-/

namespace Tflib.Expert.Standard

open Tflib.Core

/-! ## Tables -/

def initialPermutation : List Nat :=
  [58, 50, 42, 34, 26, 18, 10, 2, 60, 52, 44, 36, 28, 20, 12, 4,
   62, 54, 46, 38, 30, 22, 14, 6, 64, 56, 48, 40, 32, 24, 16, 8,
   57, 49, 41, 33, 25, 17, 9, 1, 59, 51, 43, 35, 27, 19, 11, 3,
   61, 53, 45, 37, 29, 21, 13, 5, 63, 55, 47, 39, 31, 23, 15, 7]

def inversePermutation : List Nat :=
  [40, 8, 48, 16, 56, 24, 64, 32, 39, 7, 47, 15, 55, 23, 63, 31,
   38, 6, 46, 14, 54, 22, 62, 30, 37, 5, 45, 13, 53, 21, 61, 29,
   36, 4, 44, 12, 52, 20, 60, 28, 35, 3, 43, 11, 51, 19, 59, 27,
   34, 2, 42, 10, 50, 18, 58, 26, 33, 1, 41, 9, 49, 17, 57, 25]

def expansion : List Nat :=
  [32, 1, 2, 3, 4, 5, 4, 5, 6, 7, 8, 9,
   8, 9, 10, 11, 12, 13, 12, 13, 14, 15, 16, 17,
   16, 17, 18, 19, 20, 21, 20, 21, 22, 23, 24, 25,
   24, 25, 26, 27, 28, 29, 28, 29, 30, 31, 32, 1]

def permutation : List Nat :=
  [16, 7, 20, 21, 29, 12, 28, 17, 1, 15, 23, 26, 5, 18, 31, 10,
   2, 8, 24, 14, 32, 27, 3, 9, 19, 13, 30, 6, 22, 11, 4, 25]

def permutedChoice1 : List Nat :=
  [57, 49, 41, 33, 25, 17, 9, 1, 58, 50, 42, 34, 26, 18,
   10, 2, 59, 51, 43, 35, 27, 19, 11, 3, 60, 52, 44, 36,
   63, 55, 47, 39, 31, 23, 15, 7, 62, 54, 46, 38, 30, 22,
   14, 6, 61, 53, 45, 37, 29, 21, 13, 5, 28, 20, 12, 4]

def permutedChoice2 : List Nat :=
  [14, 17, 11, 24, 1, 5, 3, 28, 15, 6, 21, 10,
   23, 19, 12, 4, 26, 8, 16, 7, 27, 20, 13, 2,
   41, 52, 31, 37, 47, 55, 30, 40, 51, 45, 33, 48,
   44, 49, 39, 56, 34, 53, 46, 42, 50, 36, 29, 32]

def leftShifts : List Nat := [1, 1, 2, 2, 2, 2, 2, 2, 1, 2, 2, 2, 2, 2, 2, 1]

/-- The rows of the eight S-boxes. -/
def sBoxes : List (List (List Nat)) :=
  [[[14, 4, 13, 1, 2, 15, 11, 8, 3, 10, 6, 12, 5, 9, 0, 7],
     [0, 15, 7, 4, 14, 2, 13, 1, 10, 6, 12, 11, 9, 5, 3, 8],
     [4, 1, 14, 8, 13, 6, 2, 11, 15, 12, 9, 7, 3, 10, 5, 0],
     [15, 12, 8, 2, 4, 9, 1, 7, 5, 11, 3, 14, 10, 0, 6, 13]],
   [[15, 1, 8, 14, 6, 11, 3, 4, 9, 7, 2, 13, 12, 0, 5, 10],
     [3, 13, 4, 7, 15, 2, 8, 14, 12, 0, 1, 10, 6, 9, 11, 5],
     [0, 14, 7, 11, 10, 4, 13, 1, 5, 8, 12, 6, 9, 3, 2, 15],
     [13, 8, 10, 1, 3, 15, 4, 2, 11, 6, 7, 12, 0, 5, 14, 9]],
   [[10, 0, 9, 14, 6, 3, 15, 5, 1, 13, 12, 7, 11, 4, 2, 8],
     [13, 7, 0, 9, 3, 4, 6, 10, 2, 8, 5, 14, 12, 11, 15, 1],
     [13, 6, 4, 9, 8, 15, 3, 0, 11, 1, 2, 12, 5, 10, 14, 7],
     [1, 10, 13, 0, 6, 9, 8, 7, 4, 15, 14, 3, 11, 5, 2, 12]],
   [[7, 13, 14, 3, 0, 6, 9, 10, 1, 2, 8, 5, 11, 12, 4, 15],
     [13, 8, 11, 5, 6, 15, 0, 3, 4, 7, 2, 12, 1, 10, 14, 9],
     [10, 6, 9, 0, 12, 11, 7, 13, 15, 1, 3, 14, 5, 2, 8, 4],
     [3, 15, 0, 6, 10, 1, 13, 8, 9, 4, 5, 11, 12, 7, 2, 14]],
   [[2, 12, 4, 1, 7, 10, 11, 6, 8, 5, 3, 15, 13, 0, 14, 9],
     [14, 11, 2, 12, 4, 7, 13, 1, 5, 0, 15, 10, 3, 9, 8, 6],
     [4, 2, 1, 11, 10, 13, 7, 8, 15, 9, 12, 5, 6, 3, 0, 14],
     [11, 8, 12, 7, 1, 14, 2, 13, 6, 15, 0, 9, 10, 4, 5, 3]],
   [[12, 1, 10, 15, 9, 2, 6, 8, 0, 13, 3, 4, 14, 7, 5, 11],
     [10, 15, 4, 2, 7, 12, 9, 5, 6, 1, 13, 14, 0, 11, 3, 8],
     [9, 14, 15, 5, 2, 8, 12, 3, 7, 0, 4, 10, 1, 13, 11, 6],
     [4, 3, 2, 12, 9, 5, 15, 10, 11, 14, 1, 7, 6, 0, 8, 13]],
   [[4, 11, 2, 14, 15, 0, 8, 13, 3, 12, 9, 7, 5, 10, 6, 1],
     [13, 0, 11, 7, 4, 9, 1, 10, 14, 3, 5, 12, 2, 15, 8, 6],
     [1, 4, 11, 13, 12, 3, 7, 14, 10, 15, 6, 8, 0, 5, 9, 2],
     [6, 11, 13, 8, 1, 4, 10, 7, 9, 5, 0, 15, 14, 2, 3, 12]],
   [[13, 2, 8, 4, 6, 15, 11, 1, 10, 9, 3, 14, 5, 0, 12, 7],
     [1, 15, 13, 8, 10, 3, 7, 4, 12, 5, 6, 11, 0, 14, 9, 2],
     [7, 11, 4, 1, 9, 12, 14, 2, 0, 6, 10, 13, 15, 3, 5, 8],
     [2, 1, 14, 7, 4, 10, 8, 13, 15, 12, 9, 0, 3, 5, 6, 11]]]

/-! ## The cipher -/

/-- The outer bits of `six` name the row, the inner ones the column. -/
def substitute (i : Nat) (six : BitVec 6) : BitVec 32 :=
  let row := 2 * (six.getMsbD 0).toNat + (six.getMsbD 5).toNat
  BitVec.ofNat 32 (((sBoxes.getD i []).getD row []).getD (six.extractLsb' 1 4).toNat 0)

/-- Six of the 48 bits, counted from the left. -/
def six (i : Nat) (b : BitVec 48) : BitVec 6 := b.extractLsb' (42 - 6 * i) 6

/-- The outputs of the S-boxes side by side. -/
def substitutions (b : BitVec 48) : BitVec 32 :=
  (List.range 8).foldl (fun out i => out ||| substitute i (six i b) <<< (28 - 4 * i)) 0#32

/-- The cipher function of a round. -/
def cipherFunction (k : BitVec 48) (r : BitVec 32) : BitVec 32 :=
  select permutation (substitutions (select expansion r ^^^ k))

/-- The keys of the rounds with these shifts, from the two halves before the first. -/
def roundKeys : List Nat → BitVec 28 → BitVec 28 → List (BitVec 48)
  | [], _, _ => []
  | s :: shifts, c, d =>
      select permutedChoice2 (c.rotateLeft s ++ d.rotateLeft s) ::
        roundKeys shifts (c.rotateLeft s) (d.rotateLeft s)

def keySchedule (key : BitVec 64) : List (BitVec 48) :=
  let cd : BitVec 56 := select permutedChoice1 key
  roundKeys leftShifts (cd.extractLsb' 28 28) (cd.extractLsb' 0 28)

/-- The cipher with the keys of its rounds; the halves are exchanged once more at the end. -/
def cipher (keys : List (BitVec 48)) (block : BitVec 64) : BitVec 64 :=
  let x : BitVec 64 := select initialPermutation block
  let b := Feistel.run (· ^^^ ·) cipherFunction keys (x.extractLsb' 32 32, x.extractLsb' 0 32)
  select inversePermutation (b.2 ++ b.1)

/-- A block from its bytes, the most significant one first. -/
def ofBytes (bs : Bytes) : BitVec 64 :=
  bs.foldl (fun x c => x <<< 8 ||| c.toBitVec.setWidth 64) 0#64

def toBytes (x : BitVec 64) : Bytes :=
  (List.range 8).map fun i => UInt8.ofBitVec (x.extractLsb' (56 - 8 * i) 8)

def encrypt (key block : BitVec 64) : BitVec 64 := cipher (keySchedule key) block

def decrypt (key block : BitVec 64) : BitVec 64 := cipher (keySchedule key).reverse block

/-- Triple DES; with two keys the first is the third as well. -/
def encrypt3 (key1 key2 key3 block : BitVec 64) : BitVec 64 :=
  encrypt key3 (decrypt key2 (encrypt key1 block))

def decrypt3 (key1 key2 key3 block : BitVec 64) : BitVec 64 :=
  decrypt key1 (encrypt key2 (decrypt key3 block))

end Tflib.Expert.Standard

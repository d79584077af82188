import Tflib.Core.BitMoves
import Tflib.Core.Bytes
import Mathlib.Data.Fin.Tuple.Basic

/-! # `expert/d3des.c`

Single, double and triple DES. An `unsigned long` has `w` bits, and what the
program stores beyond the lower 32 of them is kept.
-/

namespace Tflib.Expert

open Tflib.Core

variable {w : Nat}

/-! ## Tables -/

def dfKey : List UInt8 :=
  [0x01, 0x23, 0x45, 0x67, 0x89, 0xab, 0xcd, 0xef,
   0xfe, 0xdc, 0xba, 0x98, 0x76, 0x54, 0x32, 0x10,
   0x89, 0xab, 0xcd, 0xef, 0x01, 0x23, 0x45, 0x67]

def bytebit : List UInt8 := [0x80, 0x40, 0x20, 0x10, 0x08, 0x04, 0x02, 0x01]

def bigbyte : List Nat :=
  [0x800000, 0x400000, 0x200000, 0x100000, 0x80000, 0x40000, 0x20000, 0x10000,
   0x8000, 0x4000, 0x2000, 0x1000, 0x800, 0x400, 0x200, 0x100,
   0x80, 0x40, 0x20, 0x10, 0x8, 0x4, 0x2, 0x1]

def pc1 : List Nat :=
  [56, 48, 40, 32, 24, 16, 8, 0, 57, 49, 41, 33, 25, 17,
   9, 1, 58, 50, 42, 34, 26, 18, 10, 2, 59, 51, 43, 35,
   62, 54, 46, 38, 30, 22, 14, 6, 61, 53, 45, 37, 29, 21,
   13, 5, 60, 52, 44, 36, 28, 20, 12, 4, 27, 19, 11, 3]

def totrot : List Nat :=
  [1, 2, 4, 6, 8, 10, 12, 14, 15, 17, 19, 21, 23, 25, 27, 28]

def pc2 : List Nat :=
  [13, 16, 10, 23, 0, 4, 2, 27, 14, 5, 20, 9,
   22, 18, 11, 3, 25, 7, 15, 6, 26, 19, 12, 1,
   40, 51, 30, 36, 46, 54, 29, 39, 50, 44, 32, 47,
   43, 48, 38, 55, 33, 52, 45, 41, 49, 35, 28, 31]

def sp1 : List Nat :=
  [0x01010400, 0x00000000, 0x00010000, 0x01010404, 0x01010004, 0x00010404, 0x00000004, 0x00010000,
   0x00000400, 0x01010400, 0x01010404, 0x00000400, 0x01000404, 0x01010004, 0x01000000, 0x00000004,
   0x00000404, 0x01000400, 0x01000400, 0x00010400, 0x00010400, 0x01010000, 0x01010000, 0x01000404,
   0x00010004, 0x01000004, 0x01000004, 0x00010004, 0x00000000, 0x00000404, 0x00010404, 0x01000000,
   0x00010000, 0x01010404, 0x00000004, 0x01010000, 0x01010400, 0x01000000, 0x01000000, 0x00000400,
   0x01010004, 0x00010000, 0x00010400, 0x01000004, 0x00000400, 0x00000004, 0x01000404, 0x00010404,
   0x01010404, 0x00010004, 0x01010000, 0x01000404, 0x01000004, 0x00000404, 0x00010404, 0x01010400,
   0x00000404, 0x01000400, 0x01000400, 0x00000000, 0x00010004, 0x00010400, 0x00000000, 0x01010004]

def sp2 : List Nat :=
  [0x80108020, 0x80008000, 0x00008000, 0x00108020, 0x00100000, 0x00000020, 0x80100020, 0x80008020,
   0x80000020, 0x80108020, 0x80108000, 0x80000000, 0x80008000, 0x00100000, 0x00000020, 0x80100020,
   0x00108000, 0x00100020, 0x80008020, 0x00000000, 0x80000000, 0x00008000, 0x00108020, 0x80100000,
   0x00100020, 0x80000020, 0x00000000, 0x00108000, 0x00008020, 0x80108000, 0x80100000, 0x00008020,
   0x00000000, 0x00108020, 0x80100020, 0x00100000, 0x80008020, 0x80100000, 0x80108000, 0x00008000,
   0x80100000, 0x80008000, 0x00000020, 0x80108020, 0x00108020, 0x00000020, 0x00008000, 0x80000000,
   0x00008020, 0x80108000, 0x00100000, 0x80000020, 0x00100020, 0x80008020, 0x80000020, 0x00100020,
   0x00108000, 0x00000000, 0x80008000, 0x00008020, 0x80000000, 0x80100020, 0x80108020, 0x00108000]

def sp3 : List Nat :=
  [0x00000208, 0x08020200, 0x00000000, 0x08020008, 0x08000200, 0x00000000, 0x00020208, 0x08000200,
   0x00020008, 0x08000008, 0x08000008, 0x00020000, 0x08020208, 0x00020008, 0x08020000, 0x00000208,
   0x08000000, 0x00000008, 0x08020200, 0x00000200, 0x00020200, 0x08020000, 0x08020008, 0x00020208,
   0x08000208, 0x00020200, 0x00020000, 0x08000208, 0x00000008, 0x08020208, 0x00000200, 0x08000000,
   0x08020200, 0x08000000, 0x00020008, 0x00000208, 0x00020000, 0x08020200, 0x08000200, 0x00000000,
   0x00000200, 0x00020008, 0x08020208, 0x08000200, 0x08000008, 0x00000200, 0x00000000, 0x08020008,
   0x08000208, 0x00020000, 0x08000000, 0x08020208, 0x00000008, 0x00020208, 0x00020200, 0x08000008,
   0x08020000, 0x08000208, 0x00000208, 0x08020000, 0x00020208, 0x00000008, 0x08020008, 0x00020200]

def sp4 : List Nat :=
  [0x00802001, 0x00002081, 0x00002081, 0x00000080, 0x00802080, 0x00800081, 0x00800001, 0x00002001,
   0x00000000, 0x00802000, 0x00802000, 0x00802081, 0x00000081, 0x00000000, 0x00800080, 0x00800001,
   0x00000001, 0x00002000, 0x00800000, 0x00802001, 0x00000080, 0x00800000, 0x00002001, 0x00002080,
   0x00800081, 0x00000001, 0x00002080, 0x00800080, 0x00002000, 0x00802080, 0x00802081, 0x00000081,
   0x00800080, 0x00800001, 0x00802000, 0x00802081, 0x00000081, 0x00000000, 0x00000000, 0x00802000,
   0x00002080, 0x00800080, 0x00800081, 0x00000001, 0x00802001, 0x00002081, 0x00002081, 0x00000080,
   0x00802081, 0x00000081, 0x00000001, 0x00002000, 0x00800001, 0x00002001, 0x00802080, 0x00800081,
   0x00002001, 0x00002080, 0x00800000, 0x00802001, 0x00000080, 0x00800000, 0x00002000, 0x00802080]

def sp5 : List Nat :=
  [0x00000100, 0x02080100, 0x02080000, 0x42000100, 0x00080000, 0x00000100, 0x40000000, 0x02080000,
   0x40080100, 0x00080000, 0x02000100, 0x40080100, 0x42000100, 0x42080000, 0x00080100, 0x40000000,
   0x02000000, 0x40080000, 0x40080000, 0x00000000, 0x40000100, 0x42080100, 0x42080100, 0x02000100,
   0x42080000, 0x40000100, 0x00000000, 0x42000000, 0x02080100, 0x02000000, 0x42000000, 0x00080100,
   0x00080000, 0x42000100, 0x00000100, 0x02000000, 0x40000000, 0x02080000, 0x42000100, 0x40080100,
   0x02000100, 0x40000000, 0x42080000, 0x02080100, 0x40080100, 0x00000100, 0x02000000, 0x42080000,
   0x42080100, 0x00080100, 0x42000000, 0x42080100, 0x02080000, 0x00000000, 0x40080000, 0x42000000,
   0x00080100, 0x02000100, 0x40000100, 0x00080000, 0x00000000, 0x40080000, 0x02080100, 0x40000100]

def sp6 : List Nat :=
  [0x20000010, 0x20400000, 0x00004000, 0x20404010, 0x20400000, 0x00000010, 0x20404010, 0x00400000,
   0x20004000, 0x00404010, 0x00400000, 0x20000010, 0x00400010, 0x20004000, 0x20000000, 0x00004010,
   0x00000000, 0x00400010, 0x20004010, 0x00004000, 0x00404000, 0x20004010, 0x00000010, 0x20400010,
   0x20400010, 0x00000000, 0x00404010, 0x20404000, 0x00004010, 0x00404000, 0x20404000, 0x20000000,
   0x20004000, 0x00000010, 0x20400010, 0x00404000, 0x20404010, 0x00400000, 0x00004010, 0x20000010,
   0x00400000, 0x20004000, 0x20000000, 0x00004010, 0x20000010, 0x20404010, 0x00404000, 0x20400000,
   0x00404010, 0x20404000, 0x00000000, 0x20400010, 0x00000010, 0x00004000, 0x20400000, 0x00404010,
   0x00004000, 0x00400010, 0x20004010, 0x00000000, 0x20404000, 0x20000000, 0x00400010, 0x20004010]

def sp7 : List Nat :=
  [0x00200000, 0x04200002, 0x04000802, 0x00000000, 0x00000800, 0x04000802, 0x00200802, 0x04200800,
   0x04200802, 0x00200000, 0x00000000, 0x04000002, 0x00000002, 0x04000000, 0x04200002, 0x00000802,
   0x04000800, 0x00200802, 0x00200002, 0x04000800, 0x04000002, 0x04200000, 0x04200800, 0x00200002,
   0x04200000, 0x00000800, 0x00000802, 0x04200802, 0x00200800, 0x00000002, 0x04000000, 0x00200800,
   0x04000000, 0x00200800, 0x00200000, 0x04000802, 0x04000802, 0x04200002, 0x04200002, 0x00000002,
   0x00200002, 0x04000000, 0x04000800, 0x00200000, 0x04200800, 0x00000802, 0x00200802, 0x04200800,
   0x00000802, 0x04000002, 0x04200802, 0x04200000, 0x00200800, 0x00000000, 0x00000002, 0x04200802,
   0x00000000, 0x00200802, 0x04200000, 0x00000800, 0x04000002, 0x04000800, 0x00000800, 0x00200002]

def sp8 : List Nat :=
  [0x10001040, 0x00001000, 0x00040000, 0x10041040, 0x10000000, 0x10001040, 0x00000040, 0x10000000,
   0x00040040, 0x10040000, 0x10041040, 0x00041000, 0x10041000, 0x00041040, 0x00001000, 0x00000040,
   0x10040000, 0x10000040, 0x10001000, 0x00001040, 0x00041000, 0x00040040, 0x10040040, 0x10041000,
   0x00001040, 0x00000000, 0x00000000, 0x10040040, 0x10000040, 0x10001000, 0x00041040, 0x00040000,
   0x00041040, 0x00040000, 0x10041000, 0x00001000, 0x00000040, 0x10040040, 0x00001000, 0x00041040,
   0x10001000, 0x00000040, 0x10000040, 0x10040000, 0x10040040, 0x10000000, 0x00040000, 0x10001040,
   0x00000000, 0x10041040, 0x00040040, 0x10000040, 0x10040000, 0x10001000, 0x10001040, 0x00000000,
   0x10041040, 0x00041000, 0x00041000, 0x00001040, 0x00001040, 0x00040040, 0x10000000, 0x10041000]

/-! ## Keys -/

inductive Mode
  | en0
  | de1
  deriving DecidableEq, Repr

/-- The mode that undoes another. -/
def Mode.rev : Mode → Mode
  | .en0 => .de1
  | .de1 => .en0

/-- Two `unsigned long`s. -/
abbrev Words (w : Nat) := BitVec w × BitVec w

/-- An array of 32 `unsigned long`s. -/
abbrev Register (w : Nat) := Fin 32 → BitVec w

/-- `KEY_VAR_ST`. -/
structure KeyVar (w : Nat) where
  knL : Register w
  knR : Register w
  kn3 : Register w

/-- Entry `j` of `pc1m`. -/
def pc1m (key : Nat → UInt8) (j : Nat) : Bool :=
  let l := pc1.getD j 0
  let m := l &&& 7
  key (l >>> 3) &&& bytebit.getD m 0 ≠ 0

/-- Entry `j` of `pcr` in round `i`: each half is rotated for itself. -/
def pcr (pc1m : Nat → Bool) (i j : Nat) : Bool :=
  let l := j + totrot.getD i 0
  if j < 28 then if l < 28 then pc1m l else pc1m (l - 28)
  else if l < 56 then pc1m l else pc1m (l - 28)

/-- The word with the 24 bits that the entries `first` and on of `pc2` name. -/
def knWord (w : Nat) (pcr : Nat → Bool) (first : Nat) : BitVec w :=
  (List.range 24).foldl (fun kn j =>
    if pcr (pc2.getD (j + first) 0) then kn ||| BitVec.ofNat w (bigbyte.getD j 0) else kn) 0#w

/-- Words `2 * i` and `2 * i + 1`. -/
def Register.pair (r : Register w) (i : Fin 16) : Words w :=
  (r ⟨2 * i, by omega⟩, r ⟨2 * i + 1, by omega⟩)

def Register.storePair (r : Register w) (i : Fin 16) (b : Words w) : Register w :=
  Function.update (Function.update r ⟨2 * i, by omega⟩ b.1) ⟨2 * i + 1, by omega⟩ b.2

/-- Two words are stored in each of 16 rounds; every entry is stored to. -/
def storePairs (place : Fin 16 → Fin 16) (words : Fin 16 → Words w) : Register w :=
  (List.finRange 16).foldl (fun r i => r.storePair (place i) (words i)) fun _ => 0#w

/-- The array `kn` of `deskey`. -/
def kn (w : Nat) (key : Nat → UInt8) (edf : Mode) : Register w :=
  storePairs (fun i => if edf = .de1 then i.rev else i) fun i =>
    (knWord w (pcr (pc1m key) i) 0, knWord w (pcr (pc1m key) i) 24)

/-- The two words that `cookey` makes of two. -/
def cook (raw : Words w) : Words w :=
  ((raw.1 &&& 0x00fc0000#w) <<< 6 ||| (raw.1 &&& 0x00000fc0#w) <<< 10 |||
      (raw.2 &&& 0x00fc0000#w) >>> 10 ||| (raw.2 &&& 0x00000fc0#w) >>> 6,
    (raw.1 &&& 0x0003f000#w) <<< 12 ||| (raw.1 &&& 0x0000003f#w) <<< 16 |||
      (raw.2 &&& 0x0003f000#w) >>> 4 ||| (raw.2 &&& 0x0000003f#w))

def usekey (source : Register w) (kv : KeyVar w) : KeyVar w := { kv with knL := source }

def cookey (raw : Register w) (kv : KeyVar w) : KeyVar w :=
  usekey (storePairs id fun i => cook (raw.pair i)) kv

/-- `deskey`; `key` is what the pointer points to. -/
def deskey (key : Nat → UInt8) (edf : Mode) (kv : KeyVar w) : KeyVar w := cookey (kn w key edf) kv

/-- `cpkey`: what is stored at `into`. -/
def cpkey (kv : KeyVar w) : Register w := kv.knL

/-! ## One block -/

def rotateUp (x : BitVec w) : BitVec w := (x <<< 1 ||| x >>> 31 &&& 1#w) &&& 0xffffffff#w

def rotateDown (x : BitVec w) : BitVec w := x <<< 31 ||| x >>> 1

/-- `desfunc` in front of its loop. -/
def desHead (block : Words w) : Words w :=
  let (leftt, right) := exchange 4 0x0f0f0f0f#w block
  let (leftt, right) := exchange 16 0x0000ffff#w (leftt, right)
  let (right, leftt) := exchange 2 0x33333333#w (right, leftt)
  let (right, leftt) := exchange 8 0x00ff00ff#w (right, leftt)
  let right := rotateUp right
  -- this exchange has no shift
  let (leftt, right) := exchange 0 0xaaaaaaaa#w (leftt, right)
  let leftt := rotateUp leftt
  (leftt, right)

/-- `desfunc` after its loop. -/
def desTail (b : Words w) : Words w :=
  let (leftt, right) := b
  let right := rotateDown right
  let (leftt, right) := exchange 0 0xaaaaaaaa#w (leftt, right)
  let leftt := rotateDown leftt
  let (leftt, right) := exchange 8 0x00ff00ff#w (leftt, right)
  let (leftt, right) := exchange 2 0x33333333#w (leftt, right)
  let (right, leftt) := exchange 16 0x0000ffff#w (right, leftt)
  let (right, leftt) := exchange 4 0x0f0f0f0f#w (right, leftt)
  (right, leftt)

/-- `SP[(work >> k) & 0x3fL]`. -/
def spEntry (sp : List Nat) (work : BitVec w) (k : Nat) : BitVec w :=
  BitVec.ofNat w (sp.getD (work >>> k &&& 0x3f#w).toNat 0)

/-- `fval`, of one half and two words of the key. -/
def fval (keys : Words w) (half : BitVec w) : BitVec w :=
  let work := (half <<< 28 ||| half >>> 4) ^^^ keys.1
  let fval := spEntry sp7 work 0 ||| spEntry sp5 work 8 ||| spEntry sp3 work 16 ||| spEntry sp1 work 24
  let work := half ^^^ keys.2
  fval ||| spEntry sp8 work 0 ||| spEntry sp6 work 8 ||| spEntry sp4 work 16 ||| spEntry sp2 work 24

/-- The loop of `desfunc`. -/
def desRounds (keys : Register w) (b : Words w) : Words w :=
  (List.finRange 8).foldl (fun b (round : Fin 8) =>
    let leftt := b.1 ^^^ fval (keys.pair ⟨2 * round, by omega⟩) b.2
    let right := b.2 ^^^ fval (keys.pair ⟨2 * round + 1, by omega⟩) leftt
    (leftt, right)) b

def desfunc (block : Words w) (keys : Register w) : Words w := desTail (desRounds keys (desHead block))

def scrunch (w : Nat) (m : Memory) (outof : Nat) : Words w :=
  let c := fun i => (m (outof + i)).toBitVec.setWidth w &&& 0xff#w
  (c 0 <<< 24 ||| c 1 <<< 16 ||| c 2 <<< 8 ||| c 3, c 4 <<< 24 ||| c 5 <<< 16 ||| c 6 <<< 8 ||| c 7)

def unscrun (outof : Words w) (m : Memory) (into : Nat) : Memory :=
  let c := fun x : BitVec w => UInt8.ofBitVec ((x &&& 0xff#w).setWidth 8)
  m.store into
    [c (outof.1 >>> 24), c (outof.1 >>> 16), c (outof.1 >>> 8), c outof.1,
     c (outof.2 >>> 24), c (outof.2 >>> 16), c (outof.2 >>> 8), c outof.2]

def des (m : Memory) (inblock outblock : Nat) (kv : KeyVar w) : Memory :=
  unscrun (desfunc (scrunch w m inblock) kv.knL) m outblock

/-! ## Double and triple length -/

/-- The bytes from `&hexkey[n]` on. -/
def keyAt (hexkey : Nat → UInt8) (n : Nat) : Nat → UInt8 := fun i => hexkey (n + i)

def des2key (hexkey : Nat → UInt8) (mode : Mode) (kv : KeyVar w) : KeyVar w :=
  let kv := deskey (keyAt hexkey 8) mode.rev kv
  let kv := { kv with knR := cpkey kv }
  let kv := deskey hexkey mode kv
  { kv with kn3 := cpkey kv }

def des3key (hexkey : Nat → UInt8) (mode : Mode) (kv : KeyVar w) : KeyVar w :=
  let (revmod, first, third) :=
    match mode with
    | .en0 => (Mode.de1, hexkey, keyAt hexkey 16)
    | .de1 => (Mode.en0, keyAt hexkey 16, hexkey)
  let kv := deskey (keyAt hexkey 8) revmod kv
  let kv := { kv with knR := cpkey kv }
  let kv := deskey third mode kv
  let kv := { kv with kn3 := cpkey kv }
  deskey first mode kv

/-- `cp3key`: what is stored at `into`. -/
def cp3key (kv : KeyVar w) : Fin (32 + 32 + 32) → BitVec w := Fin.append (Fin.append (cpkey kv) kv.knR) kv.kn3

def use3key (source : Fin (32 + 32 + 32) → BitVec w) (kv : KeyVar w) : KeyVar w :=
  let kv := usekey (fun i => source (Fin.castAdd 32 (Fin.castAdd 32 i))) kv
  let kv := { kv with knR := fun i => source (Fin.castAdd 32 (Fin.natAdd 32 i)) }
  { kv with kn3 := fun i => source (Fin.natAdd (32 + 32) i) }

/-- `Ddes`. -/
def ddes (m : Memory) (source into : Nat) (kv : KeyVar w) : Memory :=
  let work := desfunc (scrunch w m source) kv.knL
  let work := desfunc work kv.knR
  let work := desfunc work kv.kn3
  unscrun work m into

/-- `D2des`. -/
def d2des (m : Memory) (source into : Nat) (kv : KeyVar w) : Memory :=
  let swap := fun leftt right : Words w => ((leftt.1, right.1), (leftt.2, right.2))
  let leftt := desfunc (scrunch w m source) kv.knL
  let right := desfunc (scrunch w m (source + 8)) kv.knL
  let (leftt, right) := swap leftt right
  let leftt := desfunc leftt kv.knR
  let right := desfunc right kv.knR
  let (leftt, right) := swap leftt right
  let leftt := desfunc leftt kv.kn3
  let right := desfunc right kv.kn3
  unscrun right (unscrun leftt m into) (into + 8)

/-- `D3des`. -/
def d3des (m : Memory) (source into : Nat) (kv : KeyVar w) : Memory :=
  let swap := fun leftt middl right : Words w =>
    ((leftt.1, middl.1), (leftt.2, right.1), (middl.2, right.2))
  let leftt := desfunc (scrunch w m source) kv.knL
  let middl := desfunc (scrunch w m (source + 8)) kv.knL
  let right := desfunc (scrunch w m (source + 16)) kv.knL
  let (leftt, middl, right) := swap leftt middl right
  let leftt := desfunc leftt kv.knR
  let middl := desfunc middl kv.knR
  let right := desfunc right kv.knR
  let (leftt, middl, right) := swap leftt middl right
  let leftt := desfunc leftt kv.kn3
  let middl := desfunc middl kv.kn3
  let right := desfunc right kv.kn3
  unscrun right (unscrun middl (unscrun leftt m into) (into + 8)) (into + 16)

end Tflib.Expert

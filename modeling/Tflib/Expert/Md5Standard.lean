import Tflib.Core.Blocks
import Tflib.Expert.Md5

/-! # The message digest

MD5 by itself: a message is padded, cut into blocks of 64 bytes, and each block is
compressed into a chain of four words in 64 rounds that are all alike.
-/

namespace Tflib.Expert.Digest

open Tflib.Core

/-! ## Tables -/

/-- The integer parts of `2 ^ 32 * |sin i|`. -/
def sines : List UInt32 :=
  [0xd76aa478, 0xe8c7b756, 0x242070db, 0xc1bdceee, 0xf57c0faf, 0x4787c62a,
   0xa8304613, 0xfd469501, 0x698098d8, 0x8b44f7af, 0xffff5bb1, 0x895cd7be,
   0x6b901122, 0xfd987193, 0xa679438e, 0x49b40821, 0xf61e2562, 0xc040b340,
   0x265e5a51, 0xe9b6c7aa, 0xd62f105d, 0x02441453, 0xd8a1e681, 0xe7d3fbc8,
   0x21e1cde6, 0xc33707d6, 0xf4d50d87, 0x455a14ed, 0xa9e3e905, 0xfcefa3f8,
   0x676f02d9, 0x8d2a4c8a, 0xfffa3942, 0x8771f681, 0x6d9d6122, 0xfde5380c,
   0xa4beea44, 0x4bdecfa9, 0xf6bb4b60, 0xbebfbc70, 0x289b7ec6, 0xeaa127fa,
   0xd4ef3085, 0x04881d05, 0xd9d4d039, 0xe6db99e5, 0x1fa27cf8, 0xc4ac5665,
   0xf4292244, 0x432aff97, 0xab9423a7, 0xfc93a039, 0x655b59c3, 0x8f0ccc92,
   0xffeff47d, 0x85845dd1, 0x6fa87e4f, 0xfe2ce6e0, 0xa3014314, 0x4e0811a1,
   0xf7537e82, 0xbd3af235, 0x2ad7d2bb, 0xeb86d391]

/-- Four shifts for each of the four passes. -/
def shifts : List UInt32 := [7, 12, 17, 22, 5, 9, 14, 20, 4, 11, 16, 23, 6, 10, 15, 21]

/-! ## Compression -/

def choose (x y z : UInt32) : UInt32 := (x &&& y) ||| (~~~x &&& z)

/-- The function of round `i`. -/
def function (i : Nat) (x y z : UInt32) : UInt32 :=
  match i / 16 with
  | 0 => choose x y z
  | 1 => (x &&& z) ||| (y &&& ~~~z)
  | 2 => x ^^^ y ^^^ z
  | _ => y ^^^ (x ||| ~~~z)

/-- The word of the block that round `i` takes. -/
def index (i : Nat) : Nat :=
  match i / 16 with
  | 0 => i % 16
  | 1 => (5 * i + 1) % 16
  | 2 => (3 * i + 5) % 16
  | _ => 7 * i % 16

def shift (i : Nat) : UInt32 := shifts.getD (4 * (i / 16) + i % 4) 0

def round (words : Nat → UInt32) (s : Chain) (i : Nat) : Chain where
  a := s.d
  b := s.b + rotated (s.a + function i s.b s.c s.d + words (index i) + sines.getD i 0) (shift i)
  c := s.b
  d := s.c

def compressWords (s : Chain) (words : Nat → UInt32) : Chain :=
  let s' := (List.range 64).foldl (round words) s
  ⟨s.a + s'.a, s.b + s'.b, s.c + s'.c, s.d + s'.d⟩

/-- Word `i` of a block; its first byte is the lowest. -/
def wordOf (block : Bytes) (i : Nat) : UInt32 := Order.little.word (fun j => block.getD j 0) (4 * i)

def compress (s : Chain) (block : Bytes) : Chain := compressWords s (wordOf block)

/-! ## Messages -/

def initial : Chain := ⟨0x67452301, 0xefcdab89, 0x98badcfe, 0x10325476⟩

/-- Eight bytes, the lowest first; higher digits are cut off. -/
def lengthBytes (n : Nat) : Bytes := (List.range 8).map fun i => UInt8.ofNat (n / 256 ^ i)

/-- What a message of `n` bytes is followed by. -/
def padding (n : Nat) : Bytes :=
  0x80 :: List.replicate ((119 - n % 64) % 64) 0 ++ lengthBytes (8 * n)

/-- The digest of a message. -/
def digest (message : Bytes) : Bytes :=
  ((blocks 64 (message ++ padding message.length)).foldl compress initial).bytes .little

end Tflib.Expert.Digest

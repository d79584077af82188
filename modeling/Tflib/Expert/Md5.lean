import Tflib.Core.Bytes

/-! # MD5

The digest as `md5.c` computes it, with the order of the bytes of a word left open:
the code casts its buffer of bytes to words, and turns the bytes around first so that
the cast gives the same on all machines.
-/

namespace Tflib.Expert

open Tflib.Core

/-! ## Words in memory -/

/-- Where the first byte of a word stands. -/
inductive Order where
  | little
  | big
  deriving DecidableEq

namespace Order

/-- A word as it lies in memory. -/
def bytes (o : Order) (x : UInt32) : Bytes :=
  let bs := [x.toUInt8, (x >>> 8).toUInt8, (x >>> 16).toUInt8, (x >>> 24).toUInt8]
  match o with
  | .little => bs
  | .big => bs.reverse

/-- The word at `p`. -/
def word (o : Order) (m : Memory) (p : Nat) : UInt32 :=
  let c := fun i => (m (p + i)).toUInt32
  match o with
  | .little => c 3 <<< 24 ||| c 2 <<< 16 ||| c 1 <<< 8 ||| c 0
  | .big => c 0 <<< 24 ||| c 1 <<< 16 ||| c 2 <<< 8 ||| c 3

end Order

/-- The loop makes `longs` rounds, which are at least one. -/
def byteReverse (o : Order) (m : Memory) (buf : Nat) : Nat → Memory
  | 0 => m
  | longs + 1 =>
      let c := fun i => (m (buf + i)).toUInt32
      let t := (c 3 <<< 8 ||| c 2) <<< 16 ||| (c 1 <<< 8 ||| c 0)
      byteReverse o (m.store buf (o.bytes t)) (buf + 4) longs

/-! ## The core -/

/-- `buf` of `struct MD5Context`, and the variables of `MD5Transform`. -/
structure Chain where
  a : UInt32
  b : UInt32
  c : UInt32
  d : UInt32
  deriving DecidableEq

inductive Var where
  | a
  | b
  | c
  | d
  deriving DecidableEq

def Chain.get (v : Chain) : Var → UInt32
  | .a => v.a
  | .b => v.b
  | .c => v.c
  | .d => v.d

def Chain.set (v : Chain) (x : UInt32) : Var → Chain
  | .a => { v with a := x }
  | .b => { v with b := x }
  | .c => { v with c := x }
  | .d => { v with d := x }

inductive Fun where
  | F1
  | F2
  | F3
  | F4
  deriving DecidableEq

def f1 (x y z : UInt32) : UInt32 := z ^^^ (x &&& (y ^^^ z))

def f2 (x y z : UInt32) : UInt32 := f1 z x y

def f3 (x y z : UInt32) : UInt32 := x ^^^ y ^^^ z

def f4 (x y z : UInt32) : UInt32 := y ^^^ (x ||| ~~~z)

def Fun.apply : Fun → UInt32 → UInt32 → UInt32 → UInt32
  | .F1 => f1
  | .F2 => f2
  | .F3 => f3
  | .F4 => f4

/-- `MD5STEP(f, w, x, y, z, in[k] + t, s)` -/
structure Step where
  f : Fun
  w : Var
  x : Var
  y : Var
  z : Var
  k : Nat
  t : UInt32
  s : UInt32
  deriving DecidableEq

/-- `w<<s | w>>(32-s)` -/
def rotated (w s : UInt32) : UInt32 := w <<< s ||| w >>> (32 - s)

/-- `MD5STEP`: only `w` is assigned to. -/
def md5Step (inn : Nat → UInt32) (v : Chain) (l : Step) : Chain :=
  let w := v.get l.w + (l.f.apply (v.get l.x) (v.get l.y) (v.get l.z) + (inn l.k + l.t))
  v.set (rotated w l.s + v.get l.x) l.w

/-- The steps of `MD5Transform`, line by line. -/
def steps : List Step :=
  [⟨.F1, .a, .b, .c, .d, 0, 0xd76aa478, 7⟩,
   ⟨.F1, .d, .a, .b, .c, 1, 0xe8c7b756, 12⟩,
   ⟨.F1, .c, .d, .a, .b, 2, 0x242070db, 17⟩,
   ⟨.F1, .b, .c, .d, .a, 3, 0xc1bdceee, 22⟩,
   ⟨.F1, .a, .b, .c, .d, 4, 0xf57c0faf, 7⟩,
   ⟨.F1, .d, .a, .b, .c, 5, 0x4787c62a, 12⟩,
   ⟨.F1, .c, .d, .a, .b, 6, 0xa8304613, 17⟩,
   ⟨.F1, .b, .c, .d, .a, 7, 0xfd469501, 22⟩,
   ⟨.F1, .a, .b, .c, .d, 8, 0x698098d8, 7⟩,
   ⟨.F1, .d, .a, .b, .c, 9, 0x8b44f7af, 12⟩,
   ⟨.F1, .c, .d, .a, .b, 10, 0xffff5bb1, 17⟩,
   ⟨.F1, .b, .c, .d, .a, 11, 0x895cd7be, 22⟩,
   ⟨.F1, .a, .b, .c, .d, 12, 0x6b901122, 7⟩,
   ⟨.F1, .d, .a, .b, .c, 13, 0xfd987193, 12⟩,
   ⟨.F1, .c, .d, .a, .b, 14, 0xa679438e, 17⟩,
   ⟨.F1, .b, .c, .d, .a, 15, 0x49b40821, 22⟩,
   ⟨.F2, .a, .b, .c, .d, 1, 0xf61e2562, 5⟩,
   ⟨.F2, .d, .a, .b, .c, 6, 0xc040b340, 9⟩,
   ⟨.F2, .c, .d, .a, .b, 11, 0x265e5a51, 14⟩,
   ⟨.F2, .b, .c, .d, .a, 0, 0xe9b6c7aa, 20⟩,
   ⟨.F2, .a, .b, .c, .d, 5, 0xd62f105d, 5⟩,
   ⟨.F2, .d, .a, .b, .c, 10, 0x02441453, 9⟩,
   ⟨.F2, .c, .d, .a, .b, 15, 0xd8a1e681, 14⟩,
   ⟨.F2, .b, .c, .d, .a, 4, 0xe7d3fbc8, 20⟩,
   ⟨.F2, .a, .b, .c, .d, 9, 0x21e1cde6, 5⟩,
   ⟨.F2, .d, .a, .b, .c, 14, 0xc33707d6, 9⟩,
   ⟨.F2, .c, .d, .a, .b, 3, 0xf4d50d87, 14⟩,
   ⟨.F2, .b, .c, .d, .a, 8, 0x455a14ed, 20⟩,
   ⟨.F2, .a, .b, .c, .d, 13, 0xa9e3e905, 5⟩,
   ⟨.F2, .d, .a, .b, .c, 2, 0xfcefa3f8, 9⟩,
   ⟨.F2, .c, .d, .a, .b, 7, 0x676f02d9, 14⟩,
   ⟨.F2, .b, .c, .d, .a, 12, 0x8d2a4c8a, 20⟩,
   ⟨.F3, .a, .b, .c, .d, 5, 0xfffa3942, 4⟩,
   ⟨.F3, .d, .a, .b, .c, 8, 0x8771f681, 11⟩,
   ⟨.F3, .c, .d, .a, .b, 11, 0x6d9d6122, 16⟩,
   ⟨.F3, .b, .c, .d, .a, 14, 0xfde5380c, 23⟩,
   ⟨.F3, .a, .b, .c, .d, 1, 0xa4beea44, 4⟩,
   ⟨.F3, .d, .a, .b, .c, 4, 0x4bdecfa9, 11⟩,
   ⟨.F3, .c, .d, .a, .b, 7, 0xf6bb4b60, 16⟩,
   ⟨.F3, .b, .c, .d, .a, 10, 0xbebfbc70, 23⟩,
   ⟨.F3, .a, .b, .c, .d, 13, 0x289b7ec6, 4⟩,
   ⟨.F3, .d, .a, .b, .c, 0, 0xeaa127fa, 11⟩,
   ⟨.F3, .c, .d, .a, .b, 3, 0xd4ef3085, 16⟩,
   ⟨.F3, .b, .c, .d, .a, 6, 0x04881d05, 23⟩,
   ⟨.F3, .a, .b, .c, .d, 9, 0xd9d4d039, 4⟩,
   ⟨.F3, .d, .a, .b, .c, 12, 0xe6db99e5, 11⟩,
   ⟨.F3, .c, .d, .a, .b, 15, 0x1fa27cf8, 16⟩,
   ⟨.F3, .b, .c, .d, .a, 2, 0xc4ac5665, 23⟩,
   ⟨.F4, .a, .b, .c, .d, 0, 0xf4292244, 6⟩,
   ⟨.F4, .d, .a, .b, .c, 7, 0x432aff97, 10⟩,
   ⟨.F4, .c, .d, .a, .b, 14, 0xab9423a7, 15⟩,
   ⟨.F4, .b, .c, .d, .a, 5, 0xfc93a039, 21⟩,
   ⟨.F4, .a, .b, .c, .d, 12, 0x655b59c3, 6⟩,
   ⟨.F4, .d, .a, .b, .c, 3, 0x8f0ccc92, 10⟩,
   ⟨.F4, .c, .d, .a, .b, 10, 0xffeff47d, 15⟩,
   ⟨.F4, .b, .c, .d, .a, 1, 0x85845dd1, 21⟩,
   ⟨.F4, .a, .b, .c, .d, 8, 0x6fa87e4f, 6⟩,
   ⟨.F4, .d, .a, .b, .c, 15, 0xfe2ce6e0, 10⟩,
   ⟨.F4, .c, .d, .a, .b, 6, 0xa3014314, 15⟩,
   ⟨.F4, .b, .c, .d, .a, 13, 0x4e0811a1, 21⟩,
   ⟨.F4, .a, .b, .c, .d, 4, 0xf7537e82, 6⟩,
   ⟨.F4, .d, .a, .b, .c, 11, 0xbd3af235, 10⟩,
   ⟨.F4, .c, .d, .a, .b, 2, 0x2ad7d2bb, 15⟩,
   ⟨.F4, .b, .c, .d, .a, 9, 0xeb86d391, 21⟩]

def md5Transform (buf : Chain) (inn : Nat → UInt32) : Chain :=
  let v := steps.foldl (md5Step inn) buf
  ⟨buf.a + v.a, buf.b + v.b, buf.c + v.c, buf.d + v.d⟩

/-! ## The context -/

structure MD5Context where
  buf : Chain
  bits : UInt32 × UInt32
  /-- The memory from `in` on; the first 64 bytes are its own. -/
  input : Memory

def md5Init (ctx : MD5Context) : MD5Context :=
  { ctx with buf := ⟨0x67452301, 0xefcdab89, 0x98badcfe, 0x10325476⟩, bits := (0, 0) }

/-- `MD5Transform(ctx->buf, (uint32_t *) ctx->in)` -/
def transformInput (o : Order) (ctx : MD5Context) : MD5Context :=
  { ctx with buf := md5Transform ctx.buf fun i => o.word ctx.input (4 * i) }

/-- `byteReverse(ctx->in, longs)` -/
def reverseInput (o : Order) (longs : Nat) (ctx : MD5Context) : MD5Context :=
  { ctx with input := byteReverse o ctx.input 0 longs }

/-- `memcpy` or `memset` to byte `p` of `in`. -/
def putInput (p : Nat) (bs : Bytes) (ctx : MD5Context) : MD5Context :=
  { ctx with input := ctx.input.store p bs }

/-- The loop over the 64-byte chunks of `MD5Update`, and what comes behind it; `buf` is at `off`. -/
def updateLoop (o : Order) (ctx : MD5Context) (buf : Memory) (off : Nat) (len : UInt32) : MD5Context :=
  if hlen : 64 ≤ len then
    let ctx := putInput 0 (buf.load off 64) ctx
    let ctx := transformInput o (reverseInput o 16 ctx)
    updateLoop o ctx buf (off + 64) (len - 64)
  else putInput 0 (buf.load off len.toNat) ctx
termination_by len.toNat
decreasing_by
  have hle : 64 ≤ len.toNat := UInt32.le_iff_toNat_le.mp hlen
  rw [UInt32.toNat_sub_of_le len 64 hlen]
  exact Nat.sub_lt (by omega) (by decide)

/-- `buf` is the memory from the pointer on. -/
def md5Update (o : Order) (ctx : MD5Context) (buf : Memory) (len : UInt32) : MD5Context :=
  let t := ctx.bits.1
  let low := t + (len <<< 3)
  let high := if low < t then ctx.bits.2 + 1 else ctx.bits.2
  let ctx := { ctx with bits := (low, high + (len >>> 29)) }
  let t := (t >>> 3) &&& 0x3f
  if t ≠ 0 then
    let p := t.toNat
    let t := 64 - t
    if len < t then putInput p (buf.load 0 len.toNat) ctx
    else
      let ctx := putInput p (buf.load 0 t.toNat) ctx
      let ctx := transformInput o (reverseInput o 16 ctx)
      updateLoop o ctx buf t.toNat (len - t)
  else updateLoop o ctx buf 0 len

/-- `ctx->buf` as it lies in memory. -/
def Chain.bytes (o : Order) (buf : Chain) : Bytes :=
  o.bytes buf.a ++ o.bytes buf.b ++ o.bytes buf.c ++ o.bytes buf.d

/-- `MD5Final` up to `byteReverse(ctx->in, 14)`. -/
def md5Pad (o : Order) (ctx : MD5Context) : MD5Context :=
  let count := (ctx.bits.1 >>> 3) &&& 0x3f
  let p := count.toNat
  let ctx := putInput p [0x80] ctx
  let p := p + 1
  let count := 64 - 1 - count
  if count < 8 then
    let ctx := putInput p (List.replicate count.toNat 0) ctx
    let ctx := transformInput o (reverseInput o 16 ctx)
    putInput 0 (List.replicate 56 0) ctx
  else putInput p (List.replicate (count - 8).toNat 0) ctx

/-- The digest and what is left of the context. `sizeof(ctx)` is the size of a pointer. -/
def md5Final (o : Order) (sizeofCtx : Nat) (ctx : MD5Context) : Bytes × MD5Context :=
  let ctx := reverseInput o 14 (md5Pad o ctx)
  let ctx := putInput (4 * 14) (o.bytes ctx.bits.1) ctx
  let ctx := putInput (4 * 15) (o.bytes ctx.bits.2) ctx
  let ctx := transformInput o ctx
  let m := byteReverse o (Memory.store (fun _ => 0) 0 (ctx.buf.bytes o)) 0 4
  let digest := m.load 0 16
  let m := m.store 0 (List.replicate sizeofCtx 0)
  (digest, { ctx with buf := ⟨o.word m 0, o.word m 4, o.word m 8, o.word m 12⟩ })

end Tflib.Expert

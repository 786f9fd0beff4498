import DnsWrapper.ByteWord

/-! The SHA-256 of tp/sha256.cpp, in the streaming form the query digest uses. -/
namespace DnsWrapper.Sha256
open ByteWord

def rotRight (a b : UInt32) : UInt32 := (a >>> b) ||| (a <<< (32 - b))
def ch (x y z : UInt32) : UInt32 := (x &&& y) ^^^ (~~~x &&& z)
def maj (x y z : UInt32) : UInt32 := (x &&& y) ^^^ (x &&& z) ^^^ (y &&& z)
def ep0 (x : UInt32) : UInt32 := rotRight x 2 ^^^ rotRight x 13 ^^^ rotRight x 22
def ep1 (x : UInt32) : UInt32 := rotRight x 6 ^^^ rotRight x 11 ^^^ rotRight x 25
def sig0 (x : UInt32) : UInt32 := rotRight x 7 ^^^ rotRight x 18 ^^^ (x >>> 3)
def sig1 (x : UInt32) : UInt32 := rotRight x 17 ^^^ rotRight x 19 ^^^ (x >>> 10)

def k : Array UInt32 := #[
  0x428a2f98, 0x71374491, 0xb5c0fbcf, 0xe9b5dba5, 0x3956c25b, 0x59f111f1,
  0x923f82a4, 0xab1c5ed5, 0xd807aa98, 0x12835b01, 0x243185be, 0x550c7dc3,
  0x72be5d74, 0x80deb1fe, 0x9bdc06a7, 0xc19bf174, 0xe49b69c1, 0xefbe4786,
  0x0fc19dc6, 0x240ca1cc, 0x2de92c6f, 0x4a7484aa, 0x5cb0a9dc, 0x76f988da,
  0x983e5152, 0xa831c66d, 0xb00327c8, 0xbf597fc7, 0xc6e00bf3, 0xd5a79147,
  0x06ca6351, 0x14292967, 0x27b70a85, 0x2e1b2138, 0x4d2c6dfc, 0x53380d13,
  0x650a7354, 0x766a0abb, 0x81c2c92e, 0x92722c85, 0xa2bfe8a1, 0xa81a664b,
  0xc24b8b70, 0xc76c51a3, 0xd192e819, 0xd6990624, 0xf40e3585, 0x106aa070,
  0x19a4c116, 0x1e376c08, 0x2748774c, 0x34b0bcb5, 0x391c0cb3, 0x4ed8aa4a,
  0x5b9cca4f, 0x682e6ff3, 0x748f82ee, 0x78a5636f, 0x84c87814, 0x8cc70208,
  0x90befffa, 0xa4506ceb, 0xbef9a3f7, 0xc67178f2]

structure State where
  a : UInt32
  b : UInt32
  c : UInt32
  d : UInt32
  e : UInt32
  f : UInt32
  g : UInt32
  h : UInt32

/- data holds the bytes of the current block that are written, datalen of them. -/
structure Ctx where
  data : List UInt8
  bitlen : UInt64
  state : State

def word (block : List UInt8) (j : Nat) : UInt32 :=
  join32 (block.getD j 0) (block.getD (j + 1) 0) (block.getD (j + 2) 0) (block.getD (j + 3) 0)

def schedule (block : List UInt8) : Array UInt32 :=
  (List.range 48).foldl
    (fun m i => m.push (sig1 (m.getD (i + 14) 0) + m.getD (i + 9) 0 + sig0 (m.getD (i + 1) 0) +
      m.getD i 0))
    ((Array.range 16).map fun i => word block (4 * i))

def round (m : Array UInt32) (s : State) (i : Nat) : State :=
  let t1 := s.h + ep1 s.e + ch s.e s.f s.g + k.getD i 0 + m.getD i 0
  let t2 := ep0 s.a + maj s.a s.b s.c
  ⟨t1 + t2, s.a, s.b, s.c, s.d + t1, s.e, s.f, s.g⟩

def transform (s : State) (block : List UInt8) : State :=
  let r := (List.range 64).foldl (round (schedule block)) s
  ⟨s.a + r.a, s.b + r.b, s.c + r.c, s.d + r.d, s.e + r.e, s.f + r.f, s.g + r.g, s.h + r.h⟩

def init : Ctx where
  data := []
  bitlen := 0
  state := ⟨0x6a09e667, 0xbb67ae85, 0x3c6ef372, 0xa54ff53a,
    0x510e527f, 0x9b05688c, 0x1f83d9ab, 0x5be0cd19⟩

def updateByte (ctx : Ctx) (b : UInt8) : Ctx :=
  let data := ctx.data ++ [b]
  if data.length = 64 then
    { data := [], bitlen := ctx.bitlen + 512, state := transform ctx.state data }
  else { ctx with data }

def update (ctx : Ctx) (data : List UInt8) : Ctx := data.foldl updateByte ctx

def lengthBytes (v : UInt64) : List UInt8 :=
  [56, 48, 40, 32, 24, 16, 8, 0].map fun i : UInt64 => (v >>> i).toUInt8

def final (ctx : Ctx) : List UInt8 :=
  let padded := ctx.data ++ [0x80]
  let bitlen := ctx.bitlen + UInt64.ofNat (ctx.data.length * 8)
  let state :=
    if ctx.data.length < 56 then
      transform ctx.state (padded ++ List.replicate (56 - padded.length) 0 ++ lengthBytes bitlen)
    else
      transform (transform ctx.state (padded ++ List.replicate (64 - padded.length) 0))
        (List.replicate 56 0 ++ lengthBytes bitlen)
  [state.a, state.b, state.c, state.d, state.e, state.f, state.g, state.h].flatMap bytes32

end DnsWrapper.Sha256

import Datasystem.Lib.Bytes

/-!
# Hash functions

SHA-256 digests come from the cryptographic library and are a parameter of the model: a digest may fail, and
has 32 bytes when it does not.
-/

namespace Datasystem

namespace MurmurHash

private def c1 : UInt32 := 0xcc9e2d51
private def c2 : UInt32 := 0x1b873593

def rotl (value r : UInt32) : UInt32 :=
  if value = 0 then value else (value <<< r) ||| (value >>> (32 - r))

def fmix (value : UInt32) : UInt32 :=
  let value := (value ^^^ (value >>> 16)) * 0x85ebca6b
  let value := (value ^^^ (value >>> 13)) * 0xc2b2ae35
  value ^^^ (value >>> 16)

/-- Up to four bytes as a word, least significant byte first. -/
def littleEndian : Bytes → UInt32
  | [] => 0
  | b :: bytes => b.toUInt32 ||| (littleEndian bytes <<< 8)

def scramble (k : UInt32) : UInt32 := rotl (k * c1) 15 * c2

/-- The blocks of four bytes, and then the rest. -/
def body (result : UInt32) : Bytes → UInt32
  | b0 :: b1 :: b2 :: b3 :: bytes =>
    body (rotl (result ^^^ scramble (littleEndian [b0,b1,b2,b3])) 13 * 5 + 0xe6546b64) bytes
  | [] => result
  | remain => result ^^^ scramble (littleEndian remain)

end MurmurHash

def murmurHash3_32 (data : Bytes) (seed : UInt32) : UInt32 :=
  MurmurHash.fmix (MurmurHash.body seed data ^^^ UInt32.ofNat data.length)

/-- Published test vectors of the hash: the empty string, `test` and `Hello, world!`. -/
example : murmurHash3_32 [] 1 = 0x514E28B7 ∧ murmurHash3_32 [116,101,115,116] 0 = 0xba6bd213 ∧
    murmurHash3_32 [72,101,108,108,111,44,32,119,111,114,108,100,33] 0 = 0xc0363e43 := by
  decide

/-- The SHA-256 function of the cryptographic library. -/
structure Hasher where
  hashSHA256 : Bytes → Option Bytes
  length_digest : ∀ data digest, hashSHA256 data = some digest → digest.length = 32

namespace Hasher

/-- No digest fails. -/
def Total (hasher : Hasher) : Prop := ∀ data, (hasher.hashSHA256 data).isSome

def hexDigit (n : UInt8) : UInt8 := if n < 10 then 48 + n else 87 + n

def hexEncode (data : Bytes) : Bytes := data.flatMap fun b => [hexDigit (b / 16),hexDigit (b % 16)]

theorem length_hexEncode (data : Bytes) : (hexEncode data).length = 2 * data.length := by
  induction data with
  | nil => rfl
  | cons b data ih =>
    simp only [hexEncode,List.flatMap_cons,List.length_append,List.length_cons,List.length_nil] at *
    omega

def getSha256Hex (hasher : Hasher) (data : Bytes) : Option Bytes := (hasher.hashSHA256 data).map hexEncode

theorem length_getSha256Hex {hasher : Hasher} {data hex : Bytes}
    (h : hasher.getSha256Hex data = some hex) : hex.length = 64 := by
  obtain ⟨digest,hdigest,rfl⟩ := Option.map_eq_some_iff.mp h
  rw [length_hexEncode,hasher.length_digest data digest hdigest]

end Hasher

namespace Sha256

private def roundConstants : List UInt32 :=
  [0x428a2f98,0x71374491,0xb5c0fbcf,0xe9b5dba5,0x3956c25b,0x59f111f1,0x923f82a4,0xab1c5ed5,
   0xd807aa98,0x12835b01,0x243185be,0x550c7dc3,0x72be5d74,0x80deb1fe,0x9bdc06a7,0xc19bf174,
   0xe49b69c1,0xefbe4786,0x0fc19dc6,0x240ca1cc,0x2de92c6f,0x4a7484aa,0x5cb0a9dc,0x76f988da,
   0x983e5152,0xa831c66d,0xb00327c8,0xbf597fc7,0xc6e00bf3,0xd5a79147,0x06ca6351,0x14292967,
   0x27b70a85,0x2e1b2138,0x4d2c6dfc,0x53380d13,0x650a7354,0x766a0abb,0x81c2c92e,0x92722c85,
   0xa2bfe8a1,0xa81a664b,0xc24b8b70,0xc76c51a3,0xd192e819,0xd6990624,0xf40e3585,0x106aa070,
   0x19a4c116,0x1e376c08,0x2748774c,0x34b0bcb5,0x391c0cb3,0x4ed8aa4a,0x5b9cca4f,0x682e6ff3,
   0x748f82ee,0x78a5636f,0x84c87814,0x8cc70208,0x90befffa,0xa4506ceb,0xbef9a3f7,0xc67178f2]

private def rotr (x r : UInt32) : UInt32 := (x >>> r) ||| (x <<< (32 - r))

structure Words where
  a : UInt32
  b : UInt32
  c : UInt32
  d : UInt32
  e : UInt32
  f : UInt32
  g : UInt32
  h : UInt32

def start : Words := ⟨0x6a09e667,0xbb67ae85,0x3c6ef372,0xa54ff53a,0x510e527f,0x9b05688c,0x1f83d9ab,0x5be0cd19⟩

def round (s : Words) (kw : UInt32) : Words :=
  let t1 := s.h + (rotr s.e 6 ^^^ rotr s.e 11 ^^^ rotr s.e 25) +
    ((s.e &&& s.f) ^^^ (~~~s.e &&& s.g)) + kw
  let t2 := (rotr s.a 2 ^^^ rotr s.a 13 ^^^ rotr s.a 22) +
    ((s.a &&& s.b) ^^^ (s.a &&& s.c) ^^^ (s.b &&& s.c))
  ⟨t1 + t2,s.a,s.b,s.c,s.d + t1,s.e,s.f,s.g⟩

/-- The word that follows in the message schedule; the schedule is kept latest word first. -/
def nextWord (schedule : List UInt32) : UInt32 :=
  let s0 := schedule.getD 14 0
  let s1 := schedule.getD 1 0
  (rotr s1 17 ^^^ rotr s1 19 ^^^ (s1 >>> 10)) + schedule.getD 6 0 +
    (rotr s0 7 ^^^ rotr s0 18 ^^^ (s0 >>> 3)) + schedule.getD 15 0

def extend : Nat → List UInt32 → List UInt32
  | 0, schedule => schedule
  | n + 1, schedule => extend n (nextWord schedule :: schedule)

def toWords : Bytes → List UInt32
  | b0 :: b1 :: b2 :: b3 :: bytes =>
    ((b0.toUInt32 <<< 24) ||| (b1.toUInt32 <<< 16) ||| (b2.toUInt32 <<< 8) ||| b3.toUInt32) ::
      toWords bytes
  | _ => []

def compress (s : Words) (block : Bytes) : Words :=
  let schedule := (extend 48 (toWords block).reverse).reverse
  let r := (List.zipWith (· + ·) roundConstants schedule).foldl round s
  ⟨s.a + r.a,s.b + r.b,s.c + r.c,s.d + r.d,s.e + r.e,s.f + r.f,s.g + r.g,s.h + r.h⟩

def pad (data : Bytes) : Bytes :=
  data ++ [0x80] ++ List.replicate ((119 - data.length % 64) % 64) 0 ++
    Bytes.bigEndian 8 (8 * data.length)

def compressAll : Nat → Words → Bytes → Words
  | 0, s, _ => s
  | blocks + 1, s, data => compressAll blocks (compress s (data.take 64)) (data.drop 64)

end Sha256

def sha256 (data : Bytes) : Bytes :=
  let padded := Sha256.pad data
  let s := Sha256.compressAll (padded.length / 64) Sha256.start padded
  [s.a,s.b,s.c,s.d,s.e,s.f,s.g,s.h].flatMap fun w => Bytes.bigEndian 4 w.toNat

/-- Published test vector of the hash: `abc`. -/
example : sha256 [97,98,99] = [0xba,0x78,0x16,0xbf,0x8f,0x01,0xcf,0xea,0x41,0x41,0x40,0xde,
    0x5d,0xae,0x22,0x23,0xb0,0x03,0x61,0xa3,0x96,0x17,0x7a,0x9c,0xb4,0x10,0xff,0x61,
    0xf2,0x00,0x15,0xad] := by
  decide +kernel

/-- A cryptographic library in which no digest fails. -/
def Hasher.openssl : Hasher where
  hashSHA256 data := some (sha256 data)
  length_digest data digest h := by
    cases h
    rfl

theorem Hasher.openssl_total : Hasher.openssl.Total := fun _ => rfl

end Datasystem

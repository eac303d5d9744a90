/-!
Fingerprints: 64-bit identities of types, functions and data members, computed from names and
parameter lists alone. Names are hashed by the 64-bit xxHash with seed zero.
-/

namespace StaticResolution

namespace Digest

def prime1 : UInt64 := 0x9E3779B185EBCA87
def prime2 : UInt64 := 0xC2B2AE3D27D4EB4F
def prime3 : UInt64 := 0x165667B19E3779F9
def prime4 : UInt64 := 0x85EBCA77C2B2AE63
def prime5 : UInt64 := 0x27D4EB2F165667C5

def rotateLeft (word amount : UInt64) : UInt64 :=
  (word <<< amount) ||| (word >>> (64 - amount))

def littleEndian (bytes : List UInt8) : UInt64 :=
  bytes.foldr (fun byte high => (high <<< 8) ||| byte.toUInt64) 0

def round (lane word : UInt64) : UInt64 :=
  rotateLeft (lane + word * prime2) 31 * prime1

structure Lanes where
  first : UInt64
  second : UInt64
  third : UInt64
  fourth : UInt64

def Lanes.initial : Lanes :=
  { first := prime1 + prime2, second := prime2, third := 0, fourth := 0 - prime1 }

def Lanes.absorb (lanes : Lanes) (block : List UInt8) : Lanes :=
  { first := round lanes.first (littleEndian (block.take 8))
    second := round lanes.second (littleEndian ((block.drop 8).take 8))
    third := round lanes.third (littleEndian ((block.drop 16).take 8))
    fourth := round lanes.fourth (littleEndian ((block.drop 24).take 8)) }

def mergeLane (state lane : UInt64) : UInt64 :=
  (state ^^^ round 0 lane) * prime1 + prime4

def Lanes.merge (lanes : Lanes) : UInt64 :=
  let state := rotateLeft lanes.first 1 + rotateLeft lanes.second 7
    + rotateLeft lanes.third 12 + rotateLeft lanes.fourth 18
  [lanes.first, lanes.second, lanes.third, lanes.fourth].foldl mergeLane state

def absorbBlocks (lanes : Lanes) (bytes : List UInt8) : Lanes × List UInt8 :=
  if 32 ≤ bytes.length then absorbBlocks (lanes.absorb (bytes.take 32)) (bytes.drop 32)
  else (lanes, bytes)
termination_by bytes.length
decreasing_by
  rw [List.length_drop]
  omega

def mixWord (state word : UInt64) : UInt64 :=
  rotateLeft (state ^^^ round 0 word) 27 * prime1 + prime4

def mixHalfWord (state word : UInt64) : UInt64 :=
  rotateLeft (state ^^^ word * prime1) 23 * prime2 + prime3

def mixByte (state : UInt64) (byte : UInt8) : UInt64 :=
  rotateLeft (state ^^^ byte.toUInt64 * prime5) 11 * prime1

def mixTail (state : UInt64) (bytes : List UInt8) : UInt64 :=
  if 8 ≤ bytes.length then
    mixTail (mixWord state (littleEndian (bytes.take 8))) (bytes.drop 8)
  else if 4 ≤ bytes.length then
    (bytes.drop 4).foldl mixByte (mixHalfWord state (littleEndian (bytes.take 4)))
  else bytes.foldl mixByte state
termination_by bytes.length
decreasing_by
  rw [List.length_drop]
  omega

def avalanche (state : UInt64) : UInt64 :=
  let state := (state ^^^ (state >>> 33)) * prime2
  let state := (state ^^^ (state >>> 29)) * prime3
  state ^^^ (state >>> 32)

def ofBytes (bytes : List UInt8) : UInt64 :=
  let (lanes, rest) := absorbBlocks Lanes.initial bytes
  let state := if 32 ≤ bytes.length then lanes.merge else prime5
  avalanche (mixTail (state + bytes.length.toUInt64) rest)

def ofText (text : String) : UInt64 :=
  ofBytes text.toUTF8.toList

end Digest

structure Fingerprint where
  bits : UInt64
deriving DecidableEq

namespace Fingerprint

def typeMarker : UInt64 := 0x2fac10b63a6cc57c
def functionMarker : UInt64 := 0x5ea77ffbcdf5f302
def methodMarker : UInt64 := 0x7d3c8b4a92e15f6d
def constructorMarker : UInt64 := 0x9a7f3d5e2b8c4601
def fieldMarker : UInt64 := 0x1a095090689d4647

/-- The multiplier between two parameters. It is odd, so multiplying by it loses nothing. -/
def separator : UInt64 := 0x4bc94d6bd06053ad

def firstPositionMarker : UInt64 := 0x9e3779b97f4a7c15

def positionMarkers : List UInt64 :=
  [firstPositionMarker, 0xbf58476d1ce4e5b9, 0x94d049bb133111eb, 0xd6e8feb86659fd93,
    0xe7037ed1a0b428db, 0xc6a4a7935bd1e995, 0x8648dbbc94d49b8d, 0xa2b48b2c69e0d657,
    0x7c3e9f2a5b8d1403, 0x5d8c7b4a3e9f2106, 0x3f1e9d8c7b5a4203, 0x1a2b3c4d5e6f7089,
    0x9f8e7d6c5b4a3210, 0x2468ace013579bdf, 0xfdb97531eca86420, 0x123456789abcdef0]

/-- The first sixteen positions have markers of their own, later ones count on from the first. -/
def positionMarker (position : Nat) : UInt64 :=
  positionMarkers[position]?.getD (firstPositionMarker + position.toUInt64)

def foldFrom (position : Nat) (state : UInt64) : List Fingerprint → UInt64
  | [] => state
  | param :: rest =>
      foldFrom (position + 1) (state * separator + (positionMarker position ^^^ param.bits)) rest

def foldParams (seed : UInt64) (params : List Fingerprint) : UInt64 :=
  foldFrom 0 seed params

def ofTypeName (name : String) : Fingerprint :=
  ⟨typeMarker ^^^ Digest.ofText name⟩

def ofFunction (name : String) (params : List Fingerprint) : Fingerprint :=
  ⟨foldParams (functionMarker ^^^ Digest.ofText name) params⟩

def ofMethod (owner : Fingerprint) (name : String) (params : List Fingerprint)
    (isConst : Bool) : Fingerprint :=
  ⟨foldParams (methodMarker ^^^ owner.bits ^^^ Digest.ofText name ^^^ isConst.toUInt64) params⟩

def ofConstructor (owner : Fingerprint) (params : List Fingerprint) : Fingerprint :=
  ⟨foldParams (constructorMarker ^^^ owner.bits) params⟩

def ofField (owner : Fingerprint) (name : String) : Fingerprint :=
  ⟨fieldMarker ^^^ owner.bits ^^^ Digest.ofText name⟩

def text (fingerprint : Fingerprint) : String :=
  let digits := Nat.toDigits 16 fingerprint.bits.toNat
  "0x" ++ String.ofList (List.replicate (16 - digits.length) '0' ++ digits)

end Fingerprint

end StaticResolution

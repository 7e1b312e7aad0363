import Mathlib.Tactic

namespace Redis.Geo

/-- One stage of the interleaving, `(x | (x << S)) & B`. -/
def spreadStage (s : Nat) (b x : BitVec 64) : BitVec 64 := (x ||| (x <<< s)) &&& b

/-- One stage of the reverse process, `(x | (x >> S)) & B`. -/
def gatherStage (s : Nat) (b x : BitVec 64) : BitVec 64 := (x ||| (x >>> s)) &&& b

/-- The stages that both coordinates pass. -/
def spread (x : BitVec 64) : BitVec 64 :=
  spreadStage 1 0x5555555555555555 (spreadStage 2 0x3333333333333333 (spreadStage 4 0x0F0F0F0F0F0F0F0F
    (spreadStage 8 0x00FF00FF00FF00FF (spreadStage 16 0x0000FFFF0000FFFF x))))

def gather (x : BitVec 64) : BitVec 64 :=
  gatherStage 16 0x00000000FFFFFFFF (gatherStage 8 0x0000FFFF0000FFFF (gatherStage 4 0x00FF00FF00FF00FF
    (gatherStage 2 0x0F0F0F0F0F0F0F0F (gatherStage 1 0x3333333333333333 (gatherStage 0 0x5555555555555555 x)))))

def interleave64 (xlo ylo : BitVec 32) : BitVec 64 := spread (xlo.setWidth 64) ||| (spread (ylo.setWidth 64) <<< 1)

def deinterleave64 (interleaved : BitVec 64) : BitVec 64 := gather interleaved ||| (gather (interleaved >>> 1) <<< 32)

structure GeoHashBits where
  bits : BitVec 64
  step : Nat
  deriving DecidableEq, Repr

/-- The coordinate at the places of `own` moves by one, the other coordinate stays. -/
def geohashMove (own other : BitVec 64) (hash : GeoHashBits) (d : Int) : GeoHashBits :=
  if d = 0 then hash
  else
    let x := hash.bits &&& own
    let y := hash.bits &&& other
    let zz := other >>> (64 - hash.step * 2)
    let x := if d > 0 then x + (zz + 1) else (x ||| zz) - (zz + 1)
    { hash with bits := (x &&& (own >>> (64 - hash.step * 2))) ||| y }

def geohashMoveX : GeoHashBits → Int → GeoHashBits := geohashMove 0xaaaaaaaaaaaaaaaa 0x5555555555555555

def geohashMoveY : GeoHashBits → Int → GeoHashBits := geohashMove 0x5555555555555555 0xaaaaaaaaaaaaaaaa

structure GeoHashNeighbors where
  north : GeoHashBits
  east : GeoHashBits
  west : GeoHashBits
  south : GeoHashBits
  northEast : GeoHashBits
  southEast : GeoHashBits
  northWest : GeoHashBits
  southWest : GeoHashBits
  deriving DecidableEq, Repr

def geohashNeighbors (hash : GeoHashBits) : GeoHashNeighbors where
  east := geohashMoveY (geohashMoveX hash 1) 0
  west := geohashMoveY (geohashMoveX hash (-1)) 0
  south := geohashMoveY (geohashMoveX hash 0) (-1)
  north := geohashMoveY (geohashMoveX hash 0) 1
  northWest := geohashMoveY (geohashMoveX hash (-1)) 1
  northEast := geohashMoveY (geohashMoveX hash 1) 1
  southEast := geohashMoveY (geohashMoveX hash 1) (-1)
  southWest := geohashMoveY (geohashMoveX hash (-1)) (-1)

end Redis.Geo

import Redis.Foundation.Bitwise
import Redis.Construction.Geohash

namespace Redis.Geo
open Foundation

theorem spread_linear : OrLinear spread :=
  have stage : ∀ s b, OrLinear (spreadStage s b) := fun s b => (OrLinear.id.sup (OrLinear.id.shiftLeft s)).and b
  (stage _ _).comp ((stage _ _).comp ((stage _ _).comp ((stage _ _).comp (stage _ _))))

theorem gather_linear : OrLinear gather :=
  have stage : ∀ s b, OrLinear (gatherStage s b) := fun s b => (OrLinear.id.sup (OrLinear.id.ushiftRight s)).and b
  (stage _ _).comp ((stage _ _).comp ((stage _ _).comp ((stage _ _).comp ((stage _ _).comp (stage _ _)))))

theorem deinterleave_linear : OrLinear deinterleave64 :=
  gather_linear.sup ((gather_linear.comp (OrLinear.id.ushiftRight 1)).shiftLeft 32)

/-- The mask of the even or odd places. -/
def lane (odd : Bool) : BitVec 64 := if odd then 0xaaaaaaaaaaaaaaaa else 0x5555555555555555

/-- One coordinate at its places. -/
def embed (odd : Bool) (a : BitVec 32) : BitVec 64 := spread (a.setWidth 64) <<< odd.toNat

theorem interleave64_eq (xlo ylo : BitVec 32) : interleave64 xlo ylo = embed false xlo ||| embed true ylo := by
  simp [interleave64, embed]

theorem embed_linear (odd : Bool) : OrLinear (embed odd) := (spread_linear.comp .setWidth).shiftLeft _

theorem getLsbD_embed (odd own : Bool) (a : BitVec 32) {i : Nat} (inside : i < 32) :
    (embed odd a).getLsbD (2 * i + own.toNat) = (decide (own = odd) && a.getLsbD i) := by
  apply (embed_linear odd).getLsbD
  revert i odd own
  decide +kernel

theorem getLsbD_deinterleave (odd : Bool) (a : BitVec 32) {place : Nat} (inside : place < 64) :
    (deinterleave64 (embed odd a)).getLsbD place = (decide (place / 32 = odd.toNat) && a.getLsbD (place % 32)) := by
  apply (deinterleave_linear.comp (embed_linear odd)).getLsbD
  revert place odd
  decide +kernel

theorem getLsbD_lane : ∀ (step : Nat) (_ : step ≤ 32) (odd own : Bool) (i : Nat) (_ : i < 32),
    (lane odd >>> (64 - step * 2)).getLsbD (2 * i + own.toNat) = (decide (own = odd) && decide (i < step)) := by
  decide +kernel

theorem embed_and_lane (odd own : Bool) (a : BitVec 32) :
    embed odd a &&& lane own = if odd = own then embed odd a else 0#64 := by
  apply @eq_of_pairs 32
  intro i inside lane'
  have mask : (lane own).getLsbD (2 * i + lane'.toNat) = _ := getLsbD_lane 32 le_rfl own lane' i inside
  rw [BitVec.getLsbD_and, mask, getLsbD_embed odd lane' a inside, decide_eq_true inside, Bool.and_true]
  split_ifs with same
  · rw [getLsbD_embed odd lane' a inside, same, Bool.and_right_comm, Bool.and_self]
  · cases odd <;> cases own <;> cases lane' <;> simp at same ⊢

/-- A coordinate that is moved in a grid of `2 ^ step` rows. -/
def moved (step : Nat) (a : BitVec 32) (d : Int) : BitVec 32 := (BitVec.ofInt step (a.toNat + d)).setWidth 32

section Move
variable {step : Nat} (small : step ≤ 32) {odd : Bool} {a : BitVec 32}

include small
/-- A sum over the filled gaps is the sum of the coordinates. -/
theorem add_and_lane {x y : BitVec 64} {b : BitVec step} {c : Bool}
    (pairs : ∀ i < step, x.getLsbD (2 * i + (!odd).toNat) = (!y.getLsbD (2 * i + (!odd).toNat)) ∧
      x.getLsbD (2 * i + odd.toNat) = (a.setWidth step).getLsbD i ∧ y.getLsbD (2 * i + odd.toNat) = b.getLsbD i) :
    (x + y + (BitVec.ofBool c).setWidth 64) &&& (lane odd >>> (64 - step * 2)) =
      embed odd ((a.setWidth step + b + (BitVec.ofBool c).setWidth step).setWidth 32) := by
  apply @eq_of_pairs 32
  intro i inside own
  rw [BitVec.getLsbD_and, getLsbD_lane step small odd own i inside, getLsbD_embed odd own _ inside,
    BitVec.getLsbD_setWidth]
  by_cases same : own = odd
  · subst same
    by_cases low : i < step
    · rw [getLsbD_add_pairs pairs low (by omega) le_rfl]
      simp [low, inside]
    · simp [low, BitVec.getLsbD_of_ge _ i (not_lt.1 low)]
  · simp [same]

theorem geohashMove_moved (inside : a.toNat < 2 ^ step) (b : BitVec 32) {d : Int} (near : d = 1 ∨ d = 0 ∨ d = -1) :
    geohashMove (lane odd) (lane !odd) ⟨embed odd a ||| embed (!odd) b, step⟩ d =
      ⟨embed odd (moved step a d) ||| embed (!odd) b, step⟩ := by
  have own : (embed odd a ||| embed (!odd) b) &&& lane odd = embed odd a := by
    simp [BitVec.and_or_distrib_right, embed_and_lane]
  have other : (embed odd a ||| embed (!odd) b) &&& lane (!odd) = embed (!odd) b := by
    simp [BitVec.and_or_distrib_right, embed_and_lane]
  have bits : ∀ i < step, ∀ place, (embed odd a).getLsbD (2 * i + place.toNat) = (decide (place = odd) && a.getLsbD i) ∧
      (lane (!odd) >>> (64 - step * 2)).getLsbD (2 * i + place.toNat) = decide (place = !odd) := by
    intro i below place
    rw [getLsbD_embed odd place a (by omega), getLsbD_lane step small (!odd) place i (by omega)]
    simp [below]
  have sum : moved step a d = (a.setWidth step + BitVec.ofInt step d).setWidth 32 := by
    rw [moved, BitVec.ofInt_add, BitVec.ofInt_natCast, BitVec.ofNat_toNat]
  unfold geohashMove
  rcases near with rfl | rfl | rfl
  · have one : BitVec.ofInt step 1 = BitVec.ofNat step 0 + (BitVec.ofBool true).setWidth step := by
      apply BitVec.eq_of_toNat_eq
      simp
    rw [if_neg (by decide)]
    dsimp only
    rw [if_pos (by decide), own, other, ← BitVec.add_assoc, sum, one, ← BitVec.add_assoc, ← add_and_lane small]
    · rfl
    · intro i below
      rw [(bits i below _).1, (bits i below _).1, (bits i below _).2, (bits i below _).2]
      simp [below]
  · have stays : (a.setWidth step).setWidth 32 = a := by
      apply BitVec.eq_of_toNat_eq
      simpa [Nat.mod_eq_of_lt inside] using a.isLt
    rw [if_pos rfl, sum, show BitVec.ofInt step 0 = BitVec.ofNat step 0 by simp, BitVec.add_zero, stays]
  · have minus : BitVec.ofInt step (-1) = BitVec.allOnes step + (BitVec.ofBool false).setWidth step := by
      rw [BitVec.ofInt_neg, ← BitVec.neg_one_eq_allOnes]
      simp
    have complement : ∀ x zz : BitVec 64, x - (zz + 1) = x + ~~~zz + (BitVec.ofBool false).setWidth 64 := by
      intro x zz
      rw [show (BitVec.ofBool false).setWidth 64 = 0#64 from rfl, BitVec.add_zero]
      bv_omega
    rw [if_neg (by decide)]
    dsimp only
    rw [if_neg (by decide), own, other, complement, sum, minus, ← BitVec.add_assoc, ← add_and_lane small]
    intro i below
    have := odd.toNat_lt
    have := (!odd).toNat_lt
    simp only [BitVec.getLsbD_or, BitVec.getLsbD_not]
    rw [(bits i below _).1, (bits i below _).1, (bits i below _).2, (bits i below _).2,
      decide_eq_true (by omega : 2 * i + odd.toNat < 64), decide_eq_true (by omega : 2 * i + (!odd).toNat < 64)]
    simp [below]
end Move

/-- The cell at this distance, in a grid that is closed at its borders. -/
def around (step : Nat) (lat lon : BitVec 32) (dy dx : Int) : GeoHashBits :=
  ⟨interleave64 (moved step lat dy) (moved step lon dx), step⟩

/-- The coordinates come back from an interleaved word, and the neighbors of a cell are the cells around it. -/
theorem geohash_cells_exact (step : Nat) (_positive : 1 ≤ step) (small : step ≤ 32) (lat lon : BitVec 32)
    (latInside : lat.toNat < 2 ^ step) (lonInside : lon.toNat < 2 ^ step) :
    deinterleave64 (interleave64 lat lon) = lat.setWidth 64 ||| (lon.setWidth 64 <<< 32) ∧
      geohashNeighbors ⟨interleave64 lat lon, step⟩ =
        { north := around step lat lon 1 0, east := around step lat lon 0 1, west := around step lat lon 0 (-1)
          south := around step lat lon (-1) 0, northEast := around step lat lon 1 1
          southEast := around step lat lon (-1) 1, northWest := around step lat lon 1 (-1)
          southWest := around step lat lon (-1) (-1) } := by
  constructor
  · rw [interleave64_eq, deinterleave_linear.or]
    apply BitVec.eq_of_getLsbD_eq
    intro place inside
    rw [BitVec.getLsbD_or, getLsbD_deinterleave false lat inside, getLsbD_deinterleave true lon inside]
    by_cases low : place < 32
    · simp [low, inside, Nat.mod_eq_of_lt low, Nat.div_eq_of_lt low]
    · simp [low, inside, show place / 32 = 1 by omega, show place % 32 = place - 32 by omega,
        BitVec.getLsbD_of_ge lat place (not_lt.1 low)]
  · have both : ∀ dx dy : Int, (dx = 1 ∨ dx = 0 ∨ dx = -1) → (dy = 1 ∨ dy = 0 ∨ dy = -1) →
        geohashMoveY (geohashMoveX ⟨interleave64 lat lon, step⟩ dx) dy = around step lat lon dy dx := by
      intro dx dy nearX nearY
      have alongX := @geohashMove_moved step small true lon lonInside lat dx nearX
      have alongY := @geohashMove_moved step small false lat latInside (moved step lon dx) dy nearY
      rw [Bool.not_true, BitVec.or_comm, BitVec.or_comm (embed true _), ← interleave64_eq, ← interleave64_eq] at alongX
      rw [Bool.not_false, ← interleave64_eq, ← interleave64_eq] at alongY
      exact (congrArg (geohashMoveY · dy) alongX).trans alongY
    unfold geohashNeighbors
    congr 1
    all_goals
      apply both
      · decide
      · decide

theorem geohash_cells_exact_corner : geohashNeighbors ⟨interleave64 3 0, 2⟩ =
    { north := ⟨interleave64 0 0, 2⟩, east := ⟨interleave64 3 1, 2⟩, west := ⟨interleave64 3 3, 2⟩
      south := ⟨interleave64 2 0, 2⟩, northEast := ⟨interleave64 0 1, 2⟩, southEast := ⟨interleave64 2 1, 2⟩
      northWest := ⟨interleave64 0 3, 2⟩, southWest := ⟨interleave64 2 3, 2⟩ } :=
  (geohash_cells_exact 2 (by decide) (by decide) 3 0 (by decide) (by decide)).2

end Redis.Geo

import Mathlib.Tactic

namespace Foundation

/-- The low bytes of a number, least significant byte first. -/
def leBytes : Nat → Nat → List UInt8
  | 0, _ => []
  | count + 1, value => UInt8.ofNat value :: leBytes count (value / 256)

/-- The number that little-endian bytes stand for. -/
def leValue : List UInt8 → Nat
  | [] => 0
  | byte :: bytes => byte.toNat + 256 * leValue bytes

@[simp] theorem length_leBytes (count value : Nat) : (leBytes count value).length = count := by
  induction count generalizing value with
  | zero => rfl
  | succ count ih => simp [leBytes, ih]

theorem leValue_leBytes (count value : Nat) : leValue (leBytes count value) = value % 256 ^ count := by
  induction count generalizing value with
  | zero => simp [leBytes, leValue, Nat.mod_one]
  | succ count ih =>
    have power : 256 ^ (count + 1) = 2 ^ 8 * 256 ^ count := pow_succ' 256 count
    rw [leBytes, leValue, ih, power, Nat.mod_mul]
    rfl

theorem leValue_lt (bytes : List UInt8) : leValue bytes < 256 ^ bytes.length := by
  induction bytes with
  | nil => simp [leValue]
  | cons byte bytes ih =>
    have small := byte.toNat_lt
    rw [leValue, List.length_cons]
    omega

theorem leValue_leBytes_of_lt {count value : Nat} (fits : value < 256 ^ count) :
    leValue (leBytes count value) = value := by
  rw [leValue_leBytes, Nat.mod_eq_of_lt fits]

theorem leBytes_leValue (bytes : List UInt8) : leBytes bytes.length (leValue bytes) = bytes := by
  induction bytes with
  | nil => rfl
  | cons byte bytes ih =>
    have small := byte.toNat_lt
    have low : UInt8.ofNat (byte.toNat + 256 * leValue bytes) = byte := by
      apply UInt8.toNat_inj.mp
      rw [UInt8.toNat_ofNat']
      omega
    have high : (byte.toNat + 256 * leValue bytes) / 256 = leValue bytes := by omega
    rw [List.length_cons, leValue, leBytes, low, high, ih]

/-- The two's complement bytes of an integer. -/
def twosBytes (count : Nat) (value : Int) : List UInt8 := leBytes count (value % 256 ^ count).toNat

/-- The integer that two's complement bytes stand for. -/
def twosValue (bytes : List UInt8) : Int := Int.bmod (leValue bytes) (256 ^ bytes.length)

@[simp] theorem length_twosBytes (count : Nat) (value : Int) :
    (twosBytes count value).length = count := length_leBytes _ _

theorem twosValue_twosBytes {count : Nat} {value : Int} (lower : -(256 ^ count / 2 : Nat) ≤ value)
    (upper : value < (256 ^ count / 2 : Nat)) (inhabited : 0 < count) :
    twosValue (twosBytes count value) = value := by
  obtain ⟨rest, rfl⟩ := Nat.exists_eq_succ_of_ne_zero inhabited.ne'
  have positive : (0 : Int) < 256 ^ (rest + 1) := by positivity
  have natural : ((value % 256 ^ (rest + 1)).toNat : Int) = value % 256 ^ (rest + 1) :=
    Int.toNat_of_nonneg (Int.emod_nonneg _ positive.ne')
  have fits : (value % 256 ^ (rest + 1)).toNat < 256 ^ (rest + 1) := by
    have below := Int.emod_lt_of_pos value positive
    zify
    rw [natural]
    exact below
  rw [twosValue, twosBytes, length_leBytes, leValue_leBytes_of_lt fits, natural]
  have cast : (256 ^ (rest + 1) : Int) = ((256 ^ (rest + 1) : Nat) : Int) := by push_cast; rfl
  have even : 256 ^ (rest + 1) = 2 * (256 ^ (rest + 1) / 2) := by
    rw [pow_succ]
    omega
  rw [cast, Int.emod_bmod]
  apply Int.bmod_eq_of_le
  · omega
  · omega

end Foundation

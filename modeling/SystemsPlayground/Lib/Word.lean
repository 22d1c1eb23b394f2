import Mathlib.Algebra.Ring.Nat
import Mathlib.Algebra.Ring.Int.Defs

/-!
# `Lib.Word` — fixed-width unsigned arithmetic over `Nat`

The values of a C unsigned type of width `w` are the naturals below `2 ^ w`, and every C operation
whose mathematical result may leave that range is written with an explicit reduction. This module
holds the reductions for 64 and 32 bits, the reading of a 64-bit pattern as a signed number, differences and
roundings, and the lemmas that remove a reduction whose argument is already in range. Signed operations and remainders are
partial: a result out of range, or a divisor of 0, is undefined in C and has no value here.
-/

namespace SystemsPlayground
namespace Word

/-- The result of a 64-bit unsigned operation whose mathematical value is `n`. -/
def u64 (n : Nat) : Nat := n % 2 ^ 64

/-- The result of a 32-bit unsigned operation whose mathematical value is `n`. -/
def u32 (n : Nat) : Nat := n % 2 ^ 32

/-- The two's-complement reading of a 64-bit pattern. -/
def toInt64 (n : Nat) : Int := if n < 2 ^ 63 then n else (n : Int) - 2 ^ 64

theorem u64_lt (n : Nat) : u64 n < 2 ^ 64 := Nat.mod_lt _ (by decide)

@[simp] theorem u64_of_lt {n : Nat} (h : n < 2 ^ 64) : u64 n = n := Nat.mod_eq_of_lt h

@[simp] theorem u32_of_lt {n : Nat} (h : n < 2 ^ 32) : u32 n = n := Nat.mod_eq_of_lt h

theorem u32_le (n : Nat) : u32 n ≤ n := Nat.mod_le _ _

theorem toInt64_of_lt {n : Nat} (h : n < 2 ^ 63) : toInt64 n = n := if_pos h

theorem toInt64_of_le {n : Nat} (h : 2 ^ 63 ≤ n) : toInt64 n = (n : Int) - 2 ^ 64 :=
  if_neg (Nat.not_lt.mpr h)

/-! ## Operations that may be undefined -/

/-- The result of a signed 64-bit operation whose mathematical value is `x`. -/
def i64 (x : Int) : Option Int := if -2 ^ 63 ≤ x ∧ x < 2 ^ 63 then some x else none

/-- The 64-bit pattern of a signed number. -/
def ofInt64 (x : Int) : Nat := (x % 2 ^ 64).toNat

/-- `a % m` of unsigned numbers. -/
def rem64 (a m : Nat) : Option Nat := if m = 0 then none else some (a % m)

theorem i64_of_mem {x : Int} (h : -2 ^ 63 ≤ x ∧ x < 2 ^ 63) : i64 x = some x := if_pos h

theorem rem64_of_pos {a m : Nat} (h : 0 < m) : rem64 a m = some (a % m) := if_neg (by omega)

/-! ## Differences and roundings of 64 bits -/

/-- `a - b` of 64-bit unsigned numbers. -/
def sub64 (a b : Nat) : Nat := u64 (a + (2 ^ 64 - b))

theorem sub64_of_le {a b : Nat} (h : b ≤ a) (ha : a < 2 ^ 64) : sub64 a b = a - b := by
  unfold sub64 u64
  omega

/-- `round_down`, for a power of two `a`. -/
def roundDown (x a : Nat) : Nat := x / a * a

/-- `round_up`, for a power of two `a`. -/
def roundUp (x a : Nat) : Nat := (x + a - 1) / a * a

theorem roundDown_le (x a : Nat) : roundDown x a ≤ x := Nat.div_mul_le_self x a

theorem lt_roundDown_add (x : Nat) {a : Nat} (ha : 0 < a) : x < roundDown x a + a := by
  unfold roundDown
  have h := Nat.div_add_mod x a
  have hm := Nat.mod_lt x ha
  rw [Nat.mul_comm] at h
  omega

theorem dvd_roundDown (x a : Nat) : a ∣ roundDown x a := ⟨x / a, Nat.mul_comm _ _⟩

/-- The multiple of `a` whose block of length `a` contains `x`. -/
theorem roundDown_eq {x y a : Nat} (hy : a ∣ y) (hyx : y ≤ x) (hxy : x < y + a) : roundDown x a = y := by
  obtain ⟨k, rfl⟩ := hy
  have ha : 0 < a := by omega
  have hk : x / a = k := by
    rw [Nat.mul_comm] at hyx hxy
    exact Nat.div_eq_of_lt_le hyx (by rw [Nat.succ_mul]; omega)
  rw [roundDown, hk, Nat.mul_comm]

@[simp] theorem roundDown_one (x : Nat) : roundDown x 1 = x := by simp [roundDown]

@[simp] theorem roundUp_one (x : Nat) : roundUp x 1 = x := by simp [roundUp]

/-! ## Masks of 32 bits -/

/-- `n - 1` of a 32-bit unsigned `n`. -/
def pred32 (n : Nat) : Nat := u32 (n + (2 ^ 32 - 1))

/-- The complement of a 32-bit pattern. -/
def not32 (n : Nat) : Nat := 2 ^ 32 - 1 - n

/-- `x & ~(a - 1)`, which for a power of two `a` rounds `x` down to a multiple of it. -/
def alignDown (x a : Nat) : Nat := x &&& not32 (pred32 a)

theorem alignDown_le (x a : Nat) : alignDown x a ≤ x := Nat.and_le_left

theorem pred32_two_pow {k : Nat} (hk : k < 32) : pred32 (2 ^ k) = 2 ^ k - 1 := by
  have hpos : 0 < 2 ^ k := Nat.two_pow_pos k
  have hlt : 2 ^ k < 2 ^ 32 := Nat.pow_lt_pow_right (by decide) hk
  unfold pred32 u32
  omega

/-- `x & (a - 1)`, for a power of two `a`. -/
theorem u32_and_pred32 {k : Nat} (hk : k < 32) (x : Nat) : u32 (x &&& pred32 (2 ^ k)) = x % 2 ^ k := by
  have hlt : 2 ^ k < 2 ^ 32 := Nat.pow_lt_pow_right (by decide) hk
  have hmod := Nat.mod_lt x (Nat.two_pow_pos k)
  rw [pred32_two_pow hk, Nat.and_two_pow_sub_one_eq_mod, u32_of_lt (by omega)]

theorem alignDown_two_pow {x k : Nat} (hx : x < 2 ^ 32) (hk : k < 32) :
    alignDown x (2 ^ k) = x / 2 ^ k * 2 ^ k := by
  have hpos : 0 < 2 ^ k := Nat.two_pow_pos k
  have hlt : 2 ^ k < 2 ^ 32 := Nat.pow_lt_pow_right (by decide) hk
  have hnot : not32 (2 ^ k - 1) = 2 ^ 32 - (2 ^ k - 1 + 1) := by
    unfold not32
    omega
  rw [alignDown, pred32_two_pow hk, hnot]
  apply Nat.eq_of_testBit_eq
  intro i
  rw [Nat.testBit_and, Nat.testBit_two_pow_sub_succ (by omega), Nat.testBit_two_pow_sub_one,
    Nat.testBit_mul_two_pow]
  by_cases hik : k ≤ i
  · rw [Nat.testBit_div_two_pow, Nat.sub_add_cancel hik]
    by_cases hi : i < 32
    · simp [hi, hik, Nat.not_lt.mpr hik]
    · have hbit : x.testBit i = false :=
        Nat.testBit_lt_two_pow (Nat.lt_of_lt_of_le hx (Nat.pow_le_pow_right (by decide) (by omega)))
      simp [hbit]
  · simp [hik, Nat.not_le.mp hik]

/-- A multiple of `2 ^ k` that is not above `x` is not above `x` rounded down. -/
theorem le_alignDown {x y k : Nat} (hx : x < 2 ^ 32) (hk : k < 32) (hy : 2 ^ k ∣ y) (hyx : y ≤ x) :
    y ≤ alignDown x (2 ^ k) := by
  rw [alignDown_two_pow hx hk, ← Nat.div_mul_cancel hy]
  exact Nat.mul_le_mul_right _ (Nat.div_le_div_right hyx)

end Word
end SystemsPlayground

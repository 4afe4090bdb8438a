import Mathlib.Tactic.Ring
import Mathlib.Tactic.Linarith

/-!
Fixed-width big-endian digits of a natural number, as octets.
`value` and `digits` are mutually inverse on their domains: `digits` keeps
exactly `width` octets, leading zeros included, and `value` is blind to none.
-/
namespace Hairgap.Base.BigEndian

/-- Number denoted by a list of octets, most significant first. -/
def value : List UInt8 → Nat
  | [] => 0
  | octet :: rest => octet.toNat * 256 ^ rest.length + value rest

/-- The `width` low base-256 digits of `n`, most significant first. -/
def digits : Nat → Nat → List UInt8
  | 0, _ => []
  | width + 1, n => UInt8.ofNat (n / 256 ^ width) :: digits width n

@[simp] theorem digits_length (width n : Nat) : (digits width n).length = width := by
  induction width with
  | zero => rfl
  | succ width ih => simp [digits, ih]

theorem value_lt (octets : List UInt8) : value octets < 256 ^ octets.length := by
  induction octets with
  | nil => simp [value]
  | cons octet rest ih =>
    have hb : octet.toNat ≤ 255 := by have := octet.toNat_lt; omega
    calc
      value (octet :: rest) < octet.toNat * 256 ^ rest.length + 256 ^ rest.length :=
        Nat.add_lt_add_left ih _
      _ ≤ 255 * 256 ^ rest.length + 256 ^ rest.length :=
        Nat.add_le_add_right (Nat.mul_le_mul_right _ hb) _
      _ = 256 ^ (octet :: rest).length := by rw [List.length_cons, Nat.pow_succ]; ring

/-- Digits above the width are dropped, as a store of a wider number does. -/
theorem value_digits (width n : Nat) : value (digits width n) = n % 256 ^ width := by
  induction width with
  | zero => simp [digits, value, Nat.mod_one]
  | succ width ih =>
    have hb : (UInt8.ofNat (n / 256 ^ width)).toNat = n / 256 ^ width % 256 :=
      UInt8.toNat_ofNat'
    rw [digits, value, digits_length, ih, hb, Nat.pow_succ, Nat.mod_mul, Nat.add_comm,
      Nat.mul_comm]

theorem digits_mod (width high n : Nat) :
    digits width (high * 256 ^ width + n) = digits width n := by
  induction width generalizing high with
  | zero => rfl
  | succ width ih =>
    have hpos : 0 < 256 ^ width := Nat.pow_pos (by decide)
    have hsplit : high * 256 ^ (width + 1) + n = high * 256 * 256 ^ width + n := by
      rw [Nat.pow_succ]; ring
    simp only [digits, hsplit, ih (high * 256)]
    congr 1
    apply UInt8.toNat_inj.mp
    rw [UInt8.toNat_ofNat', UInt8.toNat_ofNat', Nat.mul_comm, Nat.add_comm,
      Nat.add_mul_div_left _ _ hpos]
    omega

theorem digits_value (octets : List UInt8) : digits octets.length (value octets) = octets := by
  induction octets with
  | nil => rfl
  | cons octet rest ih =>
    have hlow : value rest / 256 ^ rest.length = 0 := Nat.div_eq_of_lt (value_lt rest)
    have hpos : 0 < 256 ^ rest.length := Nat.pow_pos (by decide)
    simp only [List.length_cons, digits, value, digits_mod, ih]
    congr 1
    rw [Nat.mul_comm, Nat.mul_add_div hpos, hlow, Nat.add_zero]
    exact UInt8.toNat_inj.mp (by simp)

end Hairgap.Base.BigEndian

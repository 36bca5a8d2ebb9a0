import Mathlib.Algebra.Order.Group.Nat
import Mathlib.Algebra.Ring.Nat

/-!
# Numbers as bytes, the lowest byte first

`bytes w n` are the `w` low bytes of `n` and `value` reads bytes back. Reading what was written
gives the number modulo `256 ^ w` (`value_bytes`), and writing what was read gives the bytes
(`bytes_value`).
-/

namespace LittleEndian

def bytes : ℕ → ℕ → List UInt8
  | 0, _ => []
  | w + 1, n => UInt8.ofNat n :: bytes w (n / 256)

def value : List UInt8 → ℕ
  | [] => 0
  | b :: bs => b.toNat + 256 * value bs

@[simp] theorem length_bytes (w n : ℕ) : (bytes w n).length = w := by
  induction w generalizing n with
  | zero => rfl
  | succ w ih => simp [bytes, ih]

theorem value_lt (bs : List UInt8) : value bs < 256 ^ bs.length := by
  induction bs with
  | nil => simp [value]
  | cons b bs ih =>
      have hb : b.toNat < 256 := b.toNat_lt
      simp only [value, List.length_cons, Nat.pow_succ]
      omega

theorem value_bytes (w n : ℕ) : value (bytes w n) = n % 256 ^ w := by
  induction w generalizing n with
  | zero => simp [bytes, value, Nat.mod_one]
  | succ w ih =>
      have hb : (UInt8.ofNat n).toNat = n % 256 := by simp
      rw [bytes, value, ih, hb, Nat.pow_succ, Nat.mul_comm (256 ^ w), Nat.mod_mul]

theorem value_bytes_of_lt {w n : ℕ} (h : n < 256 ^ w) : value (bytes w n) = n := by
  rw [value_bytes, Nat.mod_eq_of_lt h]

theorem bytes_value (bs : List UInt8) : bytes bs.length (value bs) = bs := by
  induction bs with
  | nil => rfl
  | cons b bs ih =>
      have hb : b.toNat < 256 := b.toNat_lt
      have hlow : UInt8.ofNat (b.toNat + 256 * value bs) = b := by
        apply UInt8.toNat_inj.mp
        simp
      have hhigh : (b.toNat + 256 * value bs) / 256 = value bs := by omega
      rw [List.length_cons, value, bytes, hlow, hhigh, ih]

end LittleEndian

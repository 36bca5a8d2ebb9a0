import Mathlib.Algebra.Order.Group.Nat
import Mathlib.Data.Char
import Mathlib.Data.List.Lex

/-!
# Decimal numbers of fixed width

`pad w n` is `n` in decimal with leading zeros up to the width `w`. Numbers of at most `w` digits
are in the order of their texts (`pad_lt_pad_iff`), also when the same text follows both, and
reading the digits gives the number back (`ofDigitChars_pad`).
-/

namespace Decimal

open Nat (toDigits ofDigitChars)

def pad (w n : ℕ) : List Char := List.replicate (w - (toDigits 10 n).length) '0' ++ toDigits 10 n

theorem isDigit_of_mem_pad {w n : ℕ} {c : Char} (h : c ∈ pad w n) : c.isDigit := by
  rcases List.mem_append.mp h with hzero | hdigit
  · rw [List.eq_of_mem_replicate hzero]
    decide
  · exact Nat.isDigit_of_mem_toDigits (by decide) (by decide) hdigit

theorem pad_ne_nil (w n : ℕ) : pad w n ≠ [] := by simp [pad]

theorem ofDigitChars_pad (w n : ℕ) : ofDigitChars 10 (pad w n) 0 = n := by
  rw [pad, Nat.ofDigitChars_append, Nat.ofDigitChars_replicate_zero, Nat.mul_zero,
    Nat.ofDigitChars_ten_toDigits]

theorem pad_injective (w : ℕ) : Function.Injective (pad w) := by
  intro a b h
  rw [← ofDigitChars_pad w a, h, ofDigitChars_pad]

theorem length_pad {w n : ℕ} (hw : 0 < w) (h : n < 10 ^ w) : (pad w n).length = w := by
  have := (Nat.length_toDigits_le_iff (by decide) hw).mpr h
  simp only [pad, List.length_append, List.length_replicate]
  omega

theorem isDigit_bounds {c : Char} (h : c.isDigit) : 48 ≤ c.toNat ∧ c.toNat ≤ 57 := by
  simp only [Char.isDigit, Bool.and_eq_true, decide_eq_true_eq] at h
  exact h

theorem ofDigitChars_cons_zero (c : Char) (l : List Char) :
    ofDigitChars 10 (c :: l) 0 = 10 ^ l.length * (c.toNat - 48) + ofDigitChars 10 l 0 := by
  rw [Nat.ofDigitChars_cons, Nat.ofDigitChars_eq_ofDigitChars_zero, Nat.mul_zero, Nat.zero_add]
  rfl

theorem ofDigitChars_lt {l : List Char} (h : ∀ c ∈ l, c.isDigit) :
    ofDigitChars 10 l 0 < 10 ^ l.length := by
  induction l with
  | nil => simp
  | cons c l ih =>
      have hl := ih fun d hd => h d (List.mem_cons_of_mem c hd)
      have hc := isDigit_bounds (h c List.mem_cons_self)
      rw [ofDigitChars_cons_zero, List.length_cons, Nat.pow_succ]
      calc 10 ^ l.length * (c.toNat - 48) + ofDigitChars 10 l 0
          < 10 ^ l.length * (c.toNat - 48) + 10 ^ l.length := by omega
        _ = 10 ^ l.length * (c.toNat - 48 + 1) := by rw [Nat.mul_succ]
        _ ≤ 10 ^ l.length * 10 := Nat.mul_le_mul_left _ (by omega)

/-- Digits of one length are in the order of their numbers. -/
theorem ofDigitChars_lt_of_lt {l m : List Char} (hl : ∀ c ∈ l, c.isDigit)
    (hm : ∀ c ∈ m, c.isDigit) (hlen : l.length = m.length) (h : l < m) :
    ofDigitChars 10 l 0 < ofDigitChars 10 m 0 := by
  induction l generalizing m with
  | nil =>
      cases m with
      | nil => exact absurd h (lt_irrefl _)
      | cons => cases hlen
  | cons c l ih =>
      cases m with
      | nil => cases hlen
      | cons d m =>
          have hlen' : l.length = m.length := Nat.succ.inj hlen
          have hc := isDigit_bounds (hl c List.mem_cons_self)
          have hltail : ∀ x ∈ l, x.isDigit := fun x hx => hl x (List.mem_cons_of_mem c hx)
          rw [ofDigitChars_cons_zero, ofDigitChars_cons_zero, hlen']
          rcases List.cons_lt_cons_iff.mp h with hlt | ⟨rfl, htail⟩
          · have hcd : c.toNat < d.toNat := hlt
            have hbound := ofDigitChars_lt hltail
            rw [hlen'] at hbound
            calc 10 ^ m.length * (c.toNat - 48) + ofDigitChars 10 l 0
                < 10 ^ m.length * (c.toNat - 48) + 10 ^ m.length := by omega
              _ = 10 ^ m.length * (c.toNat - 48 + 1) := by rw [Nat.mul_succ]
              _ ≤ 10 ^ m.length * (d.toNat - 48) := Nat.mul_le_mul_left _ (by omega)
              _ ≤ 10 ^ m.length * (d.toNat - 48) + ofDigitChars 10 m 0 := Nat.le_add_right _ _
          · have := ih hltail (fun x hx => hm x (List.mem_cons_of_mem c hx)) hlen' htail
            omega

theorem pad_lt_pad_iff {w a b : ℕ} (hw : 0 < w) (ha : a < 10 ^ w) (hb : b < 10 ^ w) :
    pad w a < pad w b ↔ a < b := by
  have hmono : ∀ {x y : ℕ}, x < 10 ^ w → y < 10 ^ w → pad w x < pad w y → x < y := by
    intro x y hx hy hlt
    have := ofDigitChars_lt_of_lt (fun _ => isDigit_of_mem_pad) (fun _ => isDigit_of_mem_pad)
      ((length_pad hw hx).trans (length_pad hw hy).symm) hlt
    rwa [ofDigitChars_pad, ofDigitChars_pad] at this
  refine ⟨hmono ha hb, fun hab => ?_⟩
  rcases lt_trichotomy (pad w a) (pad w b) with hlt | heq | hgt
  · exact hlt
  · exact absurd (pad_injective w heq) hab.ne
  · exact absurd (hmono hb ha hgt) hab.asymm

/-- Strings of one length stay in order with texts behind them. -/
theorem append_lt_append {l m : List Char} (hlen : l.length = m.length) (h : l < m)
    (s t : List Char) : l ++ s < m ++ t := by
  induction l generalizing m with
  | nil =>
      cases m with
      | nil => exact absurd h (lt_irrefl _)
      | cons => cases hlen
  | cons c l ih =>
      cases m with
      | nil => cases hlen
      | cons d m =>
          rw [List.cons_append, List.cons_append, List.cons_lt_cons_iff]
          rcases List.cons_lt_cons_iff.mp h with hlt | ⟨rfl, htail⟩
          · exact Or.inl hlt
          · exact Or.inr ⟨rfl, ih (Nat.succ.inj hlen) htail⟩

end Decimal

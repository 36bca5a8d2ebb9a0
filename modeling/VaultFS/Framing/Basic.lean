import Mathlib.Algebra.Order.Group.Nat
import Mathlib.Data.List.Basic

/-!
# Streams of framed records

A codec writes a record as a string over an alphabet and reads one record from the front of a
string. Only records that fit can be read back, and what is read is what is written at the front
of the string. A string is then in one way a sequence of records and a rest from which no record
can be read (`exists_splits`, `Splits.unique`).
-/

namespace Framing

structure Codec (β α ε : Type*) where
  encode : α → List β
  /-- The record at the front of a string and what follows it. -/
  decode : List β → Except ε (α × List β)
  Fits : α → Prop
  encode_ne_nil : ∀ a, encode a ≠ []
  decode_encode : ∀ {a} (rest : List β), Fits a → decode (encode a ++ rest) = .ok (a, rest)
  of_decode : ∀ {s a rest}, decode s = .ok (a, rest) → Fits a ∧ s = encode a ++ rest

namespace Codec

variable {β α ε : Type*} (c : Codec β α ε)

def encodeAll (as : List α) : List β := as.flatMap c.encode

@[simp] theorem encodeAll_nil : c.encodeAll [] = [] := rfl

@[simp] theorem encodeAll_cons (a : α) (as : List α) :
    c.encodeAll (a :: as) = c.encode a ++ c.encodeAll as := rfl

@[simp] theorem encodeAll_append (as bs : List α) :
    c.encodeAll (as ++ bs) = c.encodeAll as ++ c.encodeAll bs := List.flatMap_append

/-- The string is the records, followed by a rest at which decoding ends with the error. -/
structure Splits (s : List β) (as : List α) (tail : List β) (err : ε) : Prop where
  eq : s = c.encodeAll as ++ tail
  fits : ∀ a ∈ as, c.Fits a
  stop : c.decode tail = .error err

variable {c}

theorem length_lt_of_decode {s rest : List β} {a : α} (h : c.decode s = .ok (a, rest)) :
    rest.length < s.length := by
  rw [(c.of_decode h).2, List.length_append]
  have := List.length_pos_iff.mpr (c.encode_ne_nil a)
  omega

theorem Splits.nil {s : List β} {err : ε} (h : c.decode s = .error err) : c.Splits s [] s err :=
  ⟨rfl, by simp, h⟩

theorem Splits.cons {s rest tail : List β} {a : α} {as : List α} {err : ε}
    (h : c.decode s = .ok (a, rest)) (hrest : c.Splits rest as tail err) :
    c.Splits s (a :: as) tail err := by
  obtain ⟨hfits, rfl⟩ := c.of_decode h
  refine ⟨by simp [hrest.eq], ?_, hrest.stop⟩
  intro b hb
  rcases List.mem_cons.mp hb with rfl | hmem
  · exact hfits
  · exact hrest.fits b hmem

/-- Records in front of a string only add to its records. -/
theorem Splits.append {s tail : List β} {as bs : List α} {err : ε} (hfits : ∀ a ∈ as, c.Fits a)
    (h : c.Splits s bs tail err) : c.Splits (c.encodeAll as ++ s) (as ++ bs) tail err := by
  refine ⟨by simp [h.eq], ?_, h.stop⟩
  intro a ha
  rcases List.mem_append.mp ha with hl | hr
  · exact hfits a hl
  · exact h.fits a hr

theorem exists_splits (c : Codec β α ε) (s : List β) : ∃ as tail err, c.Splits s as tail err := by
  induction hn : s.length using Nat.strong_induction_on generalizing s with
  | _ n ih =>
      cases h : c.decode s with
      | error err => exact ⟨[], s, err, .nil h⟩
      | ok x =>
          obtain ⟨a, rest⟩ := x
          obtain ⟨as, tail, err, hrest⟩ := ih rest.length (hn ▸ length_lt_of_decode h) rest rfl
          exact ⟨a :: as, tail, err, hrest.cons h⟩

/-- What is decoded first, when the records are known. -/
theorem Splits.decode {s tail : List β} {a : α} {as : List α} {err : ε}
    (h : c.Splits s (a :: as) tail err) :
    ∃ rest, c.decode s = .ok (a, rest) ∧ c.Splits rest as tail err := by
  refine ⟨c.encodeAll as ++ tail, ?_, rfl, fun b hb => h.fits b (List.mem_cons_of_mem a hb), h.stop⟩
  rw [h.eq, encodeAll_cons, List.append_assoc]
  exact c.decode_encode _ (h.fits a List.mem_cons_self)

theorem Splits.decode_nil {s tail : List β} {err : ε} (h : c.Splits s [] tail err) :
    c.decode s = .error err := by
  have hs : s = tail := h.eq
  exact hs ▸ h.stop

theorem Splits.unique {s tail tail' : List β} {as as' : List α} {err err' : ε}
    (h : c.Splits s as tail err) (h' : c.Splits s as' tail' err') :
    as = as' ∧ tail = tail' ∧ err = err' := by
  induction as generalizing s as' with
  | nil =>
      have herr := h.decode_nil
      cases as' with
      | nil =>
          have htail : s = tail := h.eq
          have htail' : s = tail' := h'.eq
          rw [h'.decode_nil] at herr
          exact ⟨rfl, htail.symm.trans htail', (Except.error.inj herr).symm⟩
      | cons b bs =>
          obtain ⟨rest, hok, -⟩ := h'.decode
          rw [hok] at herr
          cases herr
  | cons a as ih =>
      obtain ⟨rest, hok, hrest⟩ := h.decode
      cases as' with
      | nil =>
          rw [h'.decode_nil] at hok
          cases hok
      | cons b bs =>
          obtain ⟨rest', hok', hrest'⟩ := h'.decode
          rw [hok, Except.ok.injEq, Prod.mk.injEq] at hok'
          obtain ⟨rfl, rfl⟩ := hok'
          obtain ⟨rfl, htail, herr⟩ := ih hrest hrest'
          exact ⟨rfl, htail, herr⟩

/-- Whole records at the front of a string are the first ones of its records. -/
theorem Splits.of_append {rest tail : List β} {as bs : List α} {err : ε}
    (h : c.Splits (c.encodeAll bs ++ rest) as tail err) (hfits : ∀ b ∈ bs, c.Fits b) :
    ∃ cs, as = bs ++ cs ∧ c.Splits rest cs tail err := by
  obtain ⟨cs, tail', err', hrest⟩ := c.exists_splits rest
  obtain ⟨rfl, rfl, rfl⟩ := h.unique (hrest.append hfits)
  exact ⟨cs, rfl, hrest⟩

end Codec

end Framing

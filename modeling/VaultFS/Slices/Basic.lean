import Mathlib.Algebra.Order.Group.Nat
import Mathlib.Data.List.Basic

/-!
# Slices over shared arrays

A heap is a list of arrays, and a slice is the first elements of one of them: its length, and a
capacity up to which `append` writes to the same array. Beyond the capacity `append` takes a new
array, with as many spare elements as the allocator likes (`grow`). The slices here all start where
their array starts.

`Frame h h' a` says that an operation on the heap leaves every array but `a` as it was. What a slice
reads then only changes if it is a slice of `a` (`Valid.read_frame`).
-/

namespace Slices

structure Heap (α : Type*) where
  arrays : List (List α)

structure Slice where
  array : ℕ
  len : ℕ
  cap : ℕ
  deriving DecidableEq

namespace Heap

variable {α : Type*}

def empty : Heap α := ⟨[]⟩

def size (h : Heap α) : ℕ := h.arrays.length

def array (h : Heap α) (a : ℕ) : List α := h.arrays.getD a []

/-- Store an element of an array. -/
def write (h : Heap α) (a i : ℕ) (x : α) : Heap α := ⟨h.arrays.modify a (·.set i x)⟩

/-- A new array. -/
def alloc (h : Heap α) (xs : List α) : Heap α := ⟨h.arrays ++ [xs]⟩

variable {h : Heap α} {a b i : ℕ} {x : α} {xs : List α}

@[simp] theorem size_write : (h.write a i x).size = h.size := by simp [size, write]

@[simp] theorem size_alloc : (h.alloc xs).size = h.size + 1 := by simp [size, alloc]

theorem array_write_of_ne (hne : b ≠ a) : (h.write a i x).array b = h.array b := by
  simp [array, write, hne.symm]

theorem array_write_self : (h.write a i x).array a = (h.array a).set i x := by
  simp only [array, write, List.getD_eq_getElem?_getD, List.getElem?_modify]
  cases h.arrays[a]? with
  | none => rfl
  | some l => simp

theorem array_alloc_of_lt (hlt : a < h.size) : (h.alloc xs).array a = h.array a := by
  simp [array, alloc, List.getElem?_append_left hlt]

@[simp] theorem array_alloc_size : (h.alloc xs).array h.size = xs := by
  simp [array, alloc, size]

theorem lt_size_of_array_ne_nil (hne : h.array a ≠ []) : a < h.size := by
  by_contra hge
  apply hne
  simp [array, List.getElem?_eq_none (not_lt.mp hge)]

end Heap

open Heap

/-- Nothing but the array `a` changes. -/
structure Frame {α : Type*} (h h' : Heap α) (a : ℕ) : Prop where
  size : h.size ≤ h'.size
  array : ∀ b < h.size, b ≠ a → h'.array b = h.array b

namespace Frame

variable {α : Type*} {h h' h'' : Heap α} {a : ℕ}

theorem refl (h : Heap α) (a : ℕ) : Frame h h a := ⟨le_rfl, fun _ _ _ => rfl⟩

theorem trans (hf : Frame h h' a) (hf' : Frame h' h'' a) : Frame h h'' a := by
  refine ⟨hf.size.trans hf'.size, ?_⟩
  intro b hb hne
  rw [hf'.array b (hb.trans_le hf.size) hne, hf.array b hb hne]

theorem write {i : ℕ} {x : α} : Frame h (h.write a i x) a :=
  ⟨by simp, fun _ _ hne => array_write_of_ne hne⟩

theorem alloc {xs : List α} : Frame h (h.alloc xs) a :=
  ⟨by simp, fun _ hb _ => array_alloc_of_lt hb⟩

end Frame

namespace Slice

variable {α : Type*}

/-- The slice that is `nil`. -/
def nil : Slice := ⟨0, 0, 0⟩

def read (h : Heap α) (s : Slice) : List α := (h.array s.array).take s.len

/-- The slice lies in its array. -/
structure Valid (h : Heap α) (s : Slice) : Prop where
  len_le : s.len ≤ s.cap
  cap_le : s.cap ≤ (h.array s.array).length

variable {h h' : Heap α} {s : Slice} {a : ℕ}

@[simp] theorem read_nil : nil.read h = [] := by simp [read, nil]

theorem valid_nil : nil.Valid h := ⟨le_rfl, Nat.zero_le _⟩

namespace Valid

theorem length_read (hs : s.Valid h) : (s.read h).length = s.len :=
  List.length_take_of_le (hs.len_le.trans hs.cap_le)

theorem lt_size (hs : s.Valid h) (hcap : 0 < s.cap) : s.array < h.size := by
  refine lt_size_of_array_ne_nil ?_
  rw [← List.length_pos_iff]
  exact hcap.trans_le hs.cap_le

/-- A slice that is not one of the array keeps its array. -/
theorem array_frame (hs : s.Valid h) (hcap : 0 < s.cap) (hf : Frame h h' a) (hne : s.array ≠ a) :
    h'.array s.array = h.array s.array :=
  hf.array _ (hs.lt_size hcap) hne

theorem frame (hs : s.Valid h) (hcap : 0 < s.cap) (hf : Frame h h' a) (hne : s.array ≠ a) :
    s.Valid h' :=
  ⟨hs.len_le, (hs.array_frame hcap hf hne).symm ▸ hs.cap_le⟩

theorem read_frame (hs : s.Valid h) (hcap : 0 < s.cap) (hf : Frame h h' a) (hne : s.array ≠ a) :
    s.read h' = s.read h := by
  rw [read, read, hs.array_frame hcap hf hne]

end Valid

/-- Store an element of a slice. -/
theorem read_write {i : ℕ} {x : α} : s.read (h.write s.array i x) = (s.read h).set i x := by
  rw [read, read, array_write_self, List.take_set]

theorem Valid.write {i : ℕ} {x : α} (hs : s.Valid h) : s.Valid (h.write s.array i x) := by
  refine ⟨hs.len_le, ?_⟩
  rw [array_write_self, List.length_set]
  exact hs.cap_le

theorem read_concat {i : ℕ} {xs : List α} (hi : i < xs.length) (x : α) :
    (xs.set i x).take (i + 1) = xs.take i ++ [x] := by
  rw [List.take_add_one, List.take_set_of_le le_rfl]
  simp [hi]

/-- A copy of a slice: `make` with its length, and `copy`. -/
def clone (h : Heap α) (s : Slice) : Heap α × Slice := (h.alloc (s.read h), ⟨h.size, s.len, s.len⟩)

theorem clone_spec (hs : s.Valid h) : (s.clone h).2.Valid (s.clone h).1 ∧
    (s.clone h).2.read (s.clone h).1 = s.read h ∧ (s.clone h).2.array = h.size ∧
    ∀ a, Frame h (s.clone h).1 a := by
  have hlen : (s.read h).length = s.len := hs.length_read
  refine ⟨⟨le_rfl, ?_⟩, ?_, rfl, fun _ => Frame.alloc⟩
  · simp [clone, hlen]
  · change List.take s.len ((h.alloc _).array h.size) = _
    rw [array_alloc_size, List.take_of_length_le hlen.le]

variable [Inhabited α]

/-- The element of a slice at an index. -/
def get (h : Heap α) (s : Slice) (i : ℕ) : α := (h.array s.array).getD i default

/-- The builtin `append`, for one element. -/
def append (grow : ℕ → ℕ) (h : Heap α) (s : Slice) (x : α) : Heap α × Slice :=
  if s.len < s.cap then (h.write s.array s.len x, { s with len := s.len + 1 })
  else
    let spare := grow s.len
    (h.alloc (s.read h ++ x :: List.replicate spare default),
      ⟨h.size, s.len + 1, s.len + 1 + spare⟩)

/-- The loop `for _, x := range s { if keep(x) { out = append(out, x) } }`, over the indices that
are left. It reads each element when its turn comes. -/
def filterLoop (grow : ℕ → ℕ) (keep : α → Bool) (s : Slice) :
    Heap α → Slice → List ℕ → Heap α × Slice
  | h, out, [] => (h, out)
  | h, out, i :: is =>
      if keep (s.get h i) then
        let r := out.append grow h (s.get h i)
        filterLoop grow keep s r.1 r.2 is
      else filterLoop grow keep s h out is

/-- The loop with `out := s[:0]`. -/
def filterInPlace (grow : ℕ → ℕ) (keep : α → Bool) (h : Heap α) (s : Slice) : Heap α × Slice :=
  filterLoop grow keep s h { s with len := 0 } (List.range s.len)

variable {grow : ℕ → ℕ} {x : α}

theorem append_of_lt (hlt : s.len < s.cap) :
    s.append grow h x = (h.write s.array s.len x, { s with len := s.len + 1 }) := if_pos hlt

/-- What `append` gives: the slice is longer by the element, and it has the old array or a new
one. -/
theorem append_spec (hs : s.Valid h) (grow : ℕ → ℕ) (x : α) :
    (s.append grow h x).2.Valid (s.append grow h x).1 ∧
    (s.append grow h x).2.read (s.append grow h x).1 = s.read h ++ [x] ∧
    ((s.append grow h x).2.array = s.array ∧ 0 < s.cap ∧ Frame h (s.append grow h x).1 s.array ∨
      (s.append grow h x).2.array = h.size ∧ ∀ a, Frame h (s.append grow h x).1 a) := by
  unfold append
  split
  · rename_i hlt
    refine ⟨⟨hlt, hs.write.cap_le⟩, ?_, .inl ⟨rfl, by omega, .write⟩⟩
    simp only [read, array_write_self]
    exact read_concat (hlt.trans_le hs.cap_le) x
  · have hlen : (s.read h).length = s.len := hs.length_read
    refine ⟨⟨by simp, ?_⟩, ?_, .inr ⟨rfl, fun a => .alloc⟩⟩
    · simp [hlen]
      omega
    · have hconcat : (s.read h ++ [x]).length = s.len + 1 := by simp [hlen]
      have hcells : s.read h ++ x :: List.replicate (grow s.len) default =
          (s.read h ++ [x]) ++ List.replicate (grow s.len) default := by simp
      change List.take (s.len + 1) ((h.alloc _).array h.size) = _
      rw [array_alloc_size, hcells, List.take_left' hconcat]

/-- The elements behind index `i` are still the old ones when the loop comes to it, since `out` is
never longer than what was read. -/
theorem filterLoop_spec (grow : ℕ → ℕ) (keep : α → Bool) {n i : ℕ} {out : Slice}
    (hs : s.Valid h) (hn : i + n = s.len) (harray : out.array = s.array)
    (hcap : out.cap = s.cap) (hlen : out.len ≤ i) :
    let r := filterLoop grow keep s h out (List.range' i n)
    r.2.array = s.array ∧ r.2.cap = s.cap ∧ r.2.len ≤ s.len ∧
    r.2.read r.1 = out.read h ++ ((s.read h).drop i).filter keep ∧
    (r.1.array s.array).length = (h.array s.array).length ∧ Frame h r.1 s.array := by
  induction n generalizing i h out with
  | zero =>
      have hdrop : (s.read h).drop i = [] := by
        rw [List.drop_eq_nil_iff, hs.length_read]
        omega
      simp only [List.range'_zero, filterLoop, hdrop, List.filter_nil, List.append_nil]
      exact ⟨harray, hcap, by omega, trivial, trivial, .refl h _⟩
  | succ n ih =>
      have hread : i < (s.read h).length := by
        rw [hs.length_read]
        omega
      have harr : i < (h.array s.array).length := hread.trans_le (List.length_take_le' _ _)
      have hget : s.get h i = (s.read h)[i] := by
        simp [get, read, List.getD, List.getElem?_eq_getElem harr]
      rw [List.range'_succ, filterLoop, List.drop_eq_getElem_cons hread, ← hget]
      by_cases hkeep : keep (s.get h i) = true
      · have hlt : out.len < out.cap := by
          have := hs.len_le
          omega
        rw [if_pos hkeep, append_of_lt hlt, List.filter_cons_of_pos hkeep, harray]
        have hsame : (s.read (h.write s.array out.len (s.get h i))).drop (i + 1) =
            (s.read h).drop (i + 1) := by
          rw [read_write, List.drop_set_of_lt (by omega)]
        have hshort : out.len + 1 ≤ i + 1 := by omega
        obtain ⟨hra, hrc, hrl, hrr, hrlen, hrf⟩ :=
          ih (hs.write (i := out.len) (x := s.get h i)) (by omega)
            (show ({ out with len := out.len + 1 } : Slice).array = s.array from harray) hcap hshort
        have hout : ({ out with len := out.len + 1 } : Slice).read
            (h.write s.array out.len (s.get h i)) = out.read h ++ [s.get h i] := by
          simp only [read, harray, array_write_self]
          exact read_concat (by omega) _
        simp only [harray] at hra hrc hrl hrr hrlen hrf hout ⊢
        refine ⟨hra, hrc, hrl, ?_, ?_, Frame.write.trans hrf⟩
        · rw [hrr, hout, hsame, List.append_assoc, List.singleton_append]
        · rw [hrlen, array_write_self, List.length_set]
      · rw [if_neg hkeep, List.filter_cons_of_neg hkeep]
        exact ih hs (by omega) harray hcap (by omega)

/-- Filtering in place gives the elements that are kept, in their order. -/
theorem filterInPlace_spec (hs : s.Valid h) (grow : ℕ → ℕ) (keep : α → Bool) :
    let r := s.filterInPlace grow keep h
    r.2.array = s.array ∧ r.2.cap = s.cap ∧ r.2.Valid r.1 ∧
    r.2.read r.1 = (s.read h).filter keep ∧ Frame h r.1 s.array := by
  obtain ⟨harray, hcap, hlen, hread, hlength, hframe⟩ :=
    filterLoop_spec grow keep hs (Nat.zero_add s.len)
      (show ({ s with len := 0 } : Slice).array = s.array from rfl) rfl le_rfl
  simp only [filterInPlace, List.range_eq_range']
  refine ⟨harray, hcap, ⟨?_, ?_⟩, ?_, hframe⟩
  · rw [hcap]
    exact hlen.trans hs.len_le
  · rw [harray, hcap, hlength]
    exact hs.cap_le
  · rw [hread]
    simp [read]

end Slice

end Slices

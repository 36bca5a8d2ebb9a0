import Mathlib.Data.Finset.Preimage
import Mathlib.Data.Fintype.EquivFin
import Mathlib.Data.List.Lex
import Mathlib.Data.List.Sort

/-!
# Ordered key-value stores

A store maps keys, which are strings over an ordered alphabet, to values. `Store` has
its operations and `LawfulStore` what is known about them. A scan lists the pairs whose
key begins with a given string in the order of the keys; since the laws fix its members
and its order, it depends on the contents of the store only (`scan_map_congr`).

`SortedList` is a store whose representation is the list of its pairs in order.
-/

namespace KeyValue

class Store (σ : Type*) (α ν : outParam (Type*)) where
  empty : σ
  get : σ → List α → Option ν
  put : σ → List α → ν → σ
  delete : σ → List α → σ
  /-- The pairs whose key begins with the given string. -/
  scan : σ → List α → List (List α × ν)

export Store (get put delete scan)

class LawfulStore (σ : Type*) {α ν : outParam (Type*)} [LinearOrder α] [Store σ α ν] : Prop where
  get_empty : ∀ k, get (Store.empty : σ) k = none
  get_put_self : ∀ (s : σ) k v, get (put s k v) k = some v
  get_put_of_ne : ∀ (s : σ) {k k'} v, k' ≠ k → get (put s k v) k' = get s k'
  get_delete_self : ∀ (s : σ) k, get (delete s k) k = none
  get_delete_of_ne : ∀ (s : σ) {k k'}, k' ≠ k → get (delete s k) k' = get s k'
  mem_scan : ∀ (s : σ) p k v, (k, v) ∈ scan s p ↔ p <+: k ∧ get s k = some v
  pairwise_scan : ∀ (s : σ) p, (scan s p).Pairwise fun x y => x.1 < y.1

export LawfulStore (get_empty get_put_self get_put_of_ne get_delete_self get_delete_of_ne mem_scan
  pairwise_scan)

attribute [simp] get_empty get_put_self get_delete_self

section Laws

variable {σ τ α ν μ : Type*} [LinearOrder α]

theorem get_put [Store σ α ν] [LawfulStore σ] (s : σ) (k k' : List α) (v : ν) :
    get (put s k v) k' = if k' = k then some v else get s k' := by
  split
  · rename_i heq
    rw [heq, get_put_self]
  · rename_i hne
    exact get_put_of_ne s v hne

theorem get_delete [Store σ α ν] [LawfulStore σ] (s : σ) (k k' : List α) :
    get (delete s k) k' = if k' = k then none else get s k' := by
  split
  · rename_i heq
    rw [heq, get_delete_self]
  · rename_i hne
    exact get_delete_of_ne s hne

/-- Lists in the order of distinct keys with the same members are equal. -/
theorem eq_of_mem_iff {κ : Type*} [LinearOrder κ] {l l' : List (κ × ν)}
    (h : l.Pairwise fun x y => x.1 < y.1) (h' : l'.Pairwise fun x y => x.1 < y.1)
    (hmem : ∀ x, x ∈ l ↔ x ∈ l') : l = l' := by
  have hnodup : ∀ {m : List (κ × ν)}, (m.Pairwise fun x y => x.1 < y.1) → m.Nodup := by
    intro m hm
    exact hm.imp fun hlt => ne_of_apply_ne Prod.fst hlt.ne
  refine List.Perm.eq_of_pairwise ?_ h h'
    ((List.perm_ext_iff_of_nodup (hnodup h) (hnodup h')).mpr hmem)
  intro x y _ _ hxy hyx
  exact absurd hyx (lt_asymm hxy)

theorem mem_scan_map [Store σ α ν] [LawfulStore σ] (s : σ) (f : ν → μ) (p k : List α) (y : μ) :
    (k, y) ∈ (scan s p).map (fun x => (x.1, f x.2)) ↔ p <+: k ∧ (get s k).map f = some y := by
  simp only [List.mem_map, Prod.mk.injEq, Prod.exists, Option.map_eq_some_iff]
  constructor
  · rintro ⟨k', v, hkv, rfl, hv⟩
    obtain ⟨hp, hget⟩ := (mem_scan s p k' v).mp hkv
    exact ⟨hp, v, hget, hv⟩
  · rintro ⟨hp, v, hget, hv⟩
    exact ⟨k, v, (mem_scan s p k v).mpr ⟨hp, hget⟩, rfl, hv⟩

/-- What two scans show of the values is the same when the stores agree in it below `p`. -/
theorem scan_map_congr [Store σ α ν] [LawfulStore σ] [Store τ α ν] [LawfulStore τ] {s : σ} {t : τ}
    {f : ν → μ} {p : List α} (h : ∀ k, p <+: k → (get s k).map f = (get t k).map f) :
    (scan s p).map (fun x => (x.1, f x.2)) = (scan t p).map fun x => (x.1, f x.2) := by
  refine eq_of_mem_iff ?_ ?_ ?_
  · exact List.pairwise_map.mpr (pairwise_scan s p)
  · exact List.pairwise_map.mpr (pairwise_scan t p)
  · rintro ⟨k, y⟩
    rw [mem_scan_map, mem_scan_map]
    exact and_congr_right fun hp => by rw [h k hp]

/-- The same for the pairs whose keys have a property. -/
theorem scan_filter_map_congr [Store σ α ν] [LawfulStore σ] [Store τ α ν] [LawfulStore τ] {s : σ}
    {t : τ} {f : ν → μ} {p : List α} (h : ∀ k, p <+: k → (get s k).map f = (get t k).map f)
    (P : List α → Bool) :
    ((scan s p).filter fun x => P x.1).map (fun x => f x.2) =
      ((scan t p).filter fun x => P x.1).map fun x => f x.2 := by
  have hscan := congrArg (fun l => (l.filter fun x => P x.1).map (·.2)) (scan_map_congr h)
  simpa only [List.filter_map, List.map_map, Function.comp_def] using hscan

/-- Of infinitely many keys, one is not in the store. -/
theorem exists_get_eq_none [Store σ α ν] [LawfulStore σ] {ι : Type*} [Infinite ι] {f : ι → List α}
    (hf : Function.Injective f) (s : σ) : ∃ i, get s (f i) = none := by
  obtain ⟨i, hi⟩ := Infinite.exists_notMem_finset
    (((scan s []).map Prod.fst).toFinset.preimage f hf.injOn)
  refine ⟨i, ?_⟩
  by_contra hne
  obtain ⟨v, hv⟩ := Option.ne_none_iff_exists'.mp hne
  refine hi (Finset.mem_preimage.mpr (List.mem_toFinset.mpr ?_))
  exact List.mem_map_of_mem ((mem_scan s [] (f i) v).mpr ⟨List.nil_prefix, hv⟩)

end Laws

/-- Pairs in the order of their keys. -/
structure SortedList (α ν : Type*) [LinearOrder α] where
  pairs : List (List α × ν)
  sorted : pairs.Pairwise fun x y => x.1 < y.1

namespace SortedList

variable {α ν : Type*} [LinearOrder α]

/-- Insert a pair in its place, over any pair with the same key. -/
def insert (k : List α) (v : ν) : List (List α × ν) → List (List α × ν)
  | [] => [(k, v)]
  | x :: l => if k < x.1 then (k, v) :: x :: l
      else if k = x.1 then (k, v) :: l
      else x :: insert k v l

def lookup (k : List α) (l : List (List α × ν)) : Option ν := (l.find? fun x => x.1 = k).map (·.2)

theorem mem_insert {k : List α} {v : ν} {x : List α × ν} {l : List (List α × ν)}
    (h : x ∈ insert k v l) : x = (k, v) ∨ x ∈ l := by
  induction l with
  | nil => simpa [insert] using h
  | cons y l ih =>
      unfold insert at h
      split at h
      · simpa using h
      · split at h
        · rcases List.mem_cons.mp h with rfl | hmem
          · exact Or.inl rfl
          · exact Or.inr (List.mem_cons_of_mem y hmem)
        · rcases List.mem_cons.mp h with rfl | hmem
          · exact Or.inr List.mem_cons_self
          · exact (ih hmem).imp_right (List.mem_cons_of_mem y)

theorem pairwise_insert {l : List (List α × ν)} (h : l.Pairwise fun x y => x.1 < y.1)
    (k : List α) (v : ν) : (insert k v l).Pairwise fun x y => x.1 < y.1 := by
  induction l with
  | nil => exact List.pairwise_singleton _ _
  | cons x l ih =>
      obtain ⟨hx, hl⟩ := List.pairwise_cons.mp h
      unfold insert
      split
      · rename_i hlt
        refine List.pairwise_cons.mpr ⟨?_, h⟩
        intro y hy
        rcases List.mem_cons.mp hy with rfl | hmem
        · exact hlt
        · exact hlt.trans (hx y hmem)
      · rename_i hle
        split
        · rename_i heq
          exact List.pairwise_cons.mpr ⟨fun y hy => heq ▸ hx y hy, hl⟩
        · rename_i hne
          refine List.pairwise_cons.mpr ⟨?_, ih hl⟩
          intro y hy
          rcases mem_insert hy with rfl | hmem
          · exact lt_of_le_of_ne (not_lt.mp hle) (Ne.symm hne)
          · exact hx y hmem

theorem lookup_cons (k : List α) (x : List α × ν) (l : List (List α × ν)) :
    lookup k (x :: l) = if x.1 = k then some x.2 else lookup k l := by
  by_cases h : x.1 = k
  · simp [lookup, h]
  · simp [lookup, h]

theorem lookup_insert (k k' : List α) (v : ν) (l : List (List α × ν)) :
    lookup k' (insert k v l) = if k' = k then some v else lookup k' l := by
  induction l with
  | nil =>
      rw [insert, lookup_cons]
      simp only [eq_comm]
  | cons x l ih =>
      unfold insert
      split
      · rw [lookup_cons]
        simp only [eq_comm]
      · split
        · rename_i heq
          rw [lookup_cons, lookup_cons, ← heq]
          by_cases hk : k = k'
          · simp [hk]
          · simp [hk, Ne.symm hk]
        · rename_i hne
          rw [lookup_cons, lookup_cons, ih]
          by_cases hx : x.1 = k'
          · have : k' ≠ k := fun h => hne (h.symm.trans hx.symm)
            simp [hx, this]
          · simp [hx]

theorem lookup_filter_ne (k k' : List α) (l : List (List α × ν)) :
    lookup k' (l.filter fun x => x.1 ≠ k) = if k' = k then none else lookup k' l := by
  induction l with
  | nil => simp [lookup]
  | cons x l ih =>
      by_cases hx : x.1 = k
      · rw [List.filter_cons_of_neg (by simp [hx]), ih, lookup_cons]
        by_cases hk : k' = k
        · simp [hk]
        · simp [hk, hx, Ne.symm hk]
      · rw [List.filter_cons_of_pos (by simp [hx]), lookup_cons, lookup_cons, ih]
        by_cases hk : x.1 = k'
        · have : k' ≠ k := fun h => hx (hk.trans h)
          simp [hk, this]
        · simp [hk]

/-- Looking a key up finds its pair. -/
theorem lookup_eq_some_iff {l : List (List α × ν)} (h : l.Pairwise fun x y => x.1 < y.1)
    {k : List α} {v : ν} : lookup k l = some v ↔ (k, v) ∈ l := by
  induction l with
  | nil => simp [lookup]
  | cons x l ih =>
      obtain ⟨hx, hl⟩ := List.pairwise_cons.mp h
      rw [lookup_cons, List.mem_cons]
      split
      · rename_i heq
        constructor
        · intro hv
          exact Or.inl (Prod.ext heq.symm (Option.some.inj hv).symm)
        · rintro (rfl | hmem)
          · rfl
          · exact absurd (hx _ hmem) (by simp [heq])
      · rename_i hne
        rw [ih hl]
        constructor
        · exact Or.inr
        · rintro (rfl | hmem)
          · exact absurd rfl hne
          · exact hmem

instance : Store (SortedList α ν) α ν where
  empty := ⟨[], .nil⟩
  get s k := lookup k s.pairs
  put s k v := ⟨insert k v s.pairs, pairwise_insert s.sorted k v⟩
  delete s k := ⟨s.pairs.filter fun x => x.1 ≠ k, s.sorted.filter _⟩
  scan s p := s.pairs.filter fun x => p.isPrefixOf x.1

instance : LawfulStore (SortedList α ν) where
  get_empty _ := rfl
  get_put_self s k v := by
    rw [show get (put s k v) k = _ from lookup_insert k k v s.pairs, if_pos rfl]
  get_put_of_ne s k k' v h := by
    rw [show get (put s k v) k' = _ from lookup_insert k k' v s.pairs, if_neg h]
    rfl
  get_delete_self s k := by
    rw [show get (delete s k) k = _ from lookup_filter_ne k k s.pairs, if_pos rfl]
  get_delete_of_ne s k k' h := by
    rw [show get (delete s k) k' = _ from lookup_filter_ne k k' s.pairs, if_neg h]
    rfl
  mem_scan s p k v := by
    change (k, v) ∈ s.pairs.filter _ ↔ p <+: k ∧ lookup k s.pairs = some v
    rw [lookup_eq_some_iff s.sorted, List.mem_filter, and_comm, List.isPrefixOf_iff_prefix]
  pairwise_scan s p := s.sorted.filter _

theorem get_of_mem_pairs {s : SortedList α ν} {k : List α} {v : ν} (h : (k, v) ∈ s.pairs) :
    get s k = some v :=
  (lookup_eq_some_iff s.sorted).mpr h

@[simp] theorem scan_nil (s : SortedList α ν) : scan s [] = s.pairs :=
  List.filter_eq_self.mpr fun _ _ => rfl

/-- A new value for a key that is there takes the place of the old one. -/
theorem pairs_put_of_eq {s : SortedList α ν} {l l' : List (List α × ν)} {k : List α} {v' : ν}
    (h : s.pairs = l ++ (k, v') :: l') (v : ν) : (put s k v).pairs = l ++ (k, v) :: l' := by
  have hsorted := s.sorted
  change insert k v s.pairs = _
  rw [h] at hsorted ⊢
  clear h
  induction l with
  | nil => simp [insert]
  | cons x l ih =>
      obtain ⟨hx, hl⟩ := List.pairwise_cons.mp hsorted
      have hlt : x.1 < k := hx (k, v') (by simp)
      rw [List.cons_append, insert, if_neg hlt.asymm, if_neg hlt.ne', ih hl, List.cons_append]

theorem put_of_get {s : SortedList α ν} {k : List α} {v : ν} (h : get s k = some v) :
    put s k v = s := by
  have hmem : (k, v) ∈ s.pairs := (lookup_eq_some_iff s.sorted).mp h
  obtain ⟨l, l', hpairs⟩ := List.append_of_mem hmem
  have hsame : (put s k v).pairs = s.pairs := (pairs_put_of_eq hpairs v).trans hpairs.symm
  rcases hput : put s k v with ⟨pairs, hsorted⟩
  rw [hput] at hsame
  obtain rfl : pairs = s.pairs := hsame
  rfl

/-- A key above all others goes to the end. -/
theorem pairs_put_of_forall_lt {s : SortedList α ν} {k : List α} (h : ∀ x ∈ s.pairs, x.1 < k)
    (v : ν) : (put s k v).pairs = s.pairs ++ [(k, v)] := by
  change insert k v s.pairs = _
  generalize s.pairs = l at h
  induction l with
  | nil => rfl
  | cons x l ih =>
      have hlt : x.1 < k := h x List.mem_cons_self
      rw [insert, if_neg hlt.asymm, if_neg hlt.ne', ih fun y hy => h y (List.mem_cons_of_mem x hy),
        List.cons_append]

/-- A new key goes to one place between the others. -/
theorem exists_pairs_put {s : SortedList α ν} {k : List α} (h : get s k = none) :
    ∃ l l', s.pairs = l ++ l' ∧ ∀ v, (put s k v).pairs = l ++ (k, v) :: l' := by
  have hnew : lookup k s.pairs = none := h
  change ∃ l l', s.pairs = l ++ l' ∧ ∀ v, insert k v s.pairs = l ++ (k, v) :: l'
  clear h
  generalize s.pairs = pairs at hnew
  induction pairs with
  | nil => exact ⟨[], [], rfl, fun _ => rfl⟩
  | cons x pairs ih =>
      rw [lookup_cons] at hnew
      split at hnew
      · cases hnew
      · rename_i hne
        by_cases hlt : k < x.1
        · exact ⟨[], x :: pairs, rfl, fun v => by rw [insert, if_pos hlt, List.nil_append]⟩
        · obtain ⟨l, l', rfl, hinsert⟩ := ih hnew
          refine ⟨x :: l, l', rfl, fun v => ?_⟩
          rw [insert, if_neg hlt, if_neg (Ne.symm hne), hinsert, List.cons_append]

end SortedList

end KeyValue

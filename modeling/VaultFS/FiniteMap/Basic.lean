import Mathlib.Data.Finmap
import Mathlib.Data.Finset.Sort

/-!
# Loops over finite maps

A loop over the entries of a map meets them in no particular order. `filterMap f` is the loop whose
turn for an entry stores a new value under its key or deletes it. Where the order can be seen, it is
an `Iteration`.
-/

namespace FiniteMap

variable {κ ν μ : Type*}

/-- The entry with the value `f` gives it, if any. -/
def entry (f : κ → ν → Option μ) (e : Sigma fun _ : κ => ν) : Option (Sigma fun _ : κ => μ) :=
  (f e.1 e.2).map fun v => ⟨e.1, v⟩

theorem entry_eq_some_iff {f : κ → ν → Option μ} {e : Sigma fun _ : κ => ν} {k : κ} {v : μ} :
    entry f e = some ⟨k, v⟩ ↔ e.1 = k ∧ f e.1 e.2 = some v := by
  simp only [entry, Option.map_eq_some_iff, Sigma.mk.injEq, heq_eq_eq]
  constructor
  · rintro ⟨v', hv', hk, rfl⟩
    exact ⟨hk, hv'⟩
  · rintro ⟨hk, hv⟩
    exact ⟨v, hv, hk, rfl⟩

theorem nodupKeys_filterMap (f : κ → ν → Option μ) {l : List (Sigma fun _ : κ => ν)}
    (h : l.NodupKeys) : (l.filterMap (entry f)).NodupKeys := by
  rw [List.nodupKeys_iff_pairwise] at h ⊢
  refine List.Pairwise.filterMap _ ?_ h
  rintro e e' hne ⟨k, v⟩ he ⟨k', v'⟩ he'
  rw [← (entry_eq_some_iff.mp he).1, ← (entry_eq_some_iff.mp he').1]
  exact hne

def filterMap (f : κ → ν → Option μ) (m : Finmap fun _ : κ => ν) : Finmap fun _ : κ => μ where
  entries := m.entries.filterMap (entry f)
  nodupKeys := by
    obtain ⟨entries, hentries⟩ := m
    induction entries using Quotient.inductionOn with
    | h l => exact nodupKeys_filterMap f hentries

theorem lookup_filterMap [DecidableEq κ] (f : κ → ν → Option μ) (m : Finmap fun _ : κ => ν)
    (k : κ) :
    (filterMap f m).lookup k = (m.lookup k).bind (f k) := by
  ext v
  rw [Finmap.lookup_eq_some_iff, filterMap, Multiset.mem_filterMap, Option.bind_eq_some_iff]
  constructor
  · rintro ⟨e, he, hentry⟩
    obtain ⟨rfl, hv⟩ := entry_eq_some_iff.mp hentry
    exact ⟨e.2, Finmap.lookup_eq_some_iff.mpr he, hv⟩
  · rintro ⟨v', hv', hv⟩
    exact ⟨⟨k, v'⟩, Finmap.lookup_eq_some_iff.mp hv', entry_eq_some_iff.mpr ⟨rfl, hv⟩⟩

/-- The order in which a loop over a map meets the keys. -/
structure Iteration (κ : Type*) where
  order : Finset κ → List κ
  nodup : ∀ keys, (order keys).Nodup
  mem_order : ∀ {keys k}, k ∈ order keys ↔ k ∈ keys

end FiniteMap

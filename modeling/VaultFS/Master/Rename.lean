import Mathlib.Data.Finset.Order
import VaultFS.Master.Tree

/-!
# Renaming a directory

A directory is renamed for the sake of what it holds: every path below it should move along.
`Rename` writes the inode of the new path and deletes that of the old one; the inodes below the
old path are stored under keys of their own, and it leaves them where they are. So a rename moves
a subtree exactly when there is nothing in it but its root.
-/

namespace VaultFS.Master

open KeyValue SlashPath Metadata

/-- The path itself or a path below it. -/
def InSubtree (src q : List Char) : Prop := q = src ∨ src ++ ['/'] <+: q

instance (src q : List Char) : Decidable (InSubtree src q) := inferInstanceAs (Decidable (_ ∨ _))

/-- Where a path is after its subtree has moved. -/
def moved (src dst q : List Char) : List Char :=
  if InSubtree src q then dst ++ q.drop src.length else q

variable {σ : Type*} [Store σ Char FileInfo]

/-- The subtree has moved as a whole and everything else is as it was. -/
structure SubtreeMoved (ns ns' : Namespace σ) (src dst : List Char) : Prop where
  stored : ∀ q', (ns'.find q').isSome ↔ ∃ q, (ns.find q).isSome ∧ moved src dst q = q'
  kept : ∀ q fi, InSubtree src q → ns.find q = some fi →
    ∃ fi', ns'.find (moved src dst q) = some fi' ∧ fi'.isDir = fi.isDir ∧ fi'.size = fi.size ∧
      fi'.chunkIDs = fi.chunkIDs ∧ fi'.mode = fi.mode
  others : ∀ q fi, ¬InSubtree src q → ns.find q = some fi → ns'.find q = some fi

section Moved

variable {src dst q r : List Char}

theorem moved_self (src dst : List Char) : moved src dst src = dst := by
  have hsub : InSubtree src src := Or.inl rfl
  rw [moved, if_pos hsub, List.drop_length, List.append_nil]

theorem moved_below (src dst r : List Char) :
    moved src dst (src ++ '/' :: r) = dst ++ '/' :: r := by
  have hsub : InSubtree src (src ++ '/' :: r) := Or.inr ⟨r, by simp⟩
  rw [moved, if_pos hsub, List.drop_left]

theorem moved_of_not (h : ¬InSubtree src q) : moved src dst q = q := if_neg h

/-- What moves to a place below the old path comes from further below it, unless the new path is
there too. -/
theorem lt_of_moved (hne : dst ≠ src) (hdst : ¬src ++ ['/'] <+: dst)
    (h : moved src dst q = src ++ '/' :: r) :
    src ++ ['/'] <+: q ∧ (src ++ '/' :: r).length < q.length := by
  by_cases hq : InSubtree src q
  · rcases hq with rfl | ⟨r', rfl⟩
    · rw [moved_self] at h
      exact absurd ⟨r, by simp [h]⟩ hdst
    · rw [List.append_assoc, List.singleton_append, moved_below] at h
      refine ⟨⟨r', rfl⟩, ?_⟩
      rcases List.append_eq_append_iff.mp h with ⟨u, hu, -⟩ | ⟨u, hu, hr⟩
      · have hpos : 0 < u.length := by
          refine List.length_pos_iff.mpr ?_
          rintro rfl
          exact hne (by simpa using hu.symm)
        have hlen := congrArg List.length h
        rw [hu] at hlen ⊢
        simp only [List.length_append, List.length_cons, List.length_nil] at hlen ⊢
        omega
      · cases u with
        | nil => exact absurd (by simpa using hu) hne
        | cons x u =>
            rw [List.cons_append, List.cons.injEq] at hr
            exact absurd ⟨u, by simp [hu, ← hr.1]⟩ hdst
  · rw [moved_of_not hq] at h
    exact absurd (Or.inr ⟨r, by simp [h]⟩) hq

end Moved

variable [LawfulStore σ]

/-- Finitely many paths are stored. -/
theorem exists_length_le (ns : Namespace σ) :
    ∃ n, ∀ q, (ns.find q).isSome → q.length ≤ n := by
  obtain ⟨n, hn⟩ := ((scan ns.store []).map fun x => x.1.length).toFinset.exists_le
  refine ⟨n, fun q hq => ?_⟩
  obtain ⟨fi, hfi⟩ := Option.isSome_iff_exists.mp hq
  have hmem : (nsKey q, fi) ∈ scan ns.store [] := (mem_scan ..).mpr ⟨List.nil_prefix, hfi⟩
  have hle : (nsKey q).length ≤ n :=
    hn _ (List.mem_toFinset.mpr (List.mem_map.mpr ⟨_, hmem, rfl⟩))
  rw [nsKey, List.length_append] at hle
  omega

variable {ns : Namespace σ} {src dst : List Char} {clock : ℕ → Time}

/-- A subtree of one path has moved. -/
theorem subtreeMoved_of_nothing_below (hok : (ns.rename clock src dst).2 = .ok ())
    (hbelow : ∀ q, src ++ ['/'] <+: q → ns.find q = none) :
    SubtreeMoved ns (ns.rename clock src dst).1 src dst := by
  obtain ⟨fi, hsrc, hdst, hne, hfind⟩ := Namespace.find_rename hok
  have honly : ∀ q, (ns.find q).isSome → InSubtree src q → q = src := by
    rintro q hq (rfl | hpre)
    · rfl
    · rw [hbelow q hpre] at hq
      cases hq
  have hother : ∀ q, (ns.find q).isSome → ¬InSubtree src q →
      (ns.rename clock src dst).1.find q = ns.find q := by
    intro q hq hnot
    rw [hfind, if_neg fun heq => hnot (Or.inl heq), if_neg]
    rintro rfl
    rw [hdst] at hq
    cases hq
  have hnew : (ns.rename clock src dst).1.find dst =
      some { fi with path := dst, updatedAt := clock ns.reads } := by
    rw [hfind, if_neg hne, if_pos rfl]
  refine ⟨fun q' => ⟨?_, ?_⟩, ?_, ?_⟩
  · intro hq'
    rw [hfind] at hq'
    split_ifs at hq' with hsrc' hdst'
    · cases hq'
    · exact ⟨src, by rw [hsrc]; rfl, by rw [moved_self, hdst']⟩
    · refine ⟨q', hq', moved_of_not fun hsub => hsrc' (honly q' hq' hsub)⟩
  · rintro ⟨q, hq, rfl⟩
    by_cases hsub : InSubtree src q
    · rw [honly q hq hsub, moved_self, hnew]
      rfl
    · rw [moved_of_not hsub, hother q hq hsub]
      exact hq
  · intro q fi' hsub hq
    obtain rfl := honly q (by rw [hq]; rfl) hsub
    rw [hsrc, Option.some.injEq] at hq
    subst hq
    rw [moved_self, hnew]
    exact ⟨_, rfl, rfl, rfl, rfl, rfl⟩
  · intro q fi' hsub hq
    rw [hother q (by rw [hq]; rfl) hsub, hq]

/-- What was stored below the old path is still there, so it must have come from further below, and
that from still further. -/
theorem nothing_below_of_subtreeMoved (hok : (ns.rename clock src dst).2 = .ok ())
    (hdst : ¬src ++ ['/'] <+: dst) (h : SubtreeMoved ns (ns.rename clock src dst).1 src dst)
    (q : List Char) (hq : src ++ ['/'] <+: q) : ns.find q = none := by
  obtain ⟨fi, -, hnone, hne, hfind⟩ := Namespace.find_rename hok
  have hfurther : ∀ q, src ++ ['/'] <+: q → (ns.find q).isSome →
      ∃ q', src ++ ['/'] <+: q' ∧ (ns.find q').isSome ∧ q.length < q'.length := by
    rintro q ⟨r, rfl⟩ hstored
    rw [List.append_assoc, List.singleton_append] at hstored ⊢
    have hstays : ((ns.rename clock src dst).1.find (src ++ '/' :: r)).isSome := by
      rw [hfind, if_neg (by simp), if_neg]
      · exact hstored
      · intro heq
        rw [heq, hnone] at hstored
        cases hstored
    obtain ⟨q', hq', hmoved⟩ := (h.stored _).mp hstays
    obtain ⟨hbelow, hlt⟩ := lt_of_moved hne hdst hmoved
    exact ⟨q', hbelow, hq', hlt⟩
  by_contra hstored
  have hlong : ∀ k, ∃ q', src ++ ['/'] <+: q' ∧ (ns.find q').isSome ∧ k ≤ q'.length := by
    intro k
    induction k with
    | zero => exact ⟨q, hq, Option.isSome_iff_ne_none.mpr hstored, Nat.zero_le _⟩
    | succ k ih =>
        obtain ⟨q₁, hbelow₁, hstored₁, hlen₁⟩ := ih
        obtain ⟨q₂, hbelow₂, hstored₂, hlen₂⟩ := hfurther q₁ hbelow₁ hstored₁
        exact ⟨q₂, hbelow₂, hstored₂, by omega⟩
  obtain ⟨n, hn⟩ := exists_length_le ns
  obtain ⟨q', -, hq', hlen⟩ := hlong (n + 1)
  have := hn q' hq'
  omega

/-- **Moving a subtree.** A rename that succeeds, to a path that is not below the old one, moves
the subtree of the old path exactly when nothing is stored below that path. -/
theorem subtreeMoved_iff (ns : Namespace σ) (clock : ℕ → Time) (src dst : List Char)
    (hok : (ns.rename clock src dst).2 = .ok ()) (hdst : ¬src ++ ['/'] <+: dst) :
    SubtreeMoved ns (ns.rename clock src dst).1 src dst ↔
      ∀ q, src ++ ['/'] <+: q → ns.find q = none :=
  ⟨nothing_below_of_subtreeMoved hok hdst, subtreeMoved_of_nothing_below hok⟩

/-- A file with another one whose path begins with the same characters. -/
theorem subtreeMoved_iff_lone :
    let clock : ℕ → Time := fun n => n
    let ns := (Server.lone.applyAll clock [{ kind := .create, path := ['/', 'a'] },
      { kind := .create, path := ['/', 'a', 'b'] }]).1.ns
    (ns.rename clock ['/', 'a'] ['/', 'c']).2 = .ok () ∧ ¬['/', 'a'] ++ ['/'] <+: ['/', 'c'] ∧
      (SubtreeMoved ns (ns.rename clock ['/', 'a'] ['/', 'c']).1 ['/', 'a'] ['/', 'c'] ↔
        ∀ q, ['/', 'a'] ++ ['/'] <+: q → ns.find q = none) := by
  intro clock ns
  have hok : (ns.rename clock ['/', 'a'] ['/', 'c']).2 = .ok () := by decide +kernel
  have hdst : ¬['/', 'a'] ++ ['/'] <+: ['/', 'c'] := by decide
  exact ⟨hok, hdst, subtreeMoved_iff ns clock _ _ hok hdst⟩

/-- A directory with a file in it: the file stays behind, in a directory that is gone. -/
theorem not_subtreeMoved :
    let clock : ℕ → Time := fun n => n
    let ns := (Server.lone.apply clock { kind := .create, path := ['/', 'a', '/', 'b'] }).1.ns
    let ns' := (ns.rename clock ['/', 'a'] ['/', 'c']).1
    Tree.IsTree (Server.view ns) ∧ ns.find ['/', 'c'] = none ∧
      ¬['/', 'a'] ++ ['/'] <+: ['/', 'c'] ∧
      (ns.rename clock ['/', 'a'] ['/', 'c']).2 = .ok () ∧
      (ns'.find ['/', 'a', '/', 'b']).isSome ∧ ns'.find ['/', 'a'] = none ∧
      ns'.find ['/', 'c', '/', 'b'] = none ∧
      ¬SubtreeMoved ns ns' ['/', 'a'] ['/', 'c'] := by
  intro clock ns ns'
  have hview : Server.view ns =
      Tree.apply (fun _ => none) { kind := .create, path := ['/', 'a', '/', 'b'] } := by
    rw [(Server.view_apply ..).1]
    exact congrArg (Tree.apply · _) Server.view_empty
  have hnormal : Normal '/' ['/', 'a', '/', 'b'] :=
    Or.inr ⟨[['a'], ['b']], by decide, by decide, rfl⟩
  have htree : Tree.IsTree (Server.view ns) := by
    rw [hview, Tree.isTree_apply_iff (fun p hp => by cases hp) _ hnormal]
    exact Or.inr fun q e _ he => by cases he
  have hmissing : ns'.find ['/', 'c', '/', 'b'] = none := by decide +kernel
  refine ⟨htree, by decide +kernel, by decide, by decide +kernel, by decide +kernel,
    by decide +kernel, hmissing, ?_⟩
  intro hmoved
  have hstored : (ns'.find ['/', 'c', '/', 'b']).isSome :=
    (hmoved.stored _).mpr ⟨['/', 'a', '/', 'b'], by decide +kernel, by decide⟩
  rw [hmissing] at hstored
  cases hstored

end VaultFS.Master

import VaultFS.Master.View

/-!
# The namespace as a tree

The entries form a tree when every directory above a stored path is stored, as a directory.
Commands do not always keep that: a directory can be deleted with entries below it, a finalized
file can take the place of a directory, and a file can be created below a file. For each command
there is a condition on the tree before it that says exactly when the tree stays one
(`Tree.isTree_apply_iff`), and a run builds a tree all along exactly when all of its commands
meet it (`isTree_applyAll_iff`).
-/

namespace VaultFS.Master

open KeyValue SlashPath Metadata

namespace Tree

def IsTree (t : Tree) : Prop :=
  ∀ p, (t p).isSome → ∀ q, Ancestor '/' q p → ∃ e, t q = some e ∧ e.isDir

def NoFileAbove (t : Tree) (p : List Char) : Prop :=
  ∀ q e, Ancestor '/' q p → t q = some e → e.isDir

def NothingBelow (t : Tree) (p : List Char) : Prop := ∀ q, Ancestor '/' p q → t q = none

/-- When a command leaves a tree a tree. -/
def KeepsTree (t : Tree) (cmd : Command) : Prop :=
  match cmd.kind with
  | .create => (t cmd.path).isSome ∨ t.NoFileAbove cmd.path
  | .finalize => if (t cmd.path).isSome then t.NothingBelow cmd.path else t.NoFileAbove cmd.path
  | .delete => t.NothingBelow cmd.path

/-- Above the new file there are directories exactly when there was no file above it. -/
theorem isTree_create_iff {t : Tree} (ht : t.IsTree) {p : List Char} (hp : t p = none)
    (hnormal : Normal '/' p) (e : Entry) : (t.create p e).IsTree ↔ t.NoFileAbove p := by
  constructor
  · intro hnew q f hq hf
    obtain ⟨f', hf', hdir⟩ := hnew p (by simp [create]) q hq
    rw [create_of_ne hq.ne, fillDirs_of_isSome (by simp [hf]), hf] at hf'
    cases hf'
    exact hdir
  · intro hfile
    -- what lies above the new file is a directory: an old one or one made for it
    have habove : ∀ q, Ancestor '/' q p → ∃ f, t.create p e q = some f ∧ f.isDir := by
      intro q hq
      rw [create_of_ne hq.ne]
      cases hold : t q with
      | none => exact ⟨.dir, if_pos ⟨(mem_parents hnormal q).mpr hq, hold⟩, rfl⟩
      | some f => exact ⟨f, by rw [fillDirs_of_isSome (by simp [hold]), hold], hfile q f hq hold⟩
    intro x hx q hq
    by_cases hxp : x = p
    · exact habove q (hxp ▸ hq)
    · rw [create_of_ne hxp] at hx
      by_cases hmade : Ancestor '/' x p
      · exact habove q (hq.trans hmade)
      · have hold : (t x).isSome := by
          rwa [fillDirs, if_neg fun h => hmade ((mem_parents hnormal x).mp h.1)] at hx
        obtain ⟨f, hf, hdir⟩ := ht x hold q hq
        have hqp : q ≠ p := by
          rintro rfl
          exact absurd hf (by simp [hp])
        exact ⟨f, by rw [create_of_ne hqp, fillDirs_of_isSome (by simp [hf]), hf], hdir⟩

/-- A stored path can be emptied or made a file exactly when nothing lies below it. -/
theorem isTree_update_iff {t : Tree} (ht : t.IsTree) {p : List Char} {c : Option Entry}
    (hc : ∀ e, c = some e → e.isDir = false) (hp : c.isSome → (t p).isSome) :
    IsTree (Function.update t p c) ↔ t.NothingBelow p := by
  constructor
  · intro hnew q hq
    by_contra hstored
    have hsome : (Function.update t p c q).isSome := by
      rw [Function.update_of_ne hq.ne.symm]
      exact Option.isSome_iff_ne_none.mpr hstored
    obtain ⟨e, he, hdir⟩ := hnew q hsome p hq
    rw [Function.update_self] at he
    rw [hc e he] at hdir
    exact Bool.false_ne_true hdir
  · intro hbelow x hx q hq
    have hold : (t x).isSome := by
      by_cases hxp : x = p
      · subst hxp
        rw [Function.update_self] at hx
        exact hp hx
      · rwa [Function.update_of_ne hxp] at hx
    obtain ⟨e, he, hdir⟩ := ht x hold q hq
    have hqp : q ≠ p := by
      rintro rfl
      exact Option.isSome_iff_ne_none.mp hold (hbelow x hq)
    exact ⟨e, by rw [Function.update_of_ne hqp, he], hdir⟩

theorem isTree_apply_iff {t : Tree} (ht : t.IsTree) (cmd : Command)
    (hnormal : Normal '/' cmd.path) : (t.apply cmd).IsTree ↔ t.KeepsTree cmd := by
  unfold apply KeepsTree
  cases cmd.kind with
  | create =>
      by_cases hstored : (t cmd.path).isSome
      · simp [hstored, ht]
      · simp only [hstored, Bool.false_eq_true, if_false, false_or]
        exact isTree_create_iff ht (by simpa using hstored) hnormal _
  | finalize =>
      by_cases hstored : (t cmd.path).isSome
      · simp only [hstored, if_true]
        refine isTree_update_iff ht ?_ fun _ => hstored
        intro e he
        cases he
        rfl
      · simp only [hstored, Bool.false_eq_true, if_false]
        exact isTree_create_iff ht (by simpa using hstored) hnormal _
  | delete => exact isTree_update_iff ht nofun nofun

theorem applyAll_append_singleton (t : Tree) (cmds : List Command) (cmd : Command) :
    t.applyAll (cmds ++ [cmd]) = (t.applyAll cmds).apply cmd := by
  simp [applyAll]

theorem isTree_run_iff {t : Tree} (ht : t.IsTree) {h : List Command}
    (hnormal : ∀ cmd ∈ h, Normal '/' cmd.path) :
    (∀ g, g <+: h → (t.applyAll g).IsTree) ↔
      ∀ g cmd, g ++ [cmd] <+: h → (t.applyAll g).KeepsTree cmd := by
  have hlast : ∀ {g cmd}, g ++ [cmd] <+: h → Normal '/' cmd.path := fun hg =>
    hnormal _ (hg.subset (by simp))
  constructor
  · intro htree g cmd hg
    have hbefore := htree g ((List.prefix_append g [cmd]).trans hg)
    rw [← isTree_apply_iff hbefore cmd (hlast hg), ← applyAll_append_singleton]
    exact htree _ hg
  · intro hkeeps g
    induction g using List.reverseRecOn with
    | nil => exact fun _ => ht
    | append_singleton g cmd ih =>
        intro hg
        have hbefore := ih ((List.prefix_append g [cmd]).trans hg)
        rw [applyAll_append_singleton, isTree_apply_iff hbefore cmd (hlast hg)]
        exact hkeeps g cmd hg

end Tree

open Master.Tree Server

/-- From the empty namespace the stored paths form a tree after every command exactly when no
command deletes, or overwrites with a file, a directory with entries below it, and none creates a
file below a file. -/
theorem isTree_applyAll_iff {σ : Type*} [Store σ Char FileInfo] [LawfulStore σ] (clock : ℕ → Time)
    (leases : LeaseManager) (chunkNodes : List NodeInfo) (rf : ℤ) (chunkMap : Option ChunkMap)
    (h : List Command) (hnormal : ∀ cmd ∈ h, Normal '/' cmd.path) :
    let s : Server σ := .new .empty leases chunkNodes rf chunkMap
    (∀ g, g <+: h → IsTree (view (s.applyAll clock g).1.ns)) ↔
      ∀ g cmd, g ++ [cmd] <+: h → KeepsTree (view (s.applyAll clock g).1.ns) cmd := by
  intro s
  have hview : ∀ g, view (s.applyAll clock g).1.ns = applyAll (fun _ => none) g :=
    view_applyAll_of_empty clock rfl
  have hempty : IsTree fun _ => none := fun p hp => by simp at hp
  simp only [hview]
  exact isTree_run_iff hempty hnormal

theorem isTree_applyAll_iff_lone :
    let h : List Command := [{ kind := .create, path := ['/', 'a', '/', 'b'] },
      { kind := .delete, path := ['/', 'a'] }]
    (∀ cmd ∈ h, Normal '/' cmd.path) ∧
      ((∀ g, g <+: h → IsTree (view (lone.applyAll (fun _ => 0) g).1.ns)) ↔
        ∀ g cmd, g ++ [cmd] <+: h → KeepsTree (view (lone.applyAll (fun _ => 0) g).1.ns) cmd) := by
  intro h
  have hnormal : ∀ cmd ∈ h, Normal '/' cmd.path := by
    intro cmd hcmd
    simp only [h, List.mem_cons, List.not_mem_nil, or_false] at hcmd
    rcases hcmd with rfl | rfl
    · exact Or.inr ⟨[['a'], ['b']], by decide, by decide, rfl⟩
    · exact Or.inr ⟨[['a']], by decide, by decide, rfl⟩
  exact ⟨hnormal, isTree_applyAll_iff (fun _ => 0) (.new 0) [] 0 none h hnormal⟩

/-- The three ways to break the tree: the directory of a file is deleted, a file is finalized
over it, and a file is created below a file. -/
theorem not_isTree_applyAll :
    let a := ['/', 'a']
    let ab := ['/', 'a', '/', 'b']
    ¬IsTree (view (lone.applyAll (fun _ => 0)
        [{ kind := .create, path := ab }, { kind := .delete, path := a }]).1.ns) ∧
      ¬IsTree (view (lone.applyAll (fun _ => 0)
        [{ kind := .create, path := ab }, { kind := .finalize, path := a }]).1.ns) ∧
      ¬IsTree (view (lone.applyAll (fun _ => 0)
        [{ kind := .create, path := a }, { kind := .create, path := ab }]).1.ns) := by
  -- in each run the file is stored and what is stored above it is no directory
  have hbroken : ∀ {t : Tree}, (t ['/', 'a', '/', 'b']).isSome →
      (t ['/', 'a']).map (·.isDir) ≠ some true → ¬t.IsTree := by
    intro t hfile hdir htree
    obtain ⟨e, he, hisDir⟩ := htree _ hfile ['/', 'a'] (by decide)
    exact hdir (by rw [he, Option.map_some, hisDir])
  intro a ab
  exact ⟨hbroken (by decide +kernel) (by decide +kernel),
    hbroken (by decide +kernel) (by decide +kernel),
    hbroken (by decide +kernel) (by decide +kernel)⟩

end VaultFS.Master

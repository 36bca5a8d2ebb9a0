import VaultFS.Master.View

/-!
# Applying commands again

A master that restarts has its namespace, but not how many commands made it, and applies the
committed commands from the first one again. As long as a file that is created or finalized while
it is stored has its directories above it stored too, each command is a write to every path that
depends on the command only (`Tree.apply_eq_write`), and running the writes again changes nothing.
-/

namespace VaultFS.Master

open KeyValue SlashPath Metadata

/-- What a command does to a path. -/
def Command.writeAt (cmd : Command) (q : List Char) : Cell.Write Entry :=
  if q = cmd.path then cmd.write
  else if cmd.kind ≠ .delete ∧ Ancestor '/' q cmd.path then .fill .dir
  else .keep

namespace Tree

/-- A file that is created or finalized over what is stored has all its directories. A master
does not look for them then. -/
def ParentsStored (t : Tree) (cmd : Command) : Prop :=
  cmd.kind ≠ .delete → (t cmd.path).isSome → ∀ q, Ancestor '/' q cmd.path → (t q).isSome

theorem apply_eq_write {t : Tree} {cmd : Command} (h : t.ParentsStored cmd)
    (hnormal : Normal '/' cmd.path) (q : List Char) :
    t.apply cmd q = (cmd.writeAt q).apply (t q) := by
  unfold Command.writeAt
  split
  · rename_i heq
    rw [heq, apply_self]
  · rename_i hne
    rw [apply_of_ne hne, fillDirs]
    simp only [mem_parents hnormal]
    by_cases habove : cmd.kind ≠ .delete ∧ Ancestor '/' q cmd.path
    · -- the command fills the directory, or it is there already
      rw [if_pos habove]
      cases hq : t q with
      | none =>
          have hnew : t cmd.path = none := by
            by_contra hstored
            have := h habove.1 (Option.isSome_iff_ne_none.mpr hstored) q habove.2
            simp [hq] at this
          simp [habove, hnew, Cell.Write.apply]
      | some e => simp [Cell.Write.apply]
    · rw [if_neg habove, Cell.Write.apply]
      split
      · rename_i hnew
        exact if_neg fun hq => habove ⟨hnew.1, hq.1⟩
      · rfl

theorem applyAll_eq_run {t : Tree} {cmds : List Command}
    (hnormal : ∀ cmd ∈ cmds, Normal '/' cmd.path)
    (h : ∀ g cmd, g ++ [cmd] <+: cmds → (t.applyAll g).ParentsStored cmd) (q : List Char) :
    t.applyAll cmds q = Cell.run (cmds.map (·.writeAt q)) (t q) := by
  induction cmds generalizing t with
  | nil => rfl
  | cons cmd cmds ih =>
      have hfirst : t.ParentsStored cmd := h [] cmd ⟨cmds, rfl⟩
      have happly := apply_eq_write hfirst (hnormal cmd List.mem_cons_self) q
      rw [List.map_cons, Cell.run_cons, ← happly]
      refine ih (fun c hc => hnormal c (List.mem_cons_of_mem cmd hc)) ?_
      intro g c hg
      exact h (cmd :: g) c ((List.prefix_cons_inj cmd).mpr hg)

/-- Commands that made a tree from nothing leave it as it is when they are applied again. -/
theorem applyAll_applyAll {cmds : List Command} (hnormal : ∀ cmd ∈ cmds, Normal '/' cmd.path)
    (hfirst : ∀ g cmd, g ++ [cmd] <+: cmds → ParentsStored (applyAll (fun _ => none) g) cmd)
    (hagain : ∀ g cmd, g ++ [cmd] <+: cmds →
      ParentsStored (applyAll (applyAll (fun _ => none) cmds) g) cmd) :
    applyAll (applyAll (fun _ => none) cmds) cmds = applyAll (fun _ => none) cmds := by
  funext q
  rw [applyAll_eq_run hnormal hagain, applyAll_eq_run hnormal hfirst, Cell.run_run_none]

end Tree

open Master.Tree Server

variable {σ : Type*} [Store σ Char FileInfo]

/-- Every command of a run meets `ParentsStored` when its turn comes. -/
def Server.RunsWithParents (s : Server σ) (clock : ℕ → Time) (cmds : List Command) : Prop :=
  ∀ g cmd, g ++ [cmd] <+: cmds → ParentsStored (view (s.applyAll clock g).1.ns) cmd

theorem runsWithParents_nil (s : Server σ) (clock : ℕ → Time) : s.RunsWithParents clock [] := by
  intro g cmd hg
  simp at hg

theorem runsWithParents_cons {s : Server σ} {clock : ℕ → Time} {cmd : Command}
    {cmds : List Command} (h : ParentsStored (view s.ns) cmd)
    (hs : (s.apply clock cmd).1.RunsWithParents clock cmds) :
    s.RunsWithParents clock (cmd :: cmds) := by
  intro g c hg
  cases g with
  | nil =>
      obtain ⟨rfl, -⟩ := List.cons_prefix_cons.mp hg
      exact h
  | cons d g =>
      obtain ⟨rfl, hrest⟩ := List.cons_prefix_cons.mp hg
      exact hs g c hrest

/-- A master applies `h'`, restarts with its namespace and applies `h` from the start. Its entries
are those of a master that applied `h` once, if both times no command of `h'` was for a stored
path with a directory missing above it. -/
theorem view_replay [LawfulStore σ] (clock clock' : ℕ → Time) (leases leases' : LeaseManager)
    (chunkNodes : List NodeInfo) (rf : ℤ) (chunkMap chunkMap' : Option ChunkMap)
    {h' h : List Command} (hpre : h' <+: h) (hnormal : ∀ cmd ∈ h, Normal '/' cmd.path) :
    let s : Server σ := .new .empty leases chunkNodes rf chunkMap
    let restarted : Server σ :=
      .new (s.applyAll clock h').1.ns leases' chunkNodes rf chunkMap'
    s.RunsWithParents clock h' → restarted.RunsWithParents clock' h' →
      view (restarted.applyAll clock' h).1.ns = view (s.applyAll clock h).1.ns := by
  intro s restarted hfirst hagain
  obtain ⟨rest, rfl⟩ := hpre
  have hnormal' : ∀ cmd ∈ h', Normal '/' cmd.path := fun cmd hcmd =>
    hnormal cmd (List.mem_append_left rest hcmd)
  have hview : ∀ g, view (s.applyAll clock g).1.ns = Tree.applyAll (fun _ => none) g :=
    view_applyAll_of_empty clock rfl
  have hview' : ∀ g,
      view (restarted.applyAll clock' g).1.ns =
        Tree.applyAll (Tree.applyAll (fun _ => none) h') g := by
    intro g
    rw [view_applyAll clock' restarted g]
    exact congrArg (Tree.applyAll · g) (hview h')
  have htwice := applyAll_applyAll hnormal' (fun g cmd hg => hview g ▸ hfirst g cmd hg)
    (fun g cmd hg => hview' g ▸ hagain g cmd hg)
  -- after the commands that are applied again both masters stand at the same entries
  rw [hview', hview, Tree.applyAll_append, htwice, Tree.applyAll_append]

theorem view_replay_lone :
    let ab := ['/', 'a', '/', 'b']
    let h : List Command := [{ kind := .create, path := ab },
      { kind := .finalize, path := ab, chunkIDs := ["x"], size := 1 },
      { kind := .delete, path := ab }]
    let h' : List Command := h.take 2
    let restarted : Server (SortedList Char FileInfo) :=
      .new (lone.applyAll (fun _ => 0) h').1.ns (.new 0) [] 0 none
    (lone.RunsWithParents (fun _ => 0) h' ∧ restarted.RunsWithParents (fun _ => 1) h') ∧
      view (restarted.applyAll (fun _ => 1) h).1.ns = view (lone.applyAll (fun _ => 0) h).1.ns := by
  intro ab h h' restarted
  have hab : Normal '/' ab := Or.inr ⟨[['a'], ['b']], by decide, by decide, rfl⟩
  have hnormal : ∀ cmd ∈ h, Normal '/' cmd.path := by
    intro cmd hcmd
    have hpath : ∀ cmd ∈ h, cmd.path = ab := by decide
    rwa [hpath cmd hcmd]
  -- the only directory above the file is `/a`
  have hstored : ∀ {t : Tree} {cmd : Command}, cmd.path = ab →
      ((t ab).isSome → (t ['/', 'a']).isSome) → t.ParentsStored cmd := by
    intro t cmd hpath hdir _ hfile q hq
    rw [hpath] at hfile hq
    have hmem := (mem_parents hab q).mpr hq
    rw [show parents '/' ab = [['/', 'a']] by decide, List.mem_singleton] at hmem
    exact hmem ▸ hdir hfile
  have hfirst : lone.RunsWithParents (fun _ => 0) h' :=
    runsWithParents_cons (hstored rfl (by decide +kernel))
      (runsWithParents_cons (hstored rfl (by decide +kernel)) (runsWithParents_nil _ _))
  have hagain : restarted.RunsWithParents (fun _ => 1) h' :=
    runsWithParents_cons (hstored rfl (by decide +kernel))
      (runsWithParents_cons (hstored rfl (by decide +kernel)) (runsWithParents_nil _ _))
  exact ⟨⟨hfirst, hagain⟩, view_replay (fun _ => 0) (fun _ => 1) (.new 0) (.new 0) [] 0 none none
    (List.take_prefix 2 h) hnormal hfirst hagain⟩

/-- Deleting a directory that is not there and then creating a file in it: the second time the
directory is there and goes, and the file, being there too, is not created again. -/
theorem view_replay_ne :
    let h : List Command := [{ kind := .delete, path := ['/', 'a'] },
      { kind := .create, path := ['/', 'a', '/', 'b'] }]
    let restarted : Server (SortedList Char FileInfo) :=
      .new (lone.applyAll (fun _ => 0) h).1.ns (.new 0) [] 0 none
    view (lone.applyAll (fun _ => 0) h).1.ns ['/', 'a'] = some .dir ∧
      view (restarted.applyAll (fun _ => 1) h).1.ns ['/', 'a'] = none := by
  decide +kernel

end VaultFS.Master

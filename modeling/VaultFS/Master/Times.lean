import VaultFS.Master.Inodes

/-!
# When an inode was created

An inode should carry the reading of the clock with which it was created until it is deleted. A
finalize of a path that is stored does not keep it: the inode is made anew from the command and
takes the place of the old one, whose creation time and mode are gone. This is the only way to
lose them, so that the times of a run are right all along exactly when it never finalizes a
stored path.
-/

namespace VaultFS.Master

open KeyValue SlashPath Metadata

namespace Server

variable {σ : Type*} [Store σ Char FileInfo]

theorem applyAll_concat (s : Server σ) (clock : ℕ → Time) (h : List Command) (cmd : Command) :
    (s.applyAll clock (h ++ [cmd])).1 = ((s.applyAll clock h).1.apply clock cmd).1 := by
  induction h generalizing s with
  | nil => rfl
  | cons c h ih => exact ih (s.apply clock c).1

/-- The inode at `q` is there since a command of the run created it, and `t` is a reading of the
clock that this command made. -/
def Born (s : Server σ) (clock : ℕ → Time) (h : List Command) (q : List Char) (t : Time) : Prop :=
  ∃ g cmd rest, h = g ++ cmd :: rest ∧ (s.applyAll clock g).1.ns.find q = none ∧
    (∀ r, r <+: rest → ((s.applyAll clock (g ++ cmd :: r)).1.ns.find q).isSome) ∧
    ∃ k, (s.applyAll clock g).1.ns.reads ≤ k ∧
      k < (s.applyAll clock (g ++ [cmd])).1.ns.reads ∧ t = clock k

/-- The times that a run of commands should leave behind, and what its finalizes should do to
inodes that are there. -/
structure TimesKept (s : Server σ) (clock : ℕ → Time) (h : List Command) : Prop where
  times : ∀ q fi, (s.applyAll clock h).1.ns.find q = some fi →
    fi.createdAt ≠ zeroTime ∧ s.Born clock h q fi.createdAt ∧ fi.createdAt ≤ fi.updatedAt
  finalize : ∀ g cmd, g ++ [cmd] <+: h → cmd.kind = .finalize →
    ∀ fi, (s.applyAll clock g).1.ns.find cmd.path = some fi →
      (∃ t, (s.applyAll clock (g ++ [cmd])).1.ns.find cmd.path =
        some { fi with size := cmd.size, chunkIDs := cmd.chunkIDs, updatedAt := t }) ∧
      ∀ q, q ≠ cmd.path →
        (s.applyAll clock (g ++ [cmd])).1.ns.find q = (s.applyAll clock g).1.ns.find q

variable {s : Server σ} {clock : ℕ → Time} {h : List Command} {cmd : Command} {q : List Char}
  {t : Time}

/-- An inode that stays keeps its birth. -/
theorem Born.concat (hb : s.Born clock h q t)
    (hstored : ((s.applyAll clock (h ++ [cmd])).1.ns.find q).isSome) :
    s.Born clock (h ++ [cmd]) q t := by
  obtain ⟨g, c, rest, rfl, hnone, hsince, hread⟩ := hb
  refine ⟨g, c, rest ++ [cmd], by simp, hnone, fun r hr => ?_, hread⟩
  rcases List.prefix_concat_iff.mp hr with rfl | hr
  · simpa using hstored
  · exact hsince r hr

/-- A new inode is born with the reading it carries. -/
theorem Born.new {k : ℕ} (hnone : (s.applyAll clock h).1.ns.find q = none)
    (hstored : ((s.applyAll clock (h ++ [cmd])).1.ns.find q).isSome)
    (hk : (s.applyAll clock h).1.ns.reads ≤ k)
    (hk' : k < (s.applyAll clock (h ++ [cmd])).1.ns.reads) :
    s.Born clock (h ++ [cmd]) q (clock k) := by
  refine ⟨h, cmd, [], rfl, hnone, fun r hr => ?_, k, hk, hk', rfl⟩
  rw [List.prefix_nil.mp hr]
  exact hstored

variable [LawfulStore σ]

/-- In a run that never finalizes a stored path, the times are those of the creation. -/
theorem times_of_fresh_finalizes (hs : s.ns = .empty) (hpos : ∀ n, 0 < clock n)
    (hfresh : ∀ g cmd, g ++ [cmd] <+: h → cmd.kind = .finalize →
      (s.applyAll clock g).1.ns.find cmd.path = none) {fi : FileInfo}
    (hfi : (s.applyAll clock h).1.ns.find q = some fi) :
    fi.createdAt ≠ zeroTime ∧ s.Born clock h q fi.createdAt ∧ fi.createdAt ≤ fi.updatedAt := by
  induction h using List.reverseRecOn generalizing fi with
  | nil =>
      rw [applyAll, hs, Namespace.find_empty] at hfi
      cases hfi
  | append_singleton h cmd ih =>
      have hbefore : ∀ g c, g ++ [c] <+: h → c.kind = .finalize →
          (s.applyAll clock g).1.ns.find c.path = none := fun g c hg =>
        hfresh g c (hg.trans (List.prefix_append h [cmd]))
      have hstored : ((s.applyAll clock (h ++ [cmd])).1.ns.find q).isSome := by simp [hfi]
      have hstep := (s.applyAll clock h).1.inode_apply clock cmd q
      rw [← applyAll_concat, hfi] at hstep
      generalize hold : (s.applyAll clock h).1.ns.find q = c at hstep
      cases hstep with
      | kept =>
          obtain ⟨hzero, hborn, hle⟩ := ih hbefore hold
          exact ⟨hzero, hborn.concat hstored, hle⟩
      | created _ k hk hk' _ hcreated hupdated =>
          rw [hcreated, hupdated]
          refine ⟨?_, .new hold hstored hk hk', le_rfl⟩
          exact ((by decide : zeroTime < 0).trans (hpos k)).ne'
      | replaced fi' k hk hk' hkind hq =>
          rw [hq, hfresh h cmd List.prefix_rfl hkind] at hold
          cases hold

/-- **Creation times.** The times of a run are right after each of its commands exactly when none
of its commands finalizes a path that is stored. -/
theorem timesKept_iff (leases : LeaseManager) (chunkNodes : List NodeInfo) (rf : ℤ)
    (chunkMap : Option ChunkMap) (clock : ℕ → Time) (hpos : ∀ n, 0 < clock n) (h : List Command) :
    let s : Server σ := .new .empty leases chunkNodes rf chunkMap
    (∀ g, g <+: h → s.TimesKept clock g) ↔
      ∀ g cmd, g ++ [cmd] <+: h → cmd.kind = .finalize →
        (s.applyAll clock g).1.ns.find cmd.path = none := by
  intro s
  constructor
  · intro hkept g cmd hg hkind
    rcases (s.applyAll clock g).1.apply_cases clock cmd with
      ⟨-, hnone⟩ | ⟨-, -, -, heq⟩ | ⟨hdel, -⟩
    · exact hnone hkind
    · -- the inode that takes the place of the old one has no creation time
      have hnew : (s.applyAll clock (g ++ [cmd])).1.ns.find cmd.path = some
          { path := cmd.path, size := cmd.size, chunkIDs := cmd.chunkIDs,
            updatedAt := clock (s.applyAll clock g).1.ns.reads } := by
        rw [applyAll_concat, heq]
        exact Namespace.find_write_self _ _
      exact absurd rfl ((hkept _ hg).times _ _ hnew).1
    · rw [hkind] at hdel
      cases hdel
  · intro hfresh g hg
    have hfresh' : ∀ g' cmd, g' ++ [cmd] <+: g → cmd.kind = .finalize →
        (s.applyAll clock g').1.ns.find cmd.path = none := fun g' cmd hg' =>
      hfresh g' cmd (hg'.trans hg)
    refine ⟨fun q fi hfi => times_of_fresh_finalizes rfl hpos hfresh' hfi, ?_⟩
    intro g' cmd hg' hkind fi hfi
    rw [hfresh' g' cmd hg' hkind] at hfi
    cases hfi

/-- A file is created, deleted and finalized. -/
theorem timesKept_iff_lone :
    let clock : ℕ → Time := fun n => n + 1
    let ab := ['/', 'a', '/', 'b']
    let h : List Command := [{ kind := .create, path := ab }, { kind := .delete, path := ab },
      { kind := .finalize, path := ab, chunkIDs := ["x"], size := 1 }]
    (∀ n, 0 < clock n) ∧
      ((∀ g, g <+: h → lone.TimesKept clock g) ↔
        ∀ g cmd, g ++ [cmd] <+: h → cmd.kind = .finalize →
          (lone.applyAll clock g).1.ns.find cmd.path = none) := by
  intro clock ab h
  have hpos : ∀ n, 0 < clock n := fun n => Int.lt_add_one_of_le (Int.natCast_nonneg n)
  exact ⟨hpos, timesKept_iff (.new 0) [] 0 none clock hpos h⟩

/-- A file is created and finalized: its creation time is the zero time. -/
theorem not_timesKept :
    let clock : ℕ → Time := fun n => n + 1
    let h : List Command := [{ kind := .create, path := ['/', 'a'] },
      { kind := .finalize, path := ['/', 'a'], chunkIDs := ["x"], size := 1 }]
    let fi : FileInfo := { path := ['/', 'a'], size := 1, chunkIDs := ["x"],
                           createdAt := zeroTime, updatedAt := 2 }
    (lone.applyAll clock h).1.ns.find ['/', 'a'] = some fi ∧ ¬lone.TimesKept clock h := by
  intro clock h fi
  have hfind : (lone.applyAll clock h).1.ns.find ['/', 'a'] = some fi := by decide +kernel
  exact ⟨hfind, fun hkept => absurd rfl (hkept.times _ _ hfind).1⟩

end Server

end VaultFS.Master

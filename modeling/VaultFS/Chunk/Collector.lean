import VaultFS.Chunk.Integrity

/-!
# What the garbage collector has seen

One garbage collector over a sequence of sweeps. Everything but its table of orphan timers is left
open: what a sweep finds on disk, its reading of the clock, whether the master refers to a chunk,
whether a removal succeeds and where a sweep is cancelled. The examinations and removals are noted
in their order, with the number of the sweep and its time.

A timer stands for an examination that found its chunk unreferenced, with none since that found it
referenced (`Backed`). `ListChunks` can list an ID twice, when files of this name are in two
directories, and one sweep can then find the chunk both referenced and not. So it is the
examinations that come before a removal in the right order, and the sweeps only if no listing names
a chunk twice.
-/

namespace VaultFS.Chunk

open Interaction KeyValue Metadata Transition

inductive Finding where
  | examined (id : ChunkID) (referenced : Bool)
  /-- The file of the chunk was removed, or an attempt at it failed. -/
  | removal (id : ChunkID)
  deriving DecidableEq

structure Note where
  sweep : ℕ
  now : Time
  finding : Finding
  deriving DecidableEq

section Notes

/-- At the time `s` the chunk was found unreferenced, and never referenced since. -/
def Backed (notes : List Note) (id : ChunkID) (s : Time) : Prop :=
  ∃ before k after, notes = before ++ ⟨k, s, .examined id false⟩ :: after ∧
    ∀ n ∈ after, n.finding ≠ .examined id true

/-- The grounds on which a sweep removes a chunk: it has found the chunk unreferenced itself, and
a grace period ago or longer it was found so, and never referenced since. -/
structure Grounds (grace : Time) (notes : List Note) (k : ℕ) (now : Time) (id : ChunkID) :
    Prop where
  itself : ⟨k, now, .examined id false⟩ ∈ notes
  since : ∃ s, Backed notes id s ∧ grace ≤ now - s

/-- Each removal has its grounds in what comes before it. -/
def Justified (grace : Time) (notes : List Note) : Prop :=
  ∀ before k now id after, notes = before ++ ⟨k, now, .removal id⟩ :: after →
    Grounds grace before k now id

/-- The same by sweeps: the sweep has found the chunk unreferenced itself, and some sweep a grace
period before or longer has found it so, and no sweep from that one on referenced. -/
def SweepJustified (grace : Time) (notes : List Note) : Prop :=
  ∀ k now id, ⟨k, now, .removal id⟩ ∈ notes → ⟨k, now, .examined id false⟩ ∈ notes ∧
    ∃ k' s, k' ≤ k ∧ ⟨k', s, .examined id false⟩ ∈ notes ∧ grace ≤ now - s ∧
      ∀ n ∈ notes, k' ≤ n.sweep → n.sweep ≤ k → n.finding ≠ .examined id true

/-- No sweep examines a chunk twice. -/
def Once (notes : List Note) : Prop :=
  notes.Pairwise fun m n => m.sweep = n.sweep →
    ∀ id b b', m.finding = .examined id b → n.finding ≠ .examined id b'

variable {notes : List Note} {id : ChunkID} {grace s : Time} {n : Note}

theorem Backed.new (notes : List Note) (k : ℕ) (s : Time) (id : ChunkID) :
    Backed (notes ++ [⟨k, s, .examined id false⟩]) id s :=
  ⟨notes, k, [], rfl, nofun⟩

theorem Backed.concat (h : Backed notes id s) (hn : n.finding ≠ .examined id true) :
    Backed (notes ++ [n]) id s := by
  obtain ⟨before, k, after, rfl, hafter⟩ := h
  refine ⟨before, k, after ++ [n], by simp, ?_⟩
  intro m hm
  rcases List.mem_append.mp hm with hm | hm
  · exact hafter m hm
  · rw [List.mem_singleton.mp hm]
    exact hn

theorem Justified.concat (h : Justified grace notes)
    (hn : ∀ id, n.finding = .removal id → Grounds grace notes n.sweep n.now id) :
    Justified grace (notes ++ [n]) := by
  intro before k now id after heq
  rcases List.eq_nil_or_concat after with rfl | ⟨after, m, rfl⟩
  · obtain ⟨rfl, rfl⟩ := List.append_inj' heq rfl |>.imp_right List.singleton_inj.mp
    exact hn id rfl
  · rw [List.concat_eq_append, ← List.cons_append, ← List.append_assoc] at heq
    exact h before k now id after (List.append_inj' heq rfl).1

/-- With one examination of a chunk in a sweep, the order of the sweeps is that of the
examinations. -/
theorem Justified.sweepJustified (h : Justified grace notes) (honce : Once notes)
    (hsorted : notes.Pairwise fun m n => m.sweep ≤ n.sweep) : SweepJustified grace notes := by
  intro k now id hmem
  obtain ⟨before, after, rfl⟩ := List.append_of_mem hmem
  obtain ⟨hitself, s, ⟨pre, k', post, rfl, hpost⟩, hgrace⟩ := h before k now id after rfl
  obtain ⟨hbefore, -, hcross⟩ := List.pairwise_append.mp (hsorted.and honce)
  obtain ⟨-, -, hpre⟩ := List.pairwise_append.mp hbefore
  have hexam : (⟨k', s, .examined id false⟩ : Note) ∈
      pre ++ ⟨k', s, .examined id false⟩ :: post := by simp
  have hk : k' ≤ k := (hcross _ hexam _ List.mem_cons_self).1
  refine ⟨List.mem_append_left _ hitself, k', s, hk, List.mem_append_left _ hexam, hgrace, ?_⟩
  intro n hn hle hge href
  rw [List.append_assoc, List.cons_append] at hn
  rcases List.mem_append.mp hn with hn | hn
  · -- Before the examination at `s`: this is then in the same sweep.
    obtain ⟨hsweep, hdistinct⟩ := hpre n hn _ List.mem_cons_self
    exact hdistinct (le_antisymm hsweep hle) id true false href rfl
  · rcases List.mem_cons.mp hn with rfl | hn
    · cases href
    rcases List.mem_append.mp hn with hn | hn
    · exact hpost n hn href
    rcases List.mem_cons.mp hn with rfl | hn
    · cases href
    -- After the removal: the sweep that removes the chunk has examined it already.
    obtain ⟨hsweep, hdistinct⟩ := hcross _ hitself n (List.mem_cons_of_mem _ hn)
    exact hdistinct (le_antisymm hsweep hge) id false true rfl href

end Notes

/-- A garbage collector, in its current sweep, with the listings and notes of all sweeps. -/
structure Collector where
  orphanedAt : ChunkID → Option Time
  sweep : ℕ
  now : Time
  listings : List (List ChunkID)
  notes : List Note

namespace Collector

def init : Collector where
  orphanedAt := fun _ => none
  sweep := 0
  now := 0
  listings := []
  notes := []

def note (c : Collector) (finding : Finding) : Collector :=
  { c with notes := c.notes ++ [⟨c.sweep, c.now, finding⟩] }

/-- The operations of a sweep of a store with the given files. Only the timers depend on what was
before. -/
def serve (cfg : Config) (files : FS) (c : Collector) : Op → Answer → Option Collector
  | .list, .ids ids =>
      if ids = listChunks cfg.root files then some { c with listings := c.listings ++ [ids] }
      else none
  | .list, .failed _ _ => some c
  | .now, .time t => some { c with now := t }
  | .ctxErr, .done => some c
  | .ctxErr, .failed _ _ => some c
  | .isReferenced id, .flag b => some (c.note (.examined id b))
  | .forget id, .done => some { c with orphanedAt := Function.update c.orphanedAt id none }
  | .observe id now, .flag expired =>
      let first := (c.orphanedAt id).getD now
      if expired = decide (cfg.grace ≤ now.sub first) then
        some { c with orphanedAt := Function.update c.orphanedAt id (some first) }
      else none
  | .remove _ (.sweep id _), .done => some (c.note (.removal id))
  | .remove _ (.sweep id _), .notExist => some (c.note (.removal id))
  | .remove _ (.sweep id _), .failed _ _ => some (c.note (.removal id))
  | .prune live, .done =>
      some { c with orphanedAt := fun id => if live.any (· = id) then c.orphanedAt id else none }
  | _, _ => none

def starting (c : Collector) : Collector := { c with sweep := c.sweep + 1 }

/-- The store as a sweep finds it, and the answers to the operations of the sweep. -/
structure Round where
  files : FS
  answers : List Answer

/-- One sweep, from its call to its return. -/
def step (cfg : Config) (c : Collector) (r : Round) : Option Collector :=
  match (Chunk.sweep cfg).play (serve cfg r.files) c.starting r.answers with
  | some (d, .ret _) => some d
  | _ => none

/-- What holds of the notes at any moment. -/
structure Recorded (grace : Time) (c : Collector) : Prop where
  sorted : c.notes.Pairwise fun m n => m.sweep ≤ n.sweep
  bounded : ∀ n ∈ c.notes, n.sweep ≤ c.sweep
  justified : Justified grace c.notes
  once : (∀ ids ∈ c.listings, ids.Nodup) → Once c.notes

/-- Between two sweeps all timers are backed. -/
structure Sound (grace : Time) (c : Collector) : Prop extends Recorded grace c where
  backed : ∀ id s, c.orphanedAt id = some s → Backed c.notes id s

/-- A sweep has examined the chunks `live` of its listing and comes to those in `rest`. -/
structure Sweeping (grace now : Time) (k : ℕ) (live rest : List ChunkID) (c : Collector) : Prop
    extends Sound grace c where
  number : c.sweep = k
  clock : c.now = now
  listed : live ++ rest ∈ c.listings
  seen : ∀ n ∈ c.notes, n.sweep = k → ∀ id b, n.finding = .examined id b → id ∈ live
  timers : ∀ id ∈ live, (c.orphanedAt id).isSome → ⟨k, now, .examined id false⟩ ∈ c.notes

variable {cfg : Config} {files : FS} {grace now : Time} {k : ℕ} {live rest : List ChunkID}
  {c d : Collector} {id : ChunkID}

/-- What an operation can do. -/
inductive Served (cfg : Config) (files : FS) (c : Collector) : Op → Answer → Collector → Prop where
  | list : Served cfg files c .list (.ids (listChunks cfg.root files))
      { c with listings := c.listings ++ [listChunks cfg.root files] }
  | listFailed (err : String) (stored : ℕ) : Served cfg files c .list (.failed err stored) c
  | now (t : Time) : Served cfg files c .now (.time t) { c with now := t }
  | ctxErr (a : Answer) : Served cfg files c .ctxErr a c
  | isReferenced (id : ChunkID) (b : Bool) :
      Served cfg files c (.isReferenced id) (.flag b) (c.note (.examined id b))
  | forget (id : ChunkID) : Served cfg files c (.forget id) .done
      { c with orphanedAt := Function.update c.orphanedAt id none }
  | observe {id : ChunkID} {now : Time} {expired : Bool}
      (h : expired = decide (cfg.grace ≤ now.sub ((c.orphanedAt id).getD now))) :
      Served cfg files c (.observe id now) (.flag expired)
        { c with
          orphanedAt := Function.update c.orphanedAt id (some ((c.orphanedAt id).getD now)) }
  | remove (path : Path) (id : ChunkID) (now : Time) (a : Answer) :
      Served cfg files c (.remove path (.sweep id now)) a (c.note (.removal id))
  | prune (live : List ChunkID) : Served cfg files c (.prune live) .done
      { c with orphanedAt := fun id => if live.any (· = id) then c.orphanedAt id else none }

theorem served {o : Op} {a : Answer} (h : serve cfg files c o a = some d) :
    Served cfg files c o a d := by
  unfold serve at h
  split at h
  · split at h
    · rename_i heq
      cases h
      subst heq
      exact .list
    · cases h
  · cases h
    exact .listFailed _ _
  · cases h
    exact .now _
  · cases h
    exact .ctxErr _
  · cases h
    exact .ctxErr _
  · cases h
    exact .isReferenced _ _
  · cases h
    exact .forget _
  · simp only at h
    split at h
    · rename_i heq
      cases h
      exact .observe heq
    · cases h
  · cases h
    exact .remove _ _ _ _
  · cases h
    exact .remove _ _ _ _
  · cases h
    exact .remove _ _ _ _
  · cases h
    exact .prune _
  · cases h

/-- A new note. -/
theorem Recorded.note (h : Recorded grace c) {finding : Finding}
    (hground : ∀ id, finding = .removal id → Grounds grace c.notes c.sweep c.now id)
    (honce : (∀ ids ∈ c.listings, ids.Nodup) → ∀ n ∈ c.notes, n.sweep = c.sweep →
      ∀ id b b', n.finding = .examined id b → finding ≠ .examined id b') :
    Recorded grace (c.note finding) := by
  refine ⟨?_, ?_, h.justified.concat hground, ?_⟩
  · refine List.pairwise_append.mpr ⟨h.sorted, List.pairwise_singleton _ _, ?_⟩
    intro m hm n hn
    rw [List.mem_singleton.mp hn]
    exact h.bounded m hm
  · intro n hn
    rcases List.mem_append.mp hn with hn | hn
    · exact h.bounded n hn
    · rw [List.mem_singleton.mp hn]
      exact le_rfl
  · intro hnodup
    refine List.pairwise_append.mpr ⟨h.once hnodup, List.pairwise_singleton _ _, ?_⟩
    intro m hm n hn
    rw [List.mem_singleton.mp hn]
    exact honce hnodup m hm

/-- An examination of the next chunk, which was not examined before if the listing has it once. -/
theorem Sweeping.examined (h : Sweeping grace now k live (id :: rest) c) (b : Bool) :
    Recorded grace (c.note (.examined id b)) := by
  refine h.toRecorded.note nofun ?_
  intro hnodup n hn hsweep id' b₁ b₂ hfinding heq
  obtain ⟨rfl, -⟩ := Finding.examined.inj heq
  have hlive := h.seen n hn (hsweep.trans h.number) id b₁ hfinding
  exact (List.nodup_append.mp (hnodup _ h.listed)).2.2 id hlive id List.mem_cons_self rfl

/-- After the examination of a chunk its timer is cleared, or it is backed. -/
theorem Sweeping.settle (h : Sweeping grace now k live (id :: rest) c) (b : Bool)
    (orphanedAt : ChunkID → Option Time)
    (hother : ∀ id', id' ≠ id → orphanedAt id' = c.orphanedAt id')
    (hid : ∀ s, orphanedAt id = some s → b = false ∧ Backed (c.note (.examined id b)).notes id s) :
    Sweeping grace now k (live ++ [id]) rest { c.note (.examined id b) with orphanedAt } := by
  have hrecorded := h.examined b
  refine {
    hrecorded with
    backed := ?_, number := h.number, clock := h.clock, listed := ?_, seen := ?_, timers := ?_ }
  · intro id' s hs
    by_cases heq : id' = id
    · subst heq
      exact (hid s hs).2
    · refine (h.backed id' s ((hother id' heq).symm.trans hs)).concat ?_
      intro hfinding
      exact heq (Finding.examined.inj hfinding).1.symm
  · rw [List.append_assoc]
    exact h.listed
  · intro n hn hsweep id' b' hfinding
    rcases List.mem_append.mp hn with hn | hn
    · exact List.mem_append_left _ (h.seen n hn hsweep id' b' hfinding)
    · rw [List.mem_singleton.mp hn] at hfinding
      rw [← (Finding.examined.inj hfinding).1]
      exact List.mem_append_right _ List.mem_cons_self
  · intro id' hmem hsome
    by_cases heq : id' = id
    · subst heq
      obtain ⟨s, hs⟩ := Option.isSome_iff_exists.mp hsome
      refine List.mem_append_right _ ?_
      rw [(hid s hs).1, h.number, h.clock]
      exact List.mem_cons_self
    · have hlive : id' ∈ live :=
        (List.mem_append.mp hmem).resolve_right fun hm => heq (List.mem_singleton.mp hm)
      refine List.mem_append_left _ (h.timers id' hlive ?_)
      rwa [← hother id' heq]

theorem Sweeping.forget (h : Sweeping grace now k live rest c) (id : ChunkID) :
    Sweeping grace now k live rest
      { c with orphanedAt := Function.update c.orphanedAt id none } := by
  have hsome : ∀ id' s, Function.update c.orphanedAt id none id' = some s →
      c.orphanedAt id' = some s := by
    intro id' s hs
    by_cases heq : id' = id
    · subst heq
      rw [Function.update_self] at hs
      cases hs
    · rwa [Function.update_of_ne heq] at hs
  refine { h with backed := fun id' s hs => h.backed id' s (hsome id' s hs), timers := ?_ }
  intro id' hmem hsome'
  obtain ⟨s, hs⟩ := Option.isSome_iff_exists.mp hsome'
  exact h.timers id' hmem (by rw [hsome id' s hs]; rfl)

theorem Sweeping.removal (h : Sweeping grace now k live rest c)
    (hground : Grounds grace c.notes k now id) :
    Sweeping grace now k live rest (c.note (.removal id)) := by
  have hrecorded : Recorded grace (c.note (.removal id)) := by
    refine h.toRecorded.note ?_ fun _ _ _ _ _ _ _ _ => nofun
    rintro id' ⟨⟩
    rw [h.number, h.clock]
    exact hground
  refine {
    hrecorded with
    backed := fun id' s hs => (h.backed id' s hs).concat nofun
    number := h.number, clock := h.clock, listed := h.listed, seen := ?_
    timers := fun id' hmem hsome => List.mem_append_left _ (h.timers id' hmem hsome) }
  intro n hn hsweep id' b hfinding
  rcases List.mem_append.mp hn with hn | hn
  · exact h.seen n hn hsweep id' b hfinding
  · rw [List.mem_singleton.mp hn] at hfinding
    cases hfinding

/-- A timer that has run for the grace period gives the grounds for a removal. -/
theorem grounds_of_expired {notes : List Note} {s : Time}
    (hitself : Backed notes id now) (hmem : ⟨k, now, .examined id false⟩ ∈ notes)
    (hbacked : Backed notes id s) (h : grace ≤ now.sub s) : Grounds grace notes k now id := by
  refine ⟨hmem, ?_⟩
  by_cases hpos : grace ≤ 0
  · -- Then the examination in this sweep is old enough itself.
    exact ⟨now, hitself, by rw [sub_self]; exact hpos⟩
  · refine ⟨s, hbacked, ?_⟩
    rw [Time.sub, le_max_iff, le_min_iff] at h
    rcases h with h | h
    · exact absurd (h.trans (by decide)) hpos
    · exact h.2

/-- Each timer is that of a chunk which the sweep has listed and found unreferenced. -/
def Pruned (ids : List ChunkID) (c : Collector) : Prop :=
  ∀ id s, c.orphanedAt id = some s →
    id ∈ ids ∧ ⟨c.sweep, c.now, .examined id false⟩ ∈ c.notes

/-- The state in which a sweep of these chunks returns. -/
def Ended (grace : Time) (ids : List ChunkID) (res : Option String) (c : Collector) : Prop :=
  Sound grace c ∧ (res = none → Pruned ids c)

theorem ensures_ctxErr {P : Collector → Prop} (hrecorded : Recorded grace c) (h : P c) :
    Prog.Ensures (serve cfg files) (Recorded grace) (fun _ => P) c (.op .ctxErr) := by
  refine .op hrecorded ?_
  intro a d hd
  cases served hd with
  | ctxErr => exact ⟨hrecorded, h⟩

theorem ensures_forget (h : Sweeping grace now k live rest c) (id : ChunkID) :
    Prog.Ensures (serve cfg files) (Recorded grace) (fun _ => Sweeping grace now k live rest) c
      (.op (.forget id)) := by
  refine .op h.toRecorded ?_
  intro a d hd
  cases served hd with
  | forget => exact ⟨(h.forget id).toRecorded, h.forget id⟩

theorem ensures_isReferenced (h : Sweeping grace now k live (id :: rest) c) :
    Prog.Ensures (serve cfg files) (Recorded grace)
      (fun a d => ∃ b, a = .flag b ∧ d = c.note (.examined id b)) c (.op (.isReferenced id)) := by
  refine .op h.toRecorded ?_
  intro a d hd
  cases served hd with
  | isReferenced _ b => exact ⟨h.examined b, b, rfl, rfl⟩

/-- The timer of a chunk that was just found referenced. -/
theorem ensures_forget_referenced (h : Sweeping grace now k live (id :: rest) c) :
    Prog.Ensures (serve cfg files) (Recorded grace)
      (fun _ => Sweeping grace now k (live ++ [id]) rest) (c.note (.examined id true))
      (.op (.forget id)) := by
  have hcleared : ∀ s, Function.update c.orphanedAt id none id = some s →
      true = false ∧ Backed (c.note (.examined id true)).notes id s := by
    intro s hs
    rw [Function.update_self] at hs
    cases hs
  have hsettled := h.settle true _ (fun id' hne => Function.update_of_ne hne _ _) hcleared
  refine .op (h.examined true) ?_
  intro a d hd
  cases served hd with
  | forget => exact ⟨hsettled.toRecorded, hsettled⟩

/-- The timer of a chunk that was just found unreferenced. -/
theorem ensures_observe (h : Sweeping cfg.grace now k live (id :: rest) c) :
    Prog.Ensures (serve cfg files) (Recorded cfg.grace)
      (fun a d => Sweeping cfg.grace now k (live ++ [id]) rest d ∧
        (a = .flag true → Grounds cfg.grace d.notes k now id))
      (c.note (.examined id false)) (.op (.observe id now)) := by
  have hself : Backed (c.note (.examined id false)).notes id now := by
    rw [← h.clock]
    exact .new c.notes c.sweep c.now id
  have hfirst : Backed (c.note (.examined id false)).notes id ((c.orphanedAt id).getD now) := by
    cases hs : c.orphanedAt id with
    | none => exact hself
    | some s => exact (h.backed id s hs).concat nofun
  have htimer : ∀ s, Function.update c.orphanedAt id (some ((c.orphanedAt id).getD now)) id =
      some s → false = false ∧ Backed (c.note (.examined id false)).notes id s := by
    intro s hs
    rw [Function.update_self] at hs
    cases hs
    exact ⟨rfl, hfirst⟩
  have hsettled := h.settle false _ (fun id' hne => Function.update_of_ne hne _ _) htimer
  refine .op (h.examined false) ?_
  intro a d hd
  cases served hd with
  | observe hexpired =>
      refine ⟨hsettled.toRecorded, hsettled, ?_⟩
      rintro ⟨⟩
      refine grounds_of_expired hself ?_ hfirst (of_decide_eq_true hexpired.symm)
      refine List.mem_append_right _ ?_
      rw [h.number, h.clock]
      exact List.mem_cons_self

theorem ensures_deleteChunk (h : Sweeping grace now k live rest c)
    (hground : Grounds grace c.notes k now id) :
    Prog.Ensures (serve cfg files) (Recorded grace) (fun _ => Sweeping grace now k live rest) c
      (deleteChunk cfg id (.sweep id now)) := by
  rw [deleteChunk]
  refine .bind (ensures_ctxErr (P := fun d => d = c) h.toRecorded rfl) fun a d _ hd => ?_
  subst hd
  split
  · exact .ret h.toRecorded h
  · split
    · refine .bind (Q := fun _ _ => False) (.op h.toRecorded ?_) fun _ _ _ hfalse => hfalse.elim
      intro a e he
      cases served he
    · refine .bind (Q := fun _ => Sweeping grace now k live rest) (.op h.toRecorded ?_)
        fun a e _ he => ?_
      · intro a e he
        cases served he with
        | remove => exact ⟨(h.removal hground).toRecorded, h.removal hground⟩
      · split <;> exact .ret he.toRecorded he

theorem ensures_prune (h : Sweeping grace now k live [] c) :
    Prog.Ensures (serve cfg files) (Recorded grace)
      (fun _ d => Sound grace d ∧ Pruned live d) c (.op (.prune live)) := by
  have htimer : ∀ id s, (if live.any (· = id) then c.orphanedAt id else none) = some s →
      id ∈ live ∧ c.orphanedAt id = some s := by
    intro id s hs
    split at hs
    · rename_i hany
      obtain ⟨id', hmem, heq⟩ := List.any_eq_true.mp hany
      rw [← of_decide_eq_true heq]
      exact ⟨hmem, by rw [of_decide_eq_true heq]; exact hs⟩
    · cases hs
  refine .op h.toRecorded ?_
  intro a d hd
  cases served hd with
  | prune =>
      refine ⟨{ h.toRecorded with }, ⟨{ h.toRecorded with }, ?_⟩, ?_⟩
      · intro id s hs
        exact h.backed id s (htimer id s hs).2
      · intro id s hs
        obtain ⟨hmem, hsome⟩ := htimer id s hs
        refine ⟨hmem, ?_⟩
        rw [h.number, h.clock]
        exact h.timers id hmem (by rw [hsome]; rfl)

/-- The loop: one chunk is examined and dealt with before the next. -/
theorem ensures_sweepFrom (h : Sweeping cfg.grace now k live rest c) :
    Prog.Ensures (serve cfg files) (Recorded cfg.grace) (Ended cfg.grace (live ++ rest)) c
      (sweepFrom cfg now live rest) := by
  induction rest generalizing live c with
  | nil =>
      rw [List.append_nil, sweepFrom]
      refine .bind (ensures_prune h) fun _ d hd hpruned => ?_
      exact .ret hd ⟨hpruned.1, fun _ => hpruned.2⟩
  | cons id rest ih =>
      have hnext : ∀ {d}, Sweeping cfg.grace now k (live ++ [id]) rest d →
          Prog.Ensures (serve cfg files) (Recorded cfg.grace)
            (Ended cfg.grace (live ++ id :: rest)) d (sweepFrom cfg now (live ++ [id]) rest) := by
        intro d hd
        have := ih hd
        rwa [List.append_assoc] at this
      rw [sweepFrom]
      refine .bind (ensures_ctxErr (P := fun d => d = c) h.toRecorded rfl) fun a d _ hd => ?_
      subst hd
      split
      · exact .ret h.toRecorded ⟨h.toSound, fun hnone => by cases hnone⟩
      · refine .bind (ensures_isReferenced h) fun b e he hb => ?_
        obtain ⟨referenced, rfl, rfl⟩ := hb
        cases referenced with
        | true => exact .bind (ensures_forget_referenced h) fun _ _ _ hf => hnext hf
        | false =>
            refine .bind (ensures_observe h) fun a f hf hfa => ?_
            split
            · refine .bind (ensures_deleteChunk hfa.1 (hfa.2 rfl)) fun res g _ hg => ?_
              split
              · exact hnext hg
              · exact .bind (ensures_forget hg id) fun _ _ _ hg' => hnext hg'
            · exact hnext hfa.1

theorem Sound.starting (h : Sound grace c) : Sound grace c.starting :=
  { h with bounded := fun n hn => (h.bounded n hn).trans (Nat.le_succ _) }

/-- A new listing. -/
theorem Sound.listed (h : Sound grace c) (ids : List ChunkID) :
    Sound grace { c with listings := c.listings ++ [ids] } :=
  { h with
    once := fun hnodup => h.once fun ids' hids' => hnodup ids' (List.mem_append_left _ hids') }

theorem Sound.clock (h : Sound grace c) (now : Time) : Sound grace { c with now } := { h with }

/-- The beginning of the loop. -/
theorem Sound.sweeping (h : Sound grace c) (ids : List ChunkID) (now : Time) :
    Sweeping grace now (c.sweep + 1) [] ids
      { c.starting with listings := c.listings ++ [ids], now } := by
  have hsound : Sound grace { c.starting with listings := c.listings ++ [ids], now } :=
    (h.starting.listed ids).clock now
  refine {
    hsound with
    number := rfl, clock := rfl, listed := List.mem_append_right _ List.mem_cons_self
    seen := ?_, timers := nofun }
  intro n hn hsweep
  exact absurd (h.bounded n hn) (by omega)

theorem ensures_list (h : Sound grace c) :
    Prog.Ensures (serve cfg files) (Recorded grace)
      (fun a d => a = .ids (listChunks cfg.root files) ∧
          d = { c with listings := c.listings ++ [listChunks cfg.root files] } ∨
        (∃ err n, a = .failed err n) ∧ d = c) c (.op .list) := by
  refine .op h.toRecorded ?_
  intro a d hd
  cases served hd with
  | list => exact ⟨(h.listed _).toRecorded, .inl ⟨rfl, rfl⟩⟩
  | listFailed err n => exact ⟨h.toRecorded, .inr ⟨⟨err, n, rfl⟩, rfl⟩⟩

theorem ensures_now (h : Sound grace c) :
    Prog.Ensures (serve cfg files) (Recorded grace)
      (fun a d => ∃ now, a = .time now ∧ d = { c with now }) c (.op .now) := by
  refine .op h.toRecorded ?_
  intro a d hd
  cases served hd with
  | now t => exact ⟨(h.clock t).toRecorded, t, rfl, rfl⟩

/-- A whole sweep, up to each of its operations and to its end. -/
theorem ensures_sweep (h : Sound cfg.grace c) :
    Prog.Ensures (serve cfg files) (Recorded cfg.grace)
      (Ended cfg.grace (listChunks cfg.root files)) c.starting (Chunk.sweep cfg) := by
  rw [Chunk.sweep]
  refine .bind (ensures_list h.starting) fun a d hd ha => ?_
  rcases ha with ⟨rfl, rfl⟩ | ⟨⟨err, n, rfl⟩, rfl⟩
  · refine .bind (ensures_now (h.starting.listed _)) fun b e _ hb => ?_
    obtain ⟨now, rfl, rfl⟩ := hb
    exact ensures_sweepFrom (h.sweeping _ now)
  · exact .ret hd ⟨h.starting, fun hnone => by cases hnone⟩

theorem Sound.init (grace : Time) : Sound grace init where
  sorted := .nil
  bounded := nofun
  justified := by
    intro before k now id after heq
    exact absurd heq.symm (by simp [Collector.init])
  once := fun _ => .nil
  backed := nofun

theorem Sound.step {r : Round} (h : Sound cfg.grace c) (hstep : step cfg c r = some d) :
    Sound cfg.grace d := by
  simp only [Collector.step] at hstep
  split at hstep
  · rename_i e res hplay
    cases hstep
    exact ((ensures_sweep h).ended hplay rfl).1
  · cases hstep

theorem Sound.run (h : Transition.Path (Collector.step cfg) (fun _ _ => True) Collector.init c) :
    Sound cfg.grace c :=
  h.invariant (.init cfg.grace) fun _ _ _ hsound _ hstep => hsound.step hstep

/-- After any sequence of sweeps, and at any moment of the one after them: each removal comes after
an examination that found the chunk unreferenced a grace period ago or longer, and none since has
found it referenced; the sweep that removes it has examined it too. When no listing names a chunk
twice, this holds for the sweeps as a whole. When the sweep has run to completion, the timers left
are of chunks that it has listed and found unreferenced. -/
theorem removals_justified (h : Transition.Path (step cfg) (fun _ _ => True) init c)
    {answers : List Answer} {q : Act (Option String)}
    (hplay : (Chunk.sweep cfg).play (serve cfg files) c.starting answers = some (d, q)) :
    Justified cfg.grace d.notes ∧
    ((∀ ids ∈ d.listings, ids.Nodup) → SweepJustified cfg.grace d.notes) ∧
    (q.result? = some none → Pruned (listChunks cfg.root files) d) := by
  have hsweep : Prog.Ensures (serve cfg files) (Recorded cfg.grace)
      (Ended cfg.grace (listChunks cfg.root files)) c.starting (Chunk.sweep cfg) :=
    ensures_sweep (Sound.run h)
  have hrecorded := hsweep.cut hplay
  refine ⟨hrecorded.justified, ?_, ?_⟩
  · intro hnodup
    exact hrecorded.justified.sweepJustified (hrecorded.once hnodup) hrecorded.sorted
  · intro hres
    exact (hsweep.ended hplay hres).2 rfl

section Runs

/-- The files of one chunk, and where asked a second file of its name in another directory. -/
def filed (twice : Bool) : FS :=
  let files := put Store.empty (path sample.root (hash sample.sum256 [1])) [1]
  if twice then put files (sample.root ++ [['x'], hash sample.sum256 [1]]) [1] else files

/-- A first sweep finds the chunk unreferenced and starts its timer. -/
def observing : Round where
  files := filed false
  answers := [.ids [hash sample.sum256 [1]], .time 0, .done, .flag false, .flag false, .done]

/-- A second one finds the timer expired and removes the chunk. -/
def removing : Round where
  files := filed false
  answers := [.ids [hash sample.sum256 [1]], .time 10, .done, .flag false, .flag true, .done, .done,
    .done, .done]

/-- A first sweep finds the chunk twice, referenced and then not. -/
def wavering : Round where
  files := filed true
  answers := [.ids [hash sample.sum256 [1], hash sample.sum256 [1]], .time 0, .done, .flag true,
    .done, .done, .flag false, .flag false, .done]

/-- A second one removes the chunk, and finds it once more. -/
def removingTwice : Round where
  files := filed true
  answers := [.ids [hash sample.sum256 [1], hash sample.sum256 [1]], .time 10, .done, .flag false,
    .flag true, .done, .done, .done, .done, .flag false, .flag false, .done]

/-- The collector after a first sweep. -/
def after (r : Round) : Collector := final (guarded (step sample) fun _ _ => True) init [r]

/-- The second sweep after a first one. -/
def second (r r' : Round) : Option (Collector × Act (Option String)) :=
  (Chunk.sweep sample).play (serve sample r'.files) (after r).starting r'.answers

/-- What a play leads to, from a computed part of its state. -/
theorem exists_second (r r' : Round) (notes : List Note) (listings : List (List ChunkID))
    (h : (second r r').map (fun x => (x.1.notes, x.1.listings, x.2.result?)) =
      some (notes, listings, some none)) :
    ∃ d q, (Chunk.sweep sample).play (serve sample r'.files) (after r).starting r'.answers =
      some (d, q) ∧ d.notes = notes ∧ d.listings = listings ∧ q.result? = some none := by
  obtain ⟨⟨d, q⟩, hplay, heq⟩ := Option.map_eq_some_iff.mp h
  simp only [Prod.mk.injEq] at heq
  exact ⟨d, q, hplay, heq⟩

theorem removals_justified_later : ∃ c d q,
    Transition.Path (step sample) (fun _ _ => True) init c ∧
    (Chunk.sweep sample).play (serve sample removing.files) c.starting removing.answers =
      some (d, q) ∧
    ⟨2, 10, .removal (hash sample.sum256 [1])⟩ ∈ d.notes ∧
    SweepJustified sample.grace d.notes ∧ Pruned (listChunks sample.root removing.files) d := by
  have hfirst : Enabled (guarded (step sample) fun _ _ => True) init [observing] := by
    decide +kernel
  obtain ⟨d, q, hplay, hnotes, hlistings, hres⟩ := exists_second observing removing
    [⟨1, 0, .examined (hash sample.sum256 [1]) false⟩,
      ⟨2, 10, .examined (hash sample.sum256 [1]) false⟩, ⟨2, 10, .removal (hash sample.sum256 [1])⟩]
    [[hash sample.sum256 [1]], [hash sample.sum256 [1]]] (by decide +kernel)
  have hpath := Transition.Path.final hfirst
  obtain ⟨-, hsweeps, hpruned⟩ := removals_justified hpath hplay
  refine ⟨_, d, q, hpath, hplay, ?_, hsweeps ?_, hpruned hres⟩
  · rw [hnotes]
    simp
  · rw [hlistings]
    simp

/-- The chunk is listed twice in each sweep. The first sweep has found it both referenced and
unreferenced, and the second one removes it. -/
theorem removal_not_sweepJustified : ∃ c d q,
    Transition.Path (step sample) (fun _ _ => True) init c ∧
    (Chunk.sweep sample).play (serve sample removingTwice.files) c.starting removingTwice.answers =
      some (d, q) ∧ ¬ SweepJustified sample.grace d.notes := by
  have hfirst : Enabled (guarded (step sample) fun _ _ => True) init [wavering] := by
    decide +kernel
  obtain ⟨d, q, hplay, hnotes, -, -⟩ := exists_second wavering removingTwice
    [⟨1, 0, .examined (hash sample.sum256 [1]) true⟩,
      ⟨1, 0, .examined (hash sample.sum256 [1]) false⟩,
      ⟨2, 10, .examined (hash sample.sum256 [1]) false⟩, ⟨2, 10, .removal (hash sample.sum256 [1])⟩,
      ⟨2, 10, .examined (hash sample.sum256 [1]) false⟩]
    [[hash sample.sum256 [1], hash sample.sum256 [1]],
      [hash sample.sum256 [1], hash sample.sum256 [1]]] (by decide +kernel)
  refine ⟨_, d, q, Transition.Path.final hfirst, hplay, ?_⟩
  intro hjustified
  obtain ⟨-, k', s, -, hexam, hgrace, hnone⟩ :=
    hjustified 2 10 (hash sample.sum256 [1]) (by rw [hnotes]; simp)
  rw [hnotes] at hexam hnone
  -- Only the examination of the first sweep is old enough.
  have hk : k' = 1 := by
    have hold : (10 : ℤ) ≤ 10 - s := hgrace
    simp only [List.mem_cons, Note.mk.injEq, Finding.examined.injEq, reduceCtorEq, and_false,
      Bool.false_eq_true, List.not_mem_nil, or_false, false_or, and_true] at hexam
    rcases hexam with ⟨hk, -⟩ | ⟨-, rfl⟩ | ⟨-, rfl⟩
    · exact hk
    · exact absurd hold (by decide)
    · exact absurd hold (by decide)
  exact hnone ⟨1, 0, .examined (hash sample.sum256 [1]) true⟩ List.mem_cons_self (le_of_eq hk)
    (by decide) rfl

end Runs

end Collector

end VaultFS.Chunk

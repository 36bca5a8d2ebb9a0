import VaultFS.Raft.Cluster.ElectionSafety

/-!
# Votes of one node in one term

A node votes for itself when it stands and for others when it grants their
requests. A node that stood in a term, stepped down in it and then gets a vote
request of that term votes a second time. As long as no request comes that late,
all votes of a node in a term are for the same candidate.
-/

namespace VaultFS

namespace Raft

open Transition

/-- The node `i` has voted for `c` in term `T`: for itself by standing, or for
another node by granting its request. -/
def World.Cast (w : World) (i : String) (T : ℕ) (c : String) : Prop :=
  ((w.hosts i).elections T ≠ none ∧ c = i) ∨
    ∃ call ∈ w.calls, call.dst = i ∧ ∃ args reply, call.rpc = .requestVote args (some reply) ∧
      reply.voteGranted = true ∧ reply.term = T ∧ args.candidateID = c

/-- A reply that grants a vote is of the term of the request. -/
def GrantTerms (w : World) : Prop :=
  ∀ call ∈ w.calls, ∀ args reply, call.rpc = .requestVote args (some reply) →
    reply.voteGranted = true → reply.term = args.term

theorem GrantTerms.step {cl : Cluster} {w w' : World} {e : Event} (h : GrantTerms w)
    (hs : Raft.step cl w e = some w') : GrantTerms w' := by
  cases step_moved hs with
  | act i a h' cs hi hact =>
      intro call hcall args reply hrpc
      rcases List.mem_append.mp hcall with hold | hnew
      · exact h call hold args reply hrpc
      · cases Host.act_acted hact with
        | stand n args' hfree hn hq =>
            obtain ⟨p, -, rfl⟩ := List.mem_map.mp hnew
            cases hrpc
        | append | appendCut | snapshot | snapshotCut =>
            simp [List.mem_singleton.mp hnew] at hrpc
        | _ => simp at hnew
  | deliver c cut call h' rpc hc hdel =>
      refine World.set_calls h ?_
      intro args reply hrpc hg
      obtain rfl : rpc = .requestVote args (some reply) := hrpc
      generalize hreq : call.rpc = req at hdel
      cases Host.deliver_delivered hdel with
      | vote =>
          rcases (w.hosts call.dst).node.handleRequestVote_cases args with
            ⟨-, hr⟩ | ⟨-, hr⟩ | ⟨-, -, -, hr⟩
          · simp [hr] at hg
          · simp [hr] at hg
          · rw [hr]
  | receive c call h' hc | giveUp c call hc =>
      exact World.set_calls h (h call (List.mem_of_getElem? hc))

theorem Reach.grantTerms {cl : Cluster} {ok : World → Event → Prop} {w : World}
    (h : Reach cl ok w) : GrantTerms w :=
  Path.invariant h (fun call hc => by simp [World.init] at hc) fun _ _ _ hi _ hs => hi.step hs

/-- A node that has stood in a term has granted no vote in it. -/
def StoodAlone (w : World) : Prop :=
  ∀ i U c, w.elections i U ≠ none → ¬ w.Granted i U c

theorem StoodAlone.step {cl : Cluster} {w w' : World} {e : Event} (h : StoodAlone w)
    (hv : Voting cl w) (hc : Campaign cl w e w') (hok : voteMissesStepDown w e) :
    StoodAlone w' := by
  intro i U c hstood hg
  obtain ⟨el, hel⟩ := Option.ne_none_iff_exists'.mp hstood
  rcases hc.granted_cases hg with hold | ⟨hsame, r, -, hne, hr, hfree, -, hmiss⟩
  · have hle : U ≤ (w.role i).currentTerm := by
      rcases hv.granted_held i U c hold with hlt | ⟨heq, -⟩
      · exact hlt.le
      · exact heq.le
    cases hc.ran hel with
    | same _ hel₀ => exact h i U c (by simp [hel₀]) hold
    | stood hU => omega
    | counted el₀ v hel₀ => exact h i U c (by simp [hel₀]) hold
    | won el₀ votes hi hel₀ => exact h i U c (by simp [hel₀]) hold
  · rw [hsame] at hel
    have hle := hv.election_le i U el hel
    have hfollow := hv.follower_of_grant hne hr hfree
    rcases hr with ⟨rfl, hU⟩ | ⟨hlt, -⟩
    · rw [hmiss hok hU.symm hfollow] at hel
      cases hel
    · omega

theorem Reach.stoodAlone {cl : Cluster} {w : World} (h : Reach cl voteMissesStepDown w) :
    StoodAlone w := by
  have hall := Path.invariant (I := fun w => Reach cl voteMissesStepDown w ∧ StoodAlone w) h
    ⟨.refl, fun i U c hstood => by simp [World.elections, World.init] at hstood⟩
    fun w e w' hi hok hs =>
      ⟨hi.1.tail hok hs, hi.2.step hi.1.voting (hi.1.campaign hs) hok⟩
  exact hall.2

/-- In a run in which no vote request of a term finds a node that stood in that
term and stepped down in it, all votes of a node in a term are for the same
candidate. -/
theorem one_vote_per_term {cl : Cluster} {w : World} (h : Reach cl voteMissesStepDown w)
    {i : String} {T : ℕ} {c c' : String} (hc : w.Cast i T c) (hc' : w.Cast i T c') : c = c' := by
  have hgranted : ∀ {c : String}, (∃ call ∈ w.calls, call.dst = i ∧ ∃ args reply,
      call.rpc = .requestVote args (some reply) ∧ reply.voteGranted = true ∧ reply.term = T ∧
      args.candidateID = c) → w.Granted i T c := by
    rintro c ⟨call, hmem, hdst, args, reply, hrpc, hg, ht, hcand⟩
    have hsrc := (h.configured.call call hmem).2.2
    have hterm := h.grantTerms call hmem args reply hrpc hg
    rw [hrpc] at hsrc
    exact ⟨call, hmem, hdst, hsrc.symm.trans hcand, args, reply, hrpc, hterm.symm.trans ht, hg⟩
  rcases hc with ⟨hstood, rfl⟩ | hg
  · rcases hc' with ⟨-, rfl⟩ | hg'
    · rfl
    · exact absurd (hgranted hg') (h.stoodAlone c T c' hstood)
  · rcases hc' with ⟨hstood, rfl⟩ | hg'
    · exact absurd (hgranted hg) (h.stoodAlone c' T c hstood)
    · exact h.voting.granted_unique i T c c' (hgranted hg) (hgranted hg')

/-- Nodes `a` and `b` stand in term one, `c` votes for `a`, and `b` steps down on the
heartbeat of `a`. -/
def rivalStepsDown : List Event :=
  [.act "a" .electionTimeout, .act "b" .electionTimeout, .deliver 1 none, .receive 1,
    .act "a" .heartbeat, .act "a" (.replicateTo "b" false), .deliver 4 none]

theorem one_vote_per_term_trio : ∃ (w : World) (i c c' : String),
    (w.hosts i).node.state = .follower ∧ (w.hosts i).node.votedFor = "" ∧
    w.Cast i 1 c ∧ w.Cast i 1 c' ∧ c = c' := by
  have hw : Runs trio voteMissesStepDown rivalStepsDown := by decide
  have hcast : (run trio voteMissesStepDown rivalStepsDown).Cast "b" 1 "b" :=
    Or.inl ⟨by decide, rfl⟩
  exact ⟨run trio voteMissesStepDown rivalStepsDown, "b", "b", "b", by decide, by decide,
    hcast, hcast, one_vote_per_term (Reach.run hw) hcast hcast⟩

/-- The request of `a` then reaches `b`, which has voted for itself in the same
term and now votes for `a` as well. -/
theorem two_votes_in_one_term : ∃ (w : World) (i c c' : String) (T : ℕ),
    Reach trio anyStep w ∧ w.Cast i T c ∧ w.Cast i T c' ∧ c ≠ c' := by
  have hw : Runs trio anyStep (rivalStepsDown ++ [.deliver 0 none]) := by decide
  refine ⟨run trio anyStep (rivalStepsDown ++ [.deliver 0 none]), "b", "b", "a", 1,
    Reach.run hw, Or.inl ⟨by decide, rfl⟩, Or.inr ?_, by decide⟩
  exact ⟨⟨"a", "b", .requestVote ⟨1, "a", 0, 0⟩ (some ⟨1, true⟩), true⟩, by decide, rfl,
    ⟨1, "a", 0, 0⟩, ⟨1, true⟩, rfl, rfl, rfl, rfl⟩

end Raft

end VaultFS

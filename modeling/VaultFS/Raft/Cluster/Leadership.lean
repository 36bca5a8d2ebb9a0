import VaultFS.Raft.Cluster.IndexOrder

/-!
# Replies within one leadership

The main loop waits for the replication goroutines of a round before it can start an
election, and nothing but an election makes a node a candidate. While a goroutine waits
for a reply, the node therefore leads the term of the request or no term at all, and a
reply is never counted in a later leadership of the node. `sendSnapshot` depends on this:
it looks at the role of the node and not at the term of the request.
-/

namespace VaultFS

namespace Raft

open Transition

/-- The peer that a replication goroutine works for. -/
def Worker.peer (calls : List Call) : Worker → Option String
  | .start p => some p
  | .snapshot p => some p
  | .waiting c => calls[c]?.map (·.dst)

/-- A replication goroutine waits for the reply. -/
def Call.Replicates (call : Call) : Prop := call.waiting = true ∧ call.rpc.isVote = false

/-- What holds while the goroutines of a round are at work. -/
structure InRound (w : World) : Prop where
  noElection : ∀ i, (w.hosts i).workers ≠ [] → (w.hosts i).node.state ≠ .candidate
  waits : ∀ (c : ℕ) (call : Call), w.calls[c]? = some call → call.Replicates →
    .waiting c ∈ (w.hosts call.src).workers
  made : ∀ i c, .waiting c ∈ (w.hosts i).workers → c < w.calls.length
  term : ∀ (c : ℕ) (call : Call), w.calls[c]? = some call → call.Replicates →
    (w.hosts call.src).node.state = .leader →
    (w.hosts call.src).node.currentTerm = call.rpc.term
  onePerPeer : ∀ i, ((w.hosts i).workers.map (Worker.peer w.calls)).Nodup

/-- How a role can change during a round: not at all, or to that of a follower. A candidate
and a node that stands have no round. -/
def Host.Shifts (h h' : Host) : Prop :=
  (h'.node.state = h.node.state ∧ h'.node.currentTerm = h.node.currentTerm) ∨
    h'.node.state = .follower ∨ (h.node.state = .candidate ∧ h'.node.state = .leader) ∨
    (h.workers = [] ∧ h'.workers = [])

namespace Host.Shifts

variable {h h' : Host}

theorem of_role (hrole : h'.node.role = h.node.role) : h.Shifts h' :=
  Or.inl ⟨congrArg Role.state hrole, congrArg Role.currentTerm hrole⟩

theorem of_outcome {el : Election} {term : ℕ} {r : Node × Election}
    (hr : h.node.Outcome el term r) (hnode : h'.node = r.1) : h.Shifts h' := by
  cases hr with
  | kept el' honce => exact of_role (by rw [hnode])
  | later t hlt => exact Or.inr (Or.inl (by rw [hnode]; rfl))
  | won el' hcand hterm honce honce' =>
      refine Or.inr (Or.inr (Or.inl ⟨hcand, ?_⟩))
      rw [hnode]
      exact congrArg Role.state (h.node.becomeLeader_role hcand)

theorem of_observe {t : ℕ} (hs : h'.node.state = (h.node.observe t).state)
    (ht : h'.node.currentTerm = (h.node.observe t).currentTerm) : h.Shifts h' := by
  unfold Node.observe at hs ht
  split at hs
  · exact Or.inr (Or.inl hs)
  · rename_i hle
    rw [if_neg hle] at ht
    exact Or.inl ⟨hs, ht⟩

theorem acted {c : ℕ} {a : Action} {cs : List Call} (ha : Acted h c a h' cs) : h.Shifts h' := by
  cases ha with
  | stand n args hfree => exact Or.inr (Or.inr (Or.inr ⟨hfree.2, hfree.2⟩))
  | standAlone n args hfree => exact Or.inr (Or.inr (Or.inr ⟨hfree.2, hfree.2⟩))
  | winAlone term el => exact of_outcome (h.node.winAlone_outcome el term) rfl
  | propose command n hn =>
      obtain ⟨-, rfl⟩ := Node.propose_ok hn
      exact of_role (Node.advanceCommitIndex_role _)
  | _ => exact of_role rfl

theorem delivered {cut : Option ℕ} {rpc rpc' : Rpc} (hd : Delivered h cut rpc h' rpc') :
    h.Shifts h' := by
  have haccept : ∀ {args : AppendEntriesArgs}, h.node.currentTerm ≤ args.term →
      h'.node.role = (h.node.acceptLeader args.term args.leaderID).role → h.Shifts h' := by
    intro args hle hrole
    rcases Node.acceptLeader_role args.leaderID hle with ⟨-, -, hsame⟩ | ⟨-, hdown⟩
    · exact of_role (hrole.trans hsame)
    · exact Or.inr (Or.inl (congrArg Role.state (hrole.trans hdown)))
  have happend : ∀ (args : AppendEntriesArgs) (x : Option Intrusion),
      h'.node = (h.node.handleAppendEntries args x).1 → h.Shifts h' := by
    intro args x hnode
    rcases h.node.handleAppendEntries_cases args x with ⟨-, hr⟩ | ⟨hle, t, -, hr⟩ | ⟨hle, -, hr⟩
    · exact of_role (by rw [hnode, hr])
    · exact haccept hle (by rw [hnode, hr])
    · exact haccept hle (by rw [hnode, hr]; exact Node.followCommit_role _ _)
  cases hd with
  | vote args =>
      rcases h.node.handleRequestVote_cases args with ⟨-, hr⟩ | ⟨-, hr⟩ | ⟨-, -, -, hr⟩
      · exact of_role (by simp only [hr])
      · exact of_observe (t := args.term) (by simp only [hr]) (by simp only [hr])
      · exact of_observe (t := args.term) (by simp only [hr]) (by simp only [hr])
  | snapshot args =>
      rcases h.node.handleInstallSnapshot_cases args with ⟨-, hr⟩ | ⟨-, -, hr⟩ | ⟨-, -, hr⟩
      · exact of_role (by simp only [hr])
      · exact of_observe (t := args.term) (by simp only [hr]) (by simp only [hr])
      · exact of_observe (t := args.term) (by simp only [hr]) (by simp only [hr])
  | append args => exact happend args none rfl
  | appendCut args k d => exact happend args _ rfl

theorem received {c : ℕ} {dst : String} {rpc : Rpc} (hr : Received h c dst rpc h') :
    h.Shifts h' := by
  cases hr with
  | vote args reply el => exact of_outcome (h.node.countVote_outcome el args.term reply) rfl
  | append args reply =>
      rcases h.node.handleAppendReply_cases dst args reply with
        ⟨-, heq⟩ | heq | ⟨-, -, -, m, x, heq, -⟩ | ⟨-, -, -, x, heq, -⟩
      · exact Or.inr (Or.inl (by simp only [heq]; rfl))
      · exact of_role (by simp only [heq])
      · refine of_role ?_
        simp only [heq]
        exact Node.advanceCommitIndex_role _
      · exact of_role (by simp only [heq]; rfl)
  | snapshot args reply =>
      rcases h.node.handleSnapshotReply_cases dst args reply with ⟨-, heq⟩ | heq | ⟨-, m, heq, -⟩
      · exact Or.inr (Or.inl (by simp only [heq]; rfl))
      · exact of_role (by simp only [heq])
      · exact of_role (by simp only [heq]; rfl)

end Host.Shifts

theorem Delivered.request {h h' : Host} {cut : Option ℕ} {rpc rpc' : Rpc}
    (hd : Delivered h cut rpc h' rpc') :
    rpc'.term = rpc.term ∧ rpc'.isVote = rpc.isVote ∧ h'.workers = h.workers := by
  cases hd with
  | vote | snapshot | append | appendCut => exact ⟨rfl, rfl, rfl⟩

theorem Received.workers {h h' : Host} {c : ℕ} {dst : String} {rpc : Rpc}
    (hr : Received h c dst rpc h') :
    h'.workers = h.workers ∨ h'.workers = h.workers.erase (.waiting c) := by
  cases hr with
  | vote => exact Or.inl rfl
  | append | snapshot => exact Or.inr rfl

namespace Worker

variable {calls cs : List Call} {x : Worker}

/-- A goroutine works for the same peer when calls are added or answered. -/
theorem peer_append (hx : ∀ c, x = .waiting c → c < calls.length) :
    x.peer (calls ++ cs) = x.peer calls := by
  cases x with
  | waiting c => simp only [peer, List.getElem?_append_left (hx c rfl)]
  | _ => rfl

theorem peer_set {c : ℕ} {call call' : Call} (hc : calls[c]? = some call)
    (hdst : call'.dst = call.dst) : x.peer (calls.set c call') = x.peer calls := by
  cases x with
  | waiting c' =>
      by_cases heq : c = c'
      · subst heq
        obtain ⟨hlt, -⟩ := List.getElem?_eq_some_iff.mp hc
        simp only [peer, List.getElem?_set_self hlt, hc, Option.map_some, hdst]
      · simp only [peer, List.getElem?_set_ne heq]
  | _ => rfl

end Worker

namespace InRound

variable {cl : Cluster} {w w' : World} {i : String} {h' : Host}

theorem init (cl : Cluster) : InRound (World.init cl) where
  noElection i hi := absurd rfl hi
  waits c call hc := by simp [World.init] at hc
  made i c hc := by simp [World.init] at hc
  term c call hc := by simp [World.init] at hc
  onePerPeer i := by simp [World.init]

/-- A node that waits for a reply leads the term of the request, if it leads, also after
its role changed. -/
theorem term_of_shifts (h : InRound w) (hs : (w.hosts i).Shifts h') {c : ℕ} {call : Call}
    (hc : w.calls[c]? = some call) (hrep : call.Replicates) (hi : call.src = i)
    (hl : h'.node.state = .leader) : h'.node.currentTerm = call.rpc.term := by
  subst hi
  have hbusy : (w.hosts call.src).workers ≠ [] := List.ne_nil_of_mem (h.waits c call hc hrep)
  rcases hs with ⟨hstate, hterm⟩ | hf | ⟨hcand, -⟩ | ⟨hnil, -⟩
  · rw [hterm]
    exact h.term c call hc hrep (hstate ▸ hl)
  · rw [hf] at hl
    cases hl
  · exact absurd hcand (h.noElection _ hbusy)
  · exact absurd hnil hbusy

theorem noElection_of_shifts (h : InRound w) (hs : (w.hosts i).Shifts h')
    (hbusy : h'.workers ≠ [] → (w.hosts i).workers ≠ [] ∨ (w.hosts i).node.state = .leader)
    (hne : h'.workers ≠ []) : h'.node.state ≠ .candidate := by
  rcases hs with ⟨hstate, -⟩ | hf | ⟨-, hl⟩ | ⟨-, hnil⟩
  · rw [hstate]
    rcases hbusy hne with hold | hl
    · exact h.noElection i hold
    · simp [hl]
  · simp [hf]
  · simp [hl]
  · exact absurd hnil hne

/-- A host moved and made calls. -/
theorem act (h : InRound w) (hs : (w.hosts i).Shifts h') {cs : List Call}
    (hbusy : h'.workers ≠ [] → (w.hosts i).workers ≠ [] ∨ (w.hosts i).node.state = .leader)
    (hkeep : ∀ c, .waiting c ∈ (w.hosts i).workers → .waiting c ∈ h'.workers)
    (hmade : ∀ c, .waiting c ∈ h'.workers → c < (w.calls ++ cs).length)
    (hnew : ∀ (k : ℕ) (call : Call), cs[k]? = some call → call.Replicates → call.src = i ∧
      .waiting (w.calls.length + k) ∈ h'.workers ∧ h'.node.currentTerm = call.rpc.term)
    (hone : (h'.workers.map (Worker.peer (w.calls ++ cs))).Nodup) :
    InRound (w.put i h' (w.calls ++ cs)) where
  noElection := World.put_hosts (P := fun _ x => x.workers ≠ [] → x.node.state ≠ .candidate)
    (h.noElection_of_shifts hs hbusy) fun j _ => h.noElection j
  waits c call hc hrep := by
    refine World.put_hosts (P := fun j x => call.src = j → .waiting c ∈ x.workers) ?_ ?_ call.src
      rfl
    · intro hi
      rcases Growth.getElem?_append_cases hc with hold | ⟨k, rfl, hk⟩
      · exact hkeep c (hi ▸ h.waits c call hold hrep)
      · exact (hnew k call hk hrep).2.1
    · intro j hj hi
      rcases Growth.getElem?_append_cases hc with hold | ⟨k, rfl, hk⟩
      · exact hi ▸ h.waits c call hold hrep
      · exact absurd (hi.symm.trans (hnew k call hk hrep).1) hj
  made := by
    refine World.put_hosts (P := fun _ x => ∀ c, .waiting c ∈ x.workers →
      c < (w.calls ++ cs).length) hmade ?_
    intro j _ c hc
    have := h.made j c hc
    rw [List.length_append]
    omega
  term c call hc hrep := by
    refine World.put_hosts (P := fun j x => call.src = j → x.node.state = .leader →
      x.node.currentTerm = call.rpc.term) ?_ ?_ call.src rfl
    · intro hi hl
      rcases Growth.getElem?_append_cases hc with hold | ⟨k, rfl, hk⟩
      · exact h.term_of_shifts hs hold hrep hi hl
      · exact (hnew k call hk hrep).2.2
    · intro j hj hi hl
      rcases Growth.getElem?_append_cases hc with hold | ⟨k, rfl, hk⟩
      · subst hi
        exact h.term c call hold hrep hl
      · exact absurd (hi.symm.trans (hnew k call hk hrep).1) hj
  onePerPeer := by
    refine World.put_hosts (P := fun _ x => (x.workers.map (Worker.peer _)).Nodup) hone ?_
    intro j _
    rw [World.put_calls, List.map_congr_left fun x hx =>
      Worker.peer_append fun c hxc => h.made j c (hxc ▸ hx)]
    exact h.onePerPeer j

/-- A host moved, and one of the calls was answered or is no longer waited for. -/
theorem set (h : InRound w) (hs : (w.hosts i).Shifts h') {c : ℕ} {call call' : Call}
    (hc : w.calls[c]? = some call) (hsub : h'.workers.Sublist (w.hosts i).workers)
    (hkeep : ∀ c', .waiting c' ∈ (w.hosts i).workers → .waiting c' ∉ h'.workers →
      c' = c ∧ call'.waiting = false)
    (hcall : call'.src = call.src ∧ call'.dst = call.dst ∧ call'.rpc.term = call.rpc.term)
    (hrep : call'.Replicates → call.Replicates) :
    InRound (w.put i h' (w.calls.set c call')) := by
  obtain ⟨hsrc, hdst, hterm⟩ := hcall
  -- a call that is still waited for was waited for before
  have hold : ∀ {k : ℕ} {x : Call}, (w.calls.set c call')[k]? = some x → x.Replicates →
      ∃ y, w.calls[k]? = some y ∧ y.Replicates ∧ x.src = y.src ∧ x.rpc.term = y.rpc.term ∧
        (k = c → x.waiting = call'.waiting) := by
    intro k x hk hx
    rcases Growth.getElem?_set_cases hk with ⟨rfl, rfl⟩ | ⟨hck, hk⟩
    · exact ⟨call, hc, hrep hx, hsrc, hterm, fun _ => rfl⟩
    · exact ⟨x, hk, hx, rfl, rfl, fun heq => absurd heq hck⟩
  have hbusy : h'.workers ≠ [] → (w.hosts i).workers ≠ [] ∨ (w.hosts i).node.state = .leader := by
    intro hne
    obtain ⟨x, hx⟩ := List.exists_mem_of_ne_nil _ hne
    exact Or.inl (List.ne_nil_of_mem (hsub.mem hx))
  refine ⟨?_, ?_, ?_, ?_, ?_⟩
  · exact World.put_hosts (P := fun _ x => x.workers ≠ [] → x.node.state ≠ .candidate)
      (h.noElection_of_shifts hs hbusy) fun j _ => h.noElection j
  · intro k x hk hx
    obtain ⟨y, hy, hyrep, hxsrc, -, hwait⟩ := hold hk hx
    have hmem := h.waits k y hy hyrep
    rw [← hxsrc] at hmem
    refine World.put_hosts (P := fun j x' => x.src = j → .waiting k ∈ x'.workers) ?_ ?_ x.src rfl
    · intro hi
      by_contra hnot
      obtain ⟨rfl, hfalse⟩ := hkeep k (hi ▸ hmem) hnot
      have htrue := hx.1
      rw [hwait rfl, hfalse] at htrue
      cases htrue
    · intro j hj hi
      exact hi ▸ hmem
  · refine World.put_hosts (P := fun _ x => ∀ k, .waiting k ∈ x.workers →
      k < (w.calls.set c call').length) ?_ ?_
    · intro k hk
      rw [List.length_set]
      exact h.made i k (hsub.mem hk)
    · intro j _ k hk
      rw [List.length_set]
      exact h.made j k hk
  · intro k x hk hx
    obtain ⟨y, hy, hyrep, hxsrc, hxterm, -⟩ := hold hk hx
    rw [hxterm]
    refine World.put_hosts (P := fun j x' => x.src = j → x'.node.state = .leader →
      x'.node.currentTerm = y.rpc.term) ?_ ?_ x.src rfl
    · exact fun hi => h.term_of_shifts hs hy hyrep (hxsrc.symm.trans hi)
    · rintro j - rfl
      rw [hxsrc]
      exact h.term k y hy hyrep
  · have hpeer : Worker.peer (w.calls.set c call') = Worker.peer w.calls :=
      funext fun x => Worker.peer_set hc hdst
    refine World.put_hosts (P := fun _ x => (x.workers.map (Worker.peer _)).Nodup) ?_ ?_
    · rw [World.put_calls, hpeer]
      exact (h.onePerPeer i).sublist (hsub.map _)
    · intro j _
      rw [World.put_calls, hpeer]
      exact h.onePerPeer j

/-- A goroutine of the round goes on to its next stage. -/
theorem advance (h : InRound w) (hs : (w.hosts i).Shifts h') {cs : List Call} {x y : Worker}
    (hx : x ∈ (w.hosts i).workers) (hnot : ∀ c, x ≠ .waiting c)
    (hworkers : h'.workers = y :: (w.hosts i).workers.erase x)
    (hpeer : y.peer (w.calls ++ cs) = x.peer (w.calls ++ cs))
    (hmade : ∀ c, y = .waiting c → c < (w.calls ++ cs).length)
    (hnew : ∀ (k : ℕ) (call : Call), cs[k]? = some call → call.Replicates → call.src = i ∧
      .waiting (w.calls.length + k) ∈ h'.workers ∧ h'.node.currentTerm = call.rpc.term) :
    InRound (w.put i h' (w.calls ++ cs)) := by
  refine h.act hs (fun _ => Or.inl (List.ne_nil_of_mem hx)) ?_ ?_ hnew ?_
  · intro c hc
    rw [hworkers]
    exact List.mem_cons_of_mem y ((List.mem_erase_of_ne (hnot c).symm).mpr hc)
  · intro c hc
    rw [hworkers] at hc
    rcases List.mem_cons.mp hc with rfl | hc
    · exact hmade c rfl
    · have := h.made i c (List.mem_of_mem_erase hc)
      rw [List.length_append]
      omega
  · have hperm : (h'.workers.map (Worker.peer (w.calls ++ cs))).Perm
        ((w.hosts i).workers.map (Worker.peer (w.calls ++ cs))) := by
      rw [hworkers, List.map_cons, hpeer, ← List.map_cons]
      exact ((List.perm_cons_erase hx).map _).symm
    refine hperm.nodup_iff.mpr ?_
    rw [List.map_congr_left fun z hz => Worker.peer_append fun c hzc => h.made i c (hzc ▸ hz)]
    exact h.onePerPeer i

/-- A host acted without making calls, and its round goes on or has lost a goroutine. -/
theorem quiet (h : InRound w) (hs : (w.hosts i).Shifts h')
    (hsub : h'.workers.Sublist (w.hosts i).workers)
    (hkeep : ∀ c, .waiting c ∈ (w.hosts i).workers → .waiting c ∈ h'.workers) :
    InRound (w.put i h' (w.calls ++ [])) := by
  refine h.act hs ?_ hkeep ?_ (by simp) ?_
  · intro hne
    obtain ⟨x, hx⟩ := List.exists_mem_of_ne_nil _ hne
    exact Or.inl (List.ne_nil_of_mem (hsub.mem hx))
  · intro c hc
    rw [List.append_nil]
    exact h.made i c (hsub.mem hc)
  · rw [List.append_nil]
    exact (h.onePerPeer i).sublist (hsub.map _)

/-- The call that a goroutine makes in its round. -/
theorem call_new {call : Call} {x : Call → Prop} (hx : x call) (k : ℕ) (call' : Call)
    (hk : [call][k]? = some call') : k = 0 ∧ x call' := by
  rcases k with - | k
  · exact ⟨rfl, Option.some.inj hk ▸ hx⟩
  · simp at hk

theorem acted (h : InRound w) (hcfg : Configured cl w) (hi : i ∈ cl.ids) {a : Action}
    {cs : List Call} (ha : Acted (w.hosts i) w.calls.length a h' cs) :
    InRound (w.put i h' (w.calls ++ cs)) := by
  have hs := Host.Shifts.acted ha
  have hid := hcfg.id i
  cases ha with
  | stand n args hfree hn hq =>
      refine h.act hs (fun hne => absurd hfree.2 hne) (fun _ hc => hc) ?_ ?_ ?_
      · intro c hc
        simp [hfree.2] at hc
      · intro k call hk hrep
        obtain ⟨p, -, rfl⟩ := List.mem_map.mp (List.mem_of_getElem? hk)
        exact absurd hrep.2 (by simp [Rpc.isVote])
      · simp [hfree.2]
  | heartbeat hfree hl =>
      refine h.act hs (fun _ => Or.inr hl) ?_ ?_ (by simp) ?_
      · intro c hc
        simp [hfree.2] at hc
      · intro c hc
        simp at hc
      · have hnodup := (List.nodup_cons.mp (hcfg.members hi).1).2
        rw [List.map_map]
        exact hnodup.map (Option.some_injective _)
  | notLeader peer hw =>
      exact h.quiet hs List.erase_sublist
        fun c hc => (List.mem_erase_of_ne (by simp)).mpr hc
  | needSnapshot peer hw hl =>
      exact h.advance hs hw (by simp) rfl rfl (by simp) (by simp)
  | snapshotNotLeader peer hw =>
      exact h.quiet hs List.erase_sublist
        fun c hc => (List.mem_erase_of_ne (by simp)).mpr hc
  | append _ _ hw | appendCut _ _ _ hw | snapshot _ hw | snapshotCut _ _ hw =>
      refine h.advance hs hw (by simp) rfl (by simp [Worker.peer]) (by simp) ?_
      intro k call hk hrep
      obtain ⟨rfl, hsrc, hterm⟩ := call_new
        (x := fun call => call.src = i ∧ (w.hosts i).node.currentTerm = call.rpc.term)
        ⟨hid, rfl⟩ k call hk
      exact ⟨hsrc, by simp, hterm⟩
  | _ => exact h.quiet hs (List.Sublist.refl _) fun _ hc => hc

theorem step {e : Event} (h : InRound w) (hcfg : Configured cl w)
    (hs : Raft.step cl w e = some w') : InRound w' := by
  have herase : ∀ (ws : List Worker) (c c' : ℕ), .waiting c' ∈ ws →
      .waiting c' ∉ ws.erase (.waiting c) → c' = c := by
    intro ws c c' hmem hnot
    by_contra hne
    exact hnot ((List.mem_erase_of_ne (by simpa using hne)).mpr hmem)
  cases step_moved hs with
  | act i a h' cs hi hact => exact h.acted hcfg hi (Host.act_acted hact)
  | deliver c cut call h' rpc hc hdel =>
      have hd := Host.deliver_delivered hdel
      obtain ⟨hterm, hvote, hw⟩ := hd.request
      refine h.set (.delivered hd) hc (hw ▸ List.Sublist.refl _) ?_ ⟨rfl, rfl, hterm⟩ ?_
      · intro c' hmem hnot
        exact absurd hmem (hw ▸ hnot)
      · exact fun hrep => ⟨hrep.1, hvote.symm.trans hrep.2⟩
  | receive c call h' hc hwait hrec =>
      have hr := Host.receive_received hrec
      refine h.set (.received hr) hc ?_ ?_ ⟨rfl, rfl, rfl⟩ (fun hrep => absurd hrep.1 (by simp))
      · rcases hr.workers with hw | hw
        · exact hw ▸ List.Sublist.refl _
        · exact hw ▸ List.erase_sublist
      · intro c' hmem hnot
        rcases hr.workers with hw | hw
        · exact absurd hmem (hw ▸ hnot)
        · exact ⟨herase _ c c' hmem (hw ▸ hnot), rfl⟩
  | giveUp c call hc hwait =>
      have hsame : (w.hosts call.src).Shifts { w.hosts call.src with
          workers := (w.hosts call.src).workers.erase (.waiting c) } := .of_role rfl
      refine h.set hsame hc List.erase_sublist ?_ ⟨rfl, rfl, rfl⟩
        (fun hrep => absurd hrep.1 (by simp))
      intro c' hmem hnot
      exact ⟨herase _ c c' hmem hnot, rfl⟩

end InRound

theorem Reach.inRound {cl : Cluster} {ok : World → Event → Prop} {w : World}
    (h : Reach cl ok w) : InRound w := by
  have hboth := Path.invariant (I := fun w => Configured cl w ∧ InRound w) h
    ⟨Configured.init cl, InRound.init cl⟩
    fun _ _ _ hi _ hs => ⟨hi.1.step hs, hi.2.step hi.1 hs⟩
  exact hboth.2

/-- The request of a call has been handled. -/
def Rpc.answered : Rpc → Bool
  | .requestVote _ reply => reply.isSome
  | .appendEntries _ reply => reply.isSome
  | .installSnapshot _ reply => reply.isSome

/-- A request is handled once. -/
theorem Delivered.answered {h h' : Host} {cut : Option ℕ} {rpc rpc' : Rpc}
    (hd : Delivered h cut rpc h' rpc') : rpc.answered = false ∧ rpc'.answered = true := by
  cases hd with
  | vote | snapshot | append | appendCut => exact ⟨rfl, rfl⟩

/-- A call keeps its request and its reply. -/
theorem answered_of_path {cl : Cluster} {ok : World → Event → Prop} {w w' : World} {c : ℕ}
    {call : Call} (hp : Path (step cl) ok w w') (hc : w.calls[c]? = some call)
    (hans : call.rpc.answered = true) :
    ∃ waiting, w'.calls[c]? = some { call with waiting := waiting } := by
  refine hp.invariant (I := fun w => ∃ waiting, w.calls[c]? = some { call with waiting := waiting })
    ⟨call.waiting, hc⟩ ?_
  rintro t e t' ⟨waiting, ht⟩ - hs
  have hset : ∀ {k : ℕ} {x x' : Call}, t.calls[k]? = some x →
      (k = c → ∃ waiting', x' = { x with waiting := waiting' }) →
      ∃ waiting', (t.calls.set k x')[c]? = some { call with waiting := waiting' } := by
    intro k x x' hk hx
    by_cases hkc : k = c
    · subst hkc
      obtain ⟨waiting', rfl⟩ := hx rfl
      obtain rfl := Option.some.inj (ht.symm.trans hk)
      rw [List.getElem?_set_self (List.getElem?_eq_some_iff.mp ht).1]
      exact ⟨waiting', rfl⟩
    · rw [List.getElem?_set_ne hkc]
      exact ⟨waiting, ht⟩
  cases step_moved hs with
  | act i a h' cs hi hact =>
      exact ⟨waiting, Growth.getElem?_of_prefix (List.prefix_append _ _) ht⟩
  | deliver k cut x h' rpc hk hdel =>
      refine hset hk ?_
      rintro rfl
      obtain rfl := Option.some.inj (ht.symm.trans hk)
      have hnot := (Host.deliver_delivered hdel).answered.1
      rw [hans] at hnot
      cases hnot
  | receive k x h' hk hwait hrec => exact hset hk fun _ => ⟨false, rfl⟩
  | giveUp k x hk hwait => exact hset hk fun _ => ⟨false, rfl⟩

namespace Node

/-- A reply of a later term changes no replication index. -/
theorem handleAppendReply_later {n : Node} {peer : String} {args : AppendEntriesArgs}
    {reply : AppendEntriesReply} (h : n.currentTerm < reply.term) :
    n.handleAppendReply peer args reply = n.becomeFollower reply.term := by
  rw [handleAppendReply, if_pos h]

theorem handleSnapshotReply_later {n : Node} {peer : String} {args : InstallSnapshotArgs}
    {reply : InstallSnapshotReply} (h : n.currentTerm < reply.term) :
    n.handleSnapshotReply peer args reply = n.becomeFollower reply.term := by
  rw [handleSnapshotReply, if_pos h]

end Node

/-- The term of the reply. -/
def Rpc.replyTerm : Rpc → Option ℕ
  | .requestVote _ reply => reply.map (·.term)
  | .appendEntries _ reply => reply.map (·.term)
  | .installSnapshot _ reply => reply.map (·.term)

theorem Delivered.replyTerm_of_stale {h h' : Host} {cut : Option ℕ} {rpc rpc' : Rpc}
    (hd : Delivered h cut rpc h' rpc') (hstale : rpc.term < h.node.currentTerm) :
    rpc'.replyTerm = some h.node.currentTerm := by
  have happend : ∀ (args : AppendEntriesArgs) (x : Option Intrusion),
      args.term < h.node.currentTerm →
      (h.node.handleAppendEntries args x).2.term = h.node.currentTerm := by
    intro args x hlt
    rw [Node.handleAppendEntries, if_pos hlt]
  cases hd with
  | vote args =>
      simp only [Rpc.term] at hstale
      simp [Rpc.replyTerm, Node.handleRequestVote, hstale]
  | snapshot args =>
      simp only [Rpc.term] at hstale
      simp [Rpc.replyTerm, Node.handleInstallSnapshot, hstale]
  | append args => simp [Rpc.replyTerm, happend args none hstale]
  | appendCut args k d => simp [Rpc.replyTerm, happend args _ hstale]

/-- The replication indices change only by replies that are not of a later term. -/
theorem Received.indices_of_later {h h' : Host} {c : ℕ} {dst : String} {rpc : Rpc} {t : ℕ}
    (hr : Received h c dst rpc h') (hvote : rpc.isVote = false) (ht : rpc.replyTerm = some t)
    (hlt : h.node.currentTerm < t) :
    h'.node.nextIndex = h.node.nextIndex ∧ h'.node.matchIndex = h.node.matchIndex := by
  cases hr with
  | vote => cases hvote
  | append args reply =>
      obtain rfl := Option.some.inj ht
      simp only [Node.handleAppendReply_later hlt]
      exact ⟨rfl, rfl⟩
  | snapshot args reply =>
      obtain rfl := Option.some.inj ht
      simp only [Node.handleSnapshotReply_later hlt]
      exact ⟨rfl, rfl⟩

theorem Received.leader_of_indices {h h' : Host} {c : ℕ} {dst : String} {rpc : Rpc}
    (hr : Received h c dst rpc h') (hvote : rpc.isVote = false)
    (hne : h'.node.nextIndex ≠ h.node.nextIndex ∨ h'.node.matchIndex ≠ h.node.matchIndex) :
    h.node.state = .leader := by
  cases hr with
  | vote => cases hvote
  | append args reply =>
      rcases h.node.handleAppendReply_cases dst args reply with
        ⟨-, heq⟩ | heq | ⟨hl, -⟩ | ⟨hl, -⟩
      · simp [heq, Node.becomeFollower] at hne
      · simp [heq] at hne
      · exact hl
      · exact hl
  | snapshot args reply =>
      rcases h.node.handleSnapshotReply_cases dst args reply with ⟨-, heq⟩ | heq | ⟨hl, -⟩
      · simp [heq, Node.becomeFollower] at hne
      · simp [heq] at hne
      · exact hl

/-- **Replies within one leadership.** When the reply of `replicateTo` or `sendSnapshot`
changes a replication index, the node leads the term of the request that is answered. The
reply to a request that was refused for its term changes none. -/
theorem indices_changed_in_term {cl : Cluster} {w w' : World} {c : ℕ} {call : Call}
    (hw : Reach cl anyStep w) (hc : w.calls[c]? = some call) (hvote : call.rpc.isVote = false)
    (hs : step cl w (.receive c) = some w') :
    ((w'.hosts call.src).node.nextIndex ≠ (w.hosts call.src).node.nextIndex ∨
        (w'.hosts call.src).node.matchIndex ≠ (w.hosts call.src).node.matchIndex →
      (w.hosts call.src).node.state = .leader ∧
        (w.hosts call.src).node.currentTerm = call.rpc.term) ∧
    ∀ (v v' : World) (x : Call) (cut : Option ℕ), v.calls[c]? = some x →
      x.rpc.term < (v.hosts x.dst).node.currentTerm → step cl v (.deliver c cut) = some v' →
      Path (step cl) anyStep v' w →
      (w'.hosts call.src).node.nextIndex = (w.hosts call.src).node.nextIndex ∧
        (w'.hosts call.src).node.matchIndex = (w.hosts call.src).node.matchIndex := by
  cases step_moved hs with
  | receive _ y h' hy hwait hrec =>
      obtain rfl := Option.some.inj (hc.symm.trans hy)
      have hr := Host.receive_received hrec
      rw [World.put_hosts_self]
      have hown : h'.node.nextIndex ≠ (w.hosts call.src).node.nextIndex ∨
          h'.node.matchIndex ≠ (w.hosts call.src).node.matchIndex →
          (w.hosts call.src).node.state = .leader ∧
            (w.hosts call.src).node.currentTerm = call.rpc.term := by
        intro hne
        have hl := hr.leader_of_indices hvote hne
        exact ⟨hl, hw.inRound.term c call hc ⟨hwait, hvote⟩ hl⟩
      refine ⟨hown, ?_⟩
      intro v v' x cut hx hstale hd hp
      cases step_moved hd with
      | deliver _ _ y h₁ rpc hy hdel =>
          obtain rfl := Option.some.inj (hx.symm.trans hy)
          have hdel' := Host.deliver_delivered hdel
          have hreply := hdel'.replyTerm_of_stale hstale
          have hlt := (List.getElem?_eq_some_iff.mp hx).1
          obtain ⟨waiting, hcall⟩ := answered_of_path hp
            (by rw [World.put_calls, List.getElem?_set_self hlt]) hdel'.answered.2
          obtain rfl := Option.some.inj (hc.symm.trans hcall)
          by_contra hne
          rw [not_and_or] at hne
          have hterm := (hown hne).2
          rw [hdel'.request.1] at hterm
          refine absurd (hr.indices_of_later hvote hreply ?_) (not_and_or.mpr hne)
          omega

/-- The reply to a snapshot raises the match index of a peer. -/
theorem indices_changed_in_term_snapshot : ∃ w w' : World,
    (w.hosts "a").node.matchIndex.get "c" = 1 ∧ (w'.hosts "a").node.matchIndex.get "c" = 2 ∧
    (w.hosts "a").node.state = .leader ∧ (w.hosts "a").node.currentTerm = 1 := by
  have hw : Runs trio anyStep (snapshotToC ++ [.deliver 5 none]) := by decide
  have hw' : Runs trio anyStep (snapshotToC ++ [.deliver 5 none] ++ [.receive 5]) := by decide
  have hbefore : ((run trio anyStep (snapshotToC ++ [.deliver 5 none])).hosts
    "a").node.matchIndex.get "c" = 1 := by decide
  have hafter : ((run trio anyStep (snapshotToC ++ [.deliver 5 none] ++ [.receive 5])).hosts
    "a").node.matchIndex.get "c" = 2 := by decide
  refine ⟨_, _, hbefore, hafter, ?_⟩
  have hcall : (run trio anyStep (snapshotToC ++ [.deliver 5 none])).calls[5]? =
      some ⟨"a", "c", .installSnapshot ⟨1, "a", 2, 1⟩ (some ⟨1⟩), true⟩ := by decide
  refine (indices_changed_in_term (Reach.run hw) hcall rfl (final_concat hw').2).1 ?_
  refine Or.inr fun heq => ?_
  have := congrArg (IndexMap.get · "c") heq
  simp only [hbefore] at this
  exact absurd (this.symm.trans hafter) (by decide)

end Raft

end VaultFS

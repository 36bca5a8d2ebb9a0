import VaultFS.Raft.Cluster.Configured

/-!
# Steps as elections see them

Elections depend on little: the role of every node, the shared variables of its
elections, which votes were granted, which of those have been looked at by the
candidate, and which leaders have announced themselves. `Campaign` lists what a
step can do to these, and `step_campaign` shows that every step of a cluster is
one of its cases.

The case to look at is `stepDown`. A node that is not a follower and handles an
AppendEntries request of its own term clears its vote without entering a new
term. `voteMissesStepDown` is the condition on a step that no vote request of a
term reaches a node that stood in that term and stepped down in it.
-/

namespace VaultFS

namespace Raft

section Lists

variable {α : Type*} {l : List α} {n : ℕ} {x y : α} {P : α → Prop}

theorem exists_mem_of_set (h : ∃ z ∈ l.set n y, P z) : (∃ z ∈ l, P z) ∨ P y := by
  obtain ⟨z, hz, hP⟩ := h
  rcases List.mem_or_eq_of_mem_set hz with hold | rfl
  · exact Or.inl ⟨z, hold, hP⟩
  · exact Or.inr hP

theorem mem_set_of_getElem? (hx : l[n]? = some x) : y ∈ l.set n y := by
  obtain ⟨hlt, -⟩ := List.getElem?_eq_some_iff.mp hx
  exact List.mem_set hlt y

theorem exists_mem_set (hx : l[n]? = some x) (hxy : P x → P y) (h : ∃ z ∈ l, P z) :
    ∃ z ∈ l.set n y, P z := by
  obtain ⟨z, hz, hP⟩ := h
  obtain ⟨k, hk⟩ := List.mem_iff_getElem?.mp hz
  by_cases hkn : n = k
  · subst hkn
    obtain rfl : x = z := Option.some.inj (hx.symm.trans hk)
    exact ⟨y, mem_set_of_getElem? hx, hxy hP⟩
  · exact ⟨z, List.mem_iff_getElem?.mpr ⟨k, by rw [List.getElem?_set_ne hkn, hk]⟩, hP⟩

end Lists

namespace Call

/-- The request of this call is for the vote of `v` for `c` in term `U`, and it
was granted. -/
def Granted (call : Call) (v : String) (U : ℕ) (c : String) : Prop :=
  call.dst = v ∧ call.src = c ∧
    ∃ args reply, call.rpc = .requestVote args (some reply) ∧ args.term = U ∧
      reply.voteGranted = true

/-- The candidate, term and voter of a vote request. -/
def ballot (call : Call) : Option (String × ℕ × String) :=
  if call.rpc.isVote then some (call.src, call.rpc.term, call.dst) else none

theorem Granted.ballot {call : Call} {v c : String} {U : ℕ} (h : call.Granted v U c) :
    call.ballot = some (c, U, v) := by
  obtain ⟨rfl, rfl, args, reply, hrpc, rfl, -⟩ := h
  simp [Call.ballot, hrpc, Rpc.isVote, Rpc.term]

end Call

namespace World

def role (w : World) (i : String) : Role := (w.hosts i).node.role

def elections (w : World) (i : String) : ℕ → Option Election := (w.hosts i).elections

def Granted (w : World) (v : String) (U : ℕ) (c : String) : Prop :=
  ∃ call ∈ w.calls, call.Granted v U c

/-- The candidate is no longer waiting for the granted vote. -/
def Counted (w : World) (v : String) (U : ℕ) (c : String) : Prop :=
  ∃ call ∈ w.calls, call.Granted v U c ∧ call.waiting = false

/-- The node has sent a request that only a leader of the term sends. -/
def Announced (w : World) (j : String) (U : ℕ) : Prop :=
  ∃ call ∈ w.calls, call.src = j ∧ call.rpc.term = U ∧ call.rpc.isVote = false

def ballots (w : World) : List (String × ℕ × String) := w.calls.filterMap Call.ballot

theorem put_role (w : World) (i : String) (h : Host) (calls : List Call) :
    (w.put i h calls).role = Function.update w.role i h.node.role := by
  funext j
  by_cases hj : j = i
  · subst hj
    simp [role]
  · simp [role, put_hosts_ne hj, hj]

theorem put_elections (w : World) (i : String) (h : Host) (calls : List Call) :
    (w.put i h calls).elections = Function.update w.elections i h.elections := by
  funext j
  by_cases hj : j = i
  · subst hj
    simp [elections]
  · simp [elections, put_hosts_ne hj, hj]

end World

/-- A vote request of the receiver's term does not find a follower that has stood
in that term. -/
def voteMissesStepDown (w : World) (e : Event) : Prop :=
  ∀ call ∈ w.handled e, ∀ args ∈ call.rpc.voteRequest,
    args.term = (w.hosts call.dst).node.currentTerm →
      (w.hosts call.dst).node.state = .follower →
      (w.hosts call.dst).elections args.term = none

instance (w : World) (e : Event) : Decidable (voteMissesStepDown w e) :=
  inferInstanceAs (Decidable (∀ call ∈ w.handled e, _))

/-- What happens to the calls: the votes `new` are granted and the ballots `bs`
are sent out; what was counted stays counted, and only leaders announce
themselves. -/
structure Kept (w w' : World) (new : String → ℕ → String → Prop)
    (bs : List (String × ℕ × String)) : Prop where
  granted : ∀ v U c, w'.Granted v U c ↔ w.Granted v U c ∨ new v U c
  counted : ∀ v U c, w.Counted v U c → w'.Counted v U c
  announced : ∀ j U, w'.Announced j U → w.Announced j U ∨
    ((w.role j).state = .leader ∧ (w.role j).currentTerm = U)
  ballots : w'.ballots = w.ballots ++ bs

/-- No vote is granted. -/
def noVote (_ : String) (_ : ℕ) (_ : String) : Prop := False

/-- The candidate `i` of term `U` looks at a vote that it has not looked at
before. -/
structure Tallied (w w' : World) (i : String) (U : ℕ) (v : String) : Prop where
  candidate : (w.role i).state = .candidate
  term : (w.role i).currentTerm = U
  granted : w.Granted v U i
  fresh : ¬ w.Counted v U i
  counted : w'.Counted v U i

/-- What a step can do to elections. -/
inductive Campaign (cl : Cluster) (w : World) (e : Event) (w' : World) : Prop where
  | quiet (hrole : w'.role = w.role) (hel : w'.elections = w.elections)
      (hk : Kept w w' noVote [])
  | observe (i : String) (t : ℕ) (hlt : (w.role i).currentTerm < t)
      (hrole : w'.role = Function.update w.role i ⟨t, "", .follower⟩)
      (hel : w'.elections = w.elections) (hk : Kept w w' noVote [])
  | stepDown (i j : String) (hne : i ≠ j)
      (hann : w.Announced j (w.role i).currentTerm) (hstate : (w.role i).state ≠ .follower)
      (hrole : w'.role = Function.update w.role i ⟨(w.role i).currentTerm, "", .follower⟩)
      (hel : w'.elections = w.elections) (hk : Kept w w' noVote [])
  | stand (i : String) (bs : List (String × ℕ × String)) (hi : i ∈ cl.ids)
      (hrole : w'.role =
        Function.update w.role i ⟨(w.role i).currentTerm + 1, i, .candidate⟩)
      (hel : w'.elections = Function.update w.elections i (Function.update (w.elections i)
        ((w.role i).currentTerm + 1) (some ⟨1, false⟩)))
      (hbs : bs.Nodup ∧ ∀ b ∈ bs, b.1 = i ∧ b.2.1 = (w.role i).currentTerm + 1)
      (hk : Kept w w' noVote bs)
  | grant (i c : String) (U : ℕ) (r : Role) (hc : c ∈ cl.ids) (hne : c ≠ i)
      (hr : r = w.role i ∧ r.currentTerm = U ∨
        (w.role i).currentTerm < U ∧ r = ⟨U, "", .follower⟩)
      (hfree : r.votedFor = "" ∨ r.votedFor = c)
      (hmiss : voteMissesStepDown w e → U = (w.role i).currentTerm →
        (w.role i).state = .follower → w.elections i U = none)
      (hrole : w'.role = Function.update w.role i ⟨U, c, r.state⟩)
      (hel : w'.elections = w.elections)
      (hk : Kept w w' (fun v U' c' => v = i ∧ U' = U ∧ c' = c) [])
  | count (i v : String) (U : ℕ) (el : Election) (hold : w.elections i U = some el)
      (ht : Tallied w w' i U v) (hrole : w'.role = w.role)
      (hel : w'.elections = Function.update w.elections i
        (Function.update (w.elections i) U (some ⟨el.votes + 1, el.once⟩)))
      (hk : Kept w w' noVote [])
  | win (i v : String) (U : ℕ) (el : Election) (hi : i ∈ cl.ids)
      (hold : w.elections i U = some el) (ht : Tallied w w' i U v)
      (hq : cl.size / 2 + 1 ≤ el.votes + 1)
      (hrole : w'.role = Function.update w.role i ⟨U, (w.role i).votedFor, .leader⟩)
      (hel : w'.elections = Function.update w.elections i
        (Function.update (w.elections i) U (some ⟨el.votes + 1, true⟩)))
      (hk : Kept w w' noVote [])
  | winAlone (i : String) (U : ℕ) (el : Election) (hi : i ∈ cl.ids)
      (hold : w.elections i U = some el) (hcand : (w.role i).state = .candidate)
      (ht : (w.role i).currentTerm = U) (hq : cl.size / 2 + 1 ≤ 1)
      (hrole : w'.role = Function.update w.role i ⟨U, (w.role i).votedFor, .leader⟩)
      (hel : w'.elections = Function.update w.elections i
        (Function.update (w.elections i) U (some ⟨el.votes, true⟩)))
      (hk : Kept w w' noVote [])

namespace Kept

variable {w : World} {i : String} {h : Host}

/-- The host makes calls that are not yet answered; those that are not vote
requests come from a leader. -/
theorem append {cs : List Call} {bs : List (String × ℕ × String)}
    (hnew : ∀ call ∈ cs, ∀ v U c, ¬ call.Granted v U c)
    (hlead : ∀ call ∈ cs, call.rpc.isVote = false →
      (w.role call.src).state = .leader ∧ (w.role call.src).currentTerm = call.rpc.term)
    (hbs : cs.filterMap Call.ballot = bs) :
    Kept w (w.put i h (w.calls ++ cs)) noVote bs where
  granted v U c := by
    constructor
    · rintro ⟨call, hcall, hg⟩
      rcases List.mem_append.mp hcall with hold | hcs
      · exact Or.inl ⟨call, hold, hg⟩
      · exact absurd hg (hnew call hcs v U c)
    · rintro (⟨call, hcall, hg⟩ | hno)
      · exact ⟨call, List.mem_append_left cs hcall, hg⟩
      · exact hno.elim
  counted v U c := by
    rintro ⟨call, hcall, hg⟩
    exact ⟨call, List.mem_append_left cs hcall, hg⟩
  announced j U := by
    rintro ⟨call, hcall, rfl, rfl, hv⟩
    rcases List.mem_append.mp hcall with hold | hcs
    · exact Or.inl ⟨call, hold, rfl, rfl, hv⟩
    · exact Or.inr (hlead call hcs hv)
  ballots := by
    rw [← hbs]
    exact List.filterMap_append

theorem nothing (w : World) (i : String) (h : Host) :
    Kept w (w.put i h (w.calls ++ [])) noVote [] :=
  append (by simp) (by simp) rfl

variable {n : ℕ} {call call' : Call}

theorem filterMap_set (hc : w.calls[n]? = some call) (hb : call'.ballot = call.ballot) :
    (w.calls.set n call').filterMap Call.ballot = w.calls.filterMap Call.ballot := by
  obtain ⟨hlt, rfl⟩ := List.getElem?_eq_some_iff.mp hc
  have hmap : (w.calls.set n call').map Call.ballot = w.calls.map Call.ballot := by
    apply List.ext_getElem?
    intro k
    by_cases hk : n = k
    · subst hk
      simp [hlt, hb]
    · simp [List.getElem?_set_ne hk]
  have hid : ∀ l : List Call, l.filterMap Call.ballot = (l.map Call.ballot).filterMap id := by
    intro l
    rw [List.filterMap_map]
    rfl
  rw [hid, hid, hmap]

/-- One call changes its reply, or its caller stops waiting. -/
theorem set {new : String → ℕ → String → Prop} (hc : w.calls[n]? = some call)
    (hsrc : call'.src = call.src) (hdst : call'.dst = call.dst)
    (hterm : call'.rpc.term = call.rpc.term) (hvote : call'.rpc.isVote = call.rpc.isVote)
    (hg : ∀ v U c, call'.Granted v U c ↔ call.Granted v U c ∨ new v U c)
    (hwait : call.waiting = false → call'.waiting = false) :
    Kept w (w.put i h (w.calls.set n call')) new [] where
  granted v U c := by
    constructor
    · intro hex
      rcases exists_mem_of_set hex with hold | hnew
      · exact Or.inl hold
      · exact ((hg v U c).mp hnew).imp (fun h => ⟨call, List.mem_of_getElem? hc, h⟩) id
    · rintro (hold | hnew)
      · exact exists_mem_set hc (fun h => (hg v U c).mpr (Or.inl h)) hold
      · exact ⟨call', mem_set_of_getElem? hc, (hg v U c).mpr (Or.inr hnew)⟩
  counted v U c hold :=
    exists_mem_set hc (fun hx => ⟨(hg v U c).mpr (Or.inl hx.1), hwait hx.2⟩) hold
  announced j U hex := by
    rcases exists_mem_of_set hex with hold | ⟨rfl, rfl, hv⟩
    · exact Or.inl hold
    · exact Or.inl ⟨call, List.mem_of_getElem? hc, hsrc.symm, hterm.symm, hvote ▸ hv⟩
  ballots := by
    rw [List.append_nil]
    exact filterMap_set hc (by simp [Call.ballot, hsrc, hdst, hterm, hvote])

/-- The caller stops waiting. -/
theorem stop (hc : w.calls[n]? = some call) :
    Kept w (w.put i h (w.calls.set n { call with waiting := false })) noVote [] :=
  set hc rfl rfl rfl rfl (fun _ _ _ => (iff_of_eq (or_false _)).symm) fun _ => rfl

/-- A request that is not granted is answered. -/
theorem answer {rpc : Rpc} (hc : w.calls[n]? = some call)
    (hterm : rpc.term = call.rpc.term) (hvote : rpc.isVote = call.rpc.isVote)
    (hold : ∀ v U c, ¬ call.Granted v U c)
    (hnew : ∀ v U c, ¬ ({ call with rpc := rpc } : Call).Granted v U c) :
    Kept w (w.put i h (w.calls.set n { call with rpc := rpc })) noVote [] :=
  set hc rfl rfl hterm hvote
    (fun v U c => iff_of_false (hnew v U c) (not_or.mpr ⟨hold v U c, not_false⟩)) fun hw => hw

end Kept

theorem Call.not_granted_of_none {call : Call} {args : RequestVoteArgs}
    (h : call.rpc = .requestVote args none) (v : String) (U : ℕ) (c : String) :
    ¬ call.Granted v U c := by
  rintro ⟨-, -, args', reply, hrpc, -⟩
  rw [h] at hrpc
  cases hrpc

theorem Call.not_granted_of_not_vote {call : Call} (h : call.rpc.isVote = false)
    (v : String) (U : ℕ) (c : String) : ¬ call.Granted v U c := by
  rintro ⟨-, -, args', reply, hrpc, -⟩
  rw [hrpc] at h
  cases h

/-- A leader makes one request. -/
theorem Kept.request {w : World} {i : String} {h : Host} {call : Call}
    (hvote : call.rpc.isVote = false)
    (hlead : (w.role call.src).state = .leader)
    (hterm : (w.role call.src).currentTerm = call.rpc.term) :
    Kept w (w.put i h (w.calls ++ [call])) noVote [] := by
  refine .append ?_ ?_ (by simp [Call.ballot, hvote])
  · intro x hx
    rw [List.mem_singleton.mp hx]
    exact Call.not_granted_of_not_vote hvote
  · intro x hx _
    rw [List.mem_singleton.mp hx]
    exact ⟨hlead, hterm⟩

section Connection

variable {cl : Cluster} {w w' : World} {e : Event}

/-- A step that leaves the role and the elections of the host alone. -/
theorem Campaign.of_same {i : String} {h : Host} {calls : List Call}
    (hr : h.node.role = w.role i) (hel : h.elections = w.elections i)
    (hk : Kept w (w.put i h calls) noVote []) : Campaign cl w e (w.put i h calls) :=
  .quiet (by rw [World.put_role, hr, Function.update_eq_self])
    (by rw [World.put_elections, hel, Function.update_eq_self]) hk

/-- A step that at most moves the host to a later term. -/
theorem Campaign.of_observe {i : String} {h : Host} {calls : List Call}
    (hr : h.node.role = w.role i ∨
      ∃ t, (w.role i).currentTerm < t ∧ h.node.role = ⟨t, "", .follower⟩)
    (hel : h.elections = w.elections i)
    (hk : Kept w (w.put i h calls) noVote []) : Campaign cl w e (w.put i h calls) := by
  rcases hr with hsame | ⟨t, hlt, hrole⟩
  · exact .of_same hsame hel hk
  · exact .observe i t hlt (by rw [World.put_role, hrole])
      (by rw [World.put_elections, hel, Function.update_eq_self]) hk

theorem Node.observe_role (n : Node) (t : ℕ) :
    (n.observe t).role = n.role ∨
      (n.currentTerm < t ∧ (n.observe t).role = ⟨t, "", .follower⟩) := by
  unfold Node.observe
  split
  · rename_i hlt
    exact Or.inr ⟨hlt, rfl⟩
  · exact Or.inl rfl

theorem electionQuorum_eq (hcfg : Configured cl w) {i : String} (hi : i ∈ cl.ids) :
    (w.hosts i).node.electionQuorum = cl.size / 2 + 1 := by
  rw [Node.electionQuorum, hcfg.peers i, Configured.length_peers hi]

theorem campaign_acted (hcfg : Configured cl w) {i : String} {a : Action} {h : Host}
    {cs : List Call} (hi : i ∈ cl.ids) (ha : Acted (w.hosts i) w.calls.length a h cs) :
    Campaign cl w e (w.put i h (w.calls ++ cs)) := by
  have hid : (w.hosts i).node.id = i := hcfg.id i
  cases ha with
  | stand n args hfree hn hq =>
      obtain ⟨hl, rfl, rfl⟩ := Node.maybeStartElection_some hn
      refine .stand i ((cl.peers i).map fun p => (i, (w.role i).currentTerm + 1, p)) hi
        (by simp [World.put_role, World.role, Node.role, hid])
        (by simp [World.put_elections, World.elections, World.role, Node.role]) ⟨?_, ?_⟩ ?_
      · have hnodup : (cl.peers i).Nodup :=
          (cl.peers_perm i hi).nodup_iff.mpr (cl.nodup.erase i)
        exact hnodup.map fun p q hpq => by simpa using hpq
      · intro b hb
        obtain ⟨p, -, rfl⟩ := List.mem_map.mp hb
        exact ⟨rfl, rfl⟩
      · refine Kept.append ?_ ?_ ?_
        · intro call hcall
          obtain ⟨p, -, rfl⟩ := List.mem_map.mp hcall
          exact Call.not_granted_of_none rfl
        · intro call hcall hv
          obtain ⟨p, -, rfl⟩ := List.mem_map.mp hcall
          cases hv
        · rw [List.filterMap_map, ← hcfg.peers i, ← hid]
          simp [Function.comp_def, Call.ballot, Rpc.isVote, Rpc.term, World.role, hid, Node.role]
  | standAlone n args hfree hn hq =>
      obtain ⟨hl, rfl, rfl⟩ := Node.maybeStartElection_some hn
      exact .stand i [] hi (by simp [World.put_role, World.role, Node.role, hid])
        (by simp [World.put_elections, World.elections, World.role, Node.role])
        ⟨List.nodup_nil, by simp⟩ (Kept.nothing w i _)
  | winAlone term el he hel =>
      unfold Node.winAlone
      split
      · rename_i hc
        unfold Node.onceBecomeLeader
        split
        · rename_i honce
          refine .of_same rfl ?_ (Kept.nothing w i _)
          have heq : ({ el with once := true } : Election) = el := by
            cases el
            simp_all
          simp [heq, ← hel, World.elections]
        · refine .winAlone i term el hi hel hc.1 hc.2 ?_ ?_ ?_ (Kept.nothing w i _)
          · rw [← electionQuorum_eq hcfg hi]
            exact hcfg.alone i (by simp [he])
          · rw [World.put_role, ← hc.2]
            exact congrArg _ (Node.becomeLeader_role _ hc.1)
          · rw [World.put_elections]
            rfl
      · refine .of_same rfl ?_ (Kept.nothing w i _)
        simp [← hel, World.elections]
  | propose command n hn =>
      obtain ⟨-, rfl⟩ := Node.propose_ok hn
      exact .of_same (Node.advanceCommitIndex_role _) rfl (Kept.nothing w i _)
  | append _ _ _ hl | appendCut _ _ _ _ hl =>
      refine .of_same rfl rfl (Kept.request rfl ?_ ?_)
      · simp [hid, World.role, Node.role, hl]
      · simp [hid, World.role, Node.role, Rpc.term, Node.appendArgs]
  | snapshot _ _ hl | snapshotCut _ _ _ hl =>
      refine .of_same rfl rfl (Kept.request rfl ?_ ?_)
      · simp [hid, World.role, Node.role, hl]
      · simp [hid, World.role, Node.role, Rpc.term, Node.snapshotArgs]
  | _ => exact .of_same rfl rfl (Kept.nothing w i _)

/-- The role after handling an AppendEntries request. -/
theorem Node.handleAppendEntries_role (n : Node) (args : AppendEntriesArgs)
    (x : Option Intrusion) :
    (n.handleAppendEntries args x).1.role = n.role ∨
    (n.currentTerm < args.term ∧
      (n.handleAppendEntries args x).1.role = ⟨args.term, "", .follower⟩) ∨
    (n.currentTerm = args.term ∧ n.state ≠ .follower ∧
      (n.handleAppendEntries args x).1.role = ⟨n.currentTerm, "", .follower⟩) := by
  have haccept : ∀ {n' : Node}, n.currentTerm ≤ args.term →
      n'.role = (n.acceptLeader args.term args.leaderID).role →
      n'.role = n.role ∨ (n.currentTerm < args.term ∧ n'.role = ⟨args.term, "", .follower⟩) ∨
        (n.currentTerm = args.term ∧ n.state ≠ .follower ∧
          n'.role = ⟨n.currentTerm, "", .follower⟩) := by
    intro n' hle hr
    rw [hr]
    rcases Node.acceptLeader_role args.leaderID hle with ⟨-, -, hsame⟩ | ⟨hch, hnew⟩
    · exact Or.inl hsame
    · rcases hle.eq_or_lt with heq | hlt
      · refine Or.inr (Or.inr ⟨heq, hch.resolve_left (by omega), ?_⟩)
        rw [hnew, heq]
      · exact Or.inr (Or.inl ⟨hlt, hnew⟩)
  rcases n.handleAppendEntries_cases args x with ⟨-, h⟩ | ⟨hle, t, -, h⟩ | ⟨hle, -, h⟩
  · rw [h]
    exact Or.inl rfl
  · rw [h]
    exact haccept hle rfl
  · rw [h]
    exact haccept hle (Node.followCommit_role _ _)

theorem campaign_append (hcfg : Configured cl w) {c : ℕ} {cut : Option ℕ} {src dst : String}
    {args : AppendEntriesArgs} {waiting : Bool} {h : Host} {x : Option Intrusion}
    {reply : AppendEntriesReply}
    (hc : w.calls[c]? = some ⟨src, dst, .appendEntries args none, waiting⟩)
    (hn : h.node = ((w.hosts dst).node.handleAppendEntries args x).1)
    (hel : h.elections = w.elections dst) :
    Campaign cl w (.deliver c cut) (w.put dst h (w.calls.set c
      ⟨src, dst, .appendEntries args (some reply), waiting⟩)) := by
  have hmem := List.mem_of_getElem? hc
  have hk : Kept w (w.put dst h (w.calls.set c
      ⟨src, dst, .appendEntries args (some reply), waiting⟩)) noVote [] :=
    Kept.answer hc rfl rfl (Call.not_granted_of_not_vote rfl) (Call.not_granted_of_not_vote rfl)
  rcases (w.hosts dst).node.handleAppendEntries_role args x with
    hr | ⟨hlt, hr⟩ | ⟨heq, hs, hr⟩
  · exact .of_same (by rw [hn, hr]; rfl) hel hk
  · exact .of_observe (Or.inr ⟨args.term, hlt, by rw [hn, hr]⟩) hel hk
  · refine .stepDown dst src (hcfg.dst hmem).2 ?_ hs ?_ ?_ hk
    · exact ⟨_, hmem, rfl, heq.symm, rfl⟩
    · rw [World.put_role, hn, hr]
      rfl
    · rw [World.put_elections, hel, Function.update_eq_self]

theorem campaign_delivered (hcfg : Configured cl w) {c : ℕ} {cut : Option ℕ} {call : Call}
    {h : Host} {rpc : Rpc} (hc : w.calls[c]? = some call)
    (hd : Delivered (w.hosts call.dst) cut call.rpc h rpc) :
    Campaign cl w (.deliver c cut)
      (w.put call.dst h (w.calls.set c { call with rpc := rpc })) := by
  obtain ⟨src, dst, request, waiting⟩ := call
  have hmem := List.mem_of_getElem? hc
  obtain ⟨hsrc, -, hsend⟩ := hcfg.call _ hmem
  have hne := (hcfg.dst hmem).2
  simp only at hd hsrc hsend hne
  cases hd with
  | vote args =>
      have hnone : ∀ v U c, ¬ (⟨src, dst, .requestVote args none, waiting⟩ : Call).Granted v U c :=
        Call.not_granted_of_none rfl
      have hrefused : ∀ (t : ℕ) v U c, ¬ (⟨src, dst, .requestVote args (some ⟨t, false⟩),
          waiting⟩ : Call).Granted v U c := by
        rintro t v U c ⟨-, -, args', reply, hrpc, -, hg⟩
        simp only [Rpc.requestVote.injEq, Option.some.injEq] at hrpc
        simp [← hrpc.2] at hg
      rcases (w.hosts dst).node.handleRequestVote_cases args with
        ⟨-, hr⟩ | ⟨hle, hr⟩ | ⟨hle, hfree, -, hr⟩
      · rw [hr]
        exact .of_same rfl rfl (Kept.answer hc rfl rfl hnone (hrefused _))
      · rw [hr]
        refine .of_observe ?_ rfl (Kept.answer hc rfl rfl hnone (hrefused _))
        exact (Node.observe_role _ args.term).imp_right fun h => ⟨args.term, h⟩
      · rw [hr]
        have hcand : args.candidateID = src := hsend
        have hterm : ((w.hosts dst).node.observe args.term).currentTerm = args.term :=
          Node.observe_currentTerm hle
        refine .grant dst src args.term ((w.hosts dst).node.observe args.term).role hsrc
          hne.symm ?_ (hcand ▸ hfree) (fun hmiss => hmiss _ hc args rfl) ?_ ?_ ?_
        · rcases Node.observe_role (w.hosts dst).node args.term with hsame | ⟨hlt, hnew⟩
          · exact Or.inl ⟨hsame, hterm⟩
          · exact Or.inr ⟨hlt, hnew⟩
        · simp [World.put_role, Node.role, hterm, hcand]
        · simp [World.put_elections, World.elections]
        · refine Kept.set hc rfl rfl rfl rfl ?_ fun hw => hw
          intro v U c'
          constructor
          · rintro ⟨rfl, rfl, args', reply, hrpc, rfl, -⟩
            simp only [Rpc.requestVote.injEq] at hrpc
            exact Or.inr ⟨rfl, by rw [hrpc.1], rfl⟩
          · rintro (hold | ⟨rfl, rfl, rfl⟩)
            · exact absurd hold (hnone v U c')
            · exact ⟨rfl, rfl, args, _, rfl, rfl, rfl⟩
  | snapshot args =>
      refine .of_observe ?_ rfl (Kept.answer hc rfl rfl (Call.not_granted_of_not_vote rfl)
        (Call.not_granted_of_not_vote rfl))
      rcases (w.hosts dst).node.handleInstallSnapshot_cases args with
        ⟨-, hr⟩ | ⟨-, -, hr⟩ | ⟨-, -, hr⟩
      · rw [hr]
        exact Or.inl rfl
      · rw [hr]
        exact (Node.observe_role _ args.term).imp_right fun h => ⟨args.term, h⟩
      · rw [hr]
        exact (Node.observe_role _ args.term).imp_right fun h => ⟨args.term, h⟩
  | append args => exact campaign_append hcfg hc rfl rfl
  | appendCut args k d ha hs => exact campaign_append hcfg hc rfl rfl

theorem Node.handleAppendReply_role (n : Node) (peer : String) (args : AppendEntriesArgs)
    (reply : AppendEntriesReply) :
    (n.handleAppendReply peer args reply).role = n.role ∨
      ∃ t, n.currentTerm < t ∧ (n.handleAppendReply peer args reply).role = ⟨t, "", .follower⟩ := by
  rcases n.handleAppendReply_cases peer args reply with
    ⟨hlt, h⟩ | h | ⟨-, -, -, m, x, h, -⟩ | ⟨-, -, -, x, h, -⟩
  · exact Or.inr ⟨reply.term, hlt, by rw [h]; rfl⟩
  · exact Or.inl (by rw [h])
  · exact Or.inl (by rw [h, Node.advanceCommitIndex_role]; rfl)
  · exact Or.inl (by rw [h]; rfl)

theorem Node.handleSnapshotReply_role (n : Node) (peer : String) (args : InstallSnapshotArgs)
    (reply : InstallSnapshotReply) :
    (n.handleSnapshotReply peer args reply).role = n.role ∨
      ∃ t, n.currentTerm < t ∧
        (n.handleSnapshotReply peer args reply).role = ⟨t, "", .follower⟩ := by
  rcases n.handleSnapshotReply_cases peer args reply with ⟨hlt, h⟩ | h | ⟨-, m, h, -⟩
  · exact Or.inr ⟨reply.term, hlt, by rw [h]; rfl⟩
  · exact Or.inl (by rw [h])
  · exact Or.inl (by rw [h]; rfl)

/-- Two calls with the same ballot are the same call. -/
theorem call_eq_of_ballot (hb : w.ballots.Nodup) {call call' : Call} (hc : call ∈ w.calls)
    (hc' : call' ∈ w.calls) {b : String × ℕ × String} (h : call.ballot = some b)
    (h' : call'.ballot = some b) : call = call' := by
  by_contra hne
  have hpw := List.pairwise_filterMap.mp hb
  have hsymm : Std.Symm fun x y : Call =>
      ∀ b, x.ballot = some b → ∀ b', y.ballot = some b' → b ≠ b' :=
    ⟨fun x y hxy b hb b' hb' heq => hxy b' hb' b hb heq.symm⟩
  exact hpw.forall hc hc' hne b h b h' rfl

theorem campaign_received (hcfg : Configured cl w) (hb : w.ballots.Nodup) {c : ℕ} {call : Call}
    {h : Host} (hc : w.calls[c]? = some call) (hw : call.waiting = true)
    (hr : Received (w.hosts call.src) c call.dst call.rpc h) :
    Campaign cl w e (w.put call.src h (w.calls.set c { call with waiting := false })) := by
  obtain ⟨src, dst, rpc, waiting⟩ := call
  have hmem := List.mem_of_getElem? hc
  obtain ⟨hsrc, -, -⟩ := hcfg.call _ hmem
  simp only at hr hsrc hw
  subst hw
  cases hr with
  | append args reply =>
      exact .of_observe (Node.handleAppendReply_role _ _ _ _) rfl (Kept.stop hc)
  | snapshot args reply =>
      exact .of_observe (Node.handleSnapshotReply_role _ _ _ _) rfl (Kept.stop hc)
  | vote args reply el hel =>
      have htally : reply.voteGranted = true → (w.hosts src).node.state = .candidate →
          (w.hosts src).node.currentTerm = args.term → ∀ h' : Host,
          Tallied w (w.put src h' (w.calls.set c
            ⟨src, dst, .requestVote args (some reply), false⟩)) src args.term dst := by
        intro hg hs ht h'
        have hgranted : (⟨src, dst, .requestVote args (some reply), true⟩ : Call).Granted
            dst args.term src := ⟨rfl, rfl, args, reply, rfl, rfl, hg⟩
        refine ⟨hs, ht, ⟨_, hmem, hgranted⟩, ?_, ?_⟩
        · rintro ⟨call, hcall, hcg, hcw⟩
          have := call_eq_of_ballot hb hcall hmem hcg.ballot hgranted.ballot
          subst this
          cases hcw
        · exact ⟨_, mem_set_of_getElem? hc, ⟨rfl, rfl, args, reply, rfl, rfl, hg⟩, rfl⟩
      rcases (w.hosts src).node.countVote_cases el args.term reply with
        ⟨hlt, hr⟩ | hr | ⟨hg, hs, ht, hr⟩ | ⟨hg, hs, ht, hq, hr⟩
      · rw [hr]
        refine .of_observe (Or.inr ⟨reply.term, hlt, rfl⟩) ?_ (Kept.stop hc)
        simp [← hel, World.elections]
      · rw [hr]
        refine .of_same rfl ?_ (Kept.stop hc)
        simp [← hel, World.elections]
      · rw [hr]
        refine .count src dst args.term el hel (htally hg hs ht _) ?_ ?_ (Kept.stop hc)
        · rw [World.put_role]
          exact Function.update_eq_self src w.role
        · rw [World.put_elections]
          rfl
      · rw [hr]
        unfold Node.onceBecomeLeader
        split
        · rename_i honce
          refine .count src dst args.term el hel (htally hg hs ht _) ?_ ?_ (Kept.stop hc)
          · rw [World.put_role]
            exact Function.update_eq_self src w.role
          · rw [World.put_elections]
            simp [World.elections, show el.once = true from honce]
        · rename_i honce
          rw [electionQuorum_eq hcfg hsrc] at hq
          refine .win src dst args.term el hsrc hel (htally hg hs ht _) hq ?_ ?_ (Kept.stop hc)
          · rw [World.put_role, ← ht]
            exact congrArg _ (Node.becomeLeader_role _ hs)
          · rw [World.put_elections]
            rfl

theorem step_campaign (hcfg : Configured cl w) (hb : w.ballots.Nodup)
    (hs : step cl w e = some w') : Campaign cl w e w' := by
  cases step_moved hs with
  | act i a h cs hi hact => exact campaign_acted hcfg hi (Host.act_acted hact)
  | deliver c cut call h rpc hc hdel =>
      exact campaign_delivered hcfg hc (Host.deliver_delivered hdel)
  | receive c call h hc hw hrec =>
      exact campaign_received hcfg hb hc hw (Host.receive_received hrec)
  | giveUp c call hc hw => exact .of_same rfl rfl (Kept.stop hc)

end Connection

end Raft

end VaultFS

import VaultFS.Raft.Cluster.ElectionSafety
import VaultFS.Raft.Cluster.LogIndex
import VaultFS.Raft.Log.Represents
import VaultFS.Raft.Node.Quorum
import VaultFS.ReplicatedLog.Preserve

/-!
# How a cluster represents the replicated log

`Sim cl w sh a` relates a world to a state of the abstract protocol. The log of a
node in the abstract state is its *full* log, as if it had never been compacted.
Full logs are not stored anywhere in the source, so they are recorded next to a
run in a `Shadow`, together with the full log that the sender had at each call.

The relation is about one node (`HostSim`), about one call (`CallSim`), or about
elections. Facts about calls only speak about the history of the abstract state,
which never shrinks, so a delayed message stays related to it by itself.
-/

namespace VaultFS

namespace Raft

open ReplicatedLog

/-- Elections are won by `N/2 + 1` votes, and commits need `(N+1)/2` nodes. -/
def quorums (cl : Cluster) : Quorums String where
  elect := cl.Winning
  commit Q := Q ⊆ cl.ids.toFinset ∧ (cl.size + 1) / 2 ≤ Q.card
  meet V Q hV hQ := by
    have hcard : cl.ids.toFinset.card = cl.size := List.toFinset_card_of_nodup cl.nodup
    obtain ⟨v, hv⟩ := Finset.inter_nonempty_of_card_lt_card_add_card hV.1 hQ.1 (by
      have := hV.2
      have := hQ.2
      omega)
    exact ⟨v, Finset.mem_inter.mp hv⟩

/-- The full log of every node, and the full log of the sender for every call. -/
structure Shadow where
  full : String → List Entry
  sent : List (List Entry)

namespace Shadow

def init : Shadow := ⟨fun _ => [], []⟩

/-- Where a node has its compacted entries from: its own full log, or that of the
sender when it installs a snapshot. -/
def source (sh : Shadow) (w w' : World) (e : Event) (j : String) : List Entry :=
  match e with
  | .deliver c _ =>
      match w.calls[c]? with
      | some ⟨_, dst, .installSnapshot _ none, _⟩ =>
          if dst = j ∧ (w.hosts j).node.log.snapIndex < (w'.hosts j).node.log.snapIndex then
            (sh.sent[c]?).getD []
          else sh.full j
      | _ => sh.full j
  | _ => sh.full j

/-- The full logs after a step. -/
def nextFull (sh : Shadow) (w w' : World) (e : Event) (j : String) : List Entry :=
  (sh.source w w' e j).take (w'.hosts j).node.log.snapIndex ++ (w'.hosts j).node.log.entries

/-- The shadow after a step: new calls are recorded with the full log of the node
that acted. -/
def next (sh : Shadow) (w w' : World) (e : Event) : Shadow where
  full := sh.nextFull w w' e
  sent := match e with
    | .act i _ =>
        sh.sent ++ List.replicate (w'.calls.length - w.calls.length) (sh.nextFull w w' e i)
    | _ => sh.sent

end Shadow

/-- The entry is committed at its index. -/
def ChosenAt (a : State String Entry) (e : Entry) : Prop :=
  0 < e.index ∧ a.Chosen (e.index - 1) e

/-- What a match index `m` for the node `p` stands for: of the entries that the
leader of `T` created up to `m`, each one is acknowledged by `p` or committed. -/
def Matched (a : State String Entry) (p : String) (T m : ℕ) : Prop :=
  ∃ L, a.lead T = some L ∧ m ≤ L.length ∧
    ∀ n ≤ m, termAt L n = some T → a.ack p T n ∨ ∃ n', n ≤ n' ∧ a.committed T n'

/-- What the apply loop of the node `i` works on is committed. -/
def Applying (a : State String Entry) (i : String) (F : List Entry) (term commitIndex : ℕ) :
    ApplyLoop → Prop
  | .idle => True
  | .read _ commit => commit ≤ commitIndex
  | .batch es => ∀ e ∈ es, ChosenAt a e ∧ e.index ≤ commitIndex
  | .sent e es => ∀ e' ∈ e :: es, ChosenAt a e' ∧ e'.index ≤ commitIndex
  | .oversized => True
  | .compact c => c.index ≤ commitIndex ∧ a.Noted i F c.index c.term term

/-- How one node represents its part of the abstract state. -/
structure HostSim (a : State String Entry) (i : String) (h : Host) : Prop where
  term : a.term i = h.node.currentTerm
  represents : Represents (a.log i) h.node.log
  noted : a.Noted i (a.log i) h.node.log.snapIndex h.node.log.snapTerm h.node.currentTerm
  floor_le : a.floor i ≤ h.node.log.snapIndex
  committed : a.CommittedUpTo (a.log i) h.node.commitIndex h.node.currentTerm
  commit_le : h.node.commitIndex ≤ (a.log i).length
  snap_le : h.node.log.snapIndex ≤ h.node.commitIndex
  applied_le : h.node.lastApplied ≤ h.node.commitIndex
  applying : Applying a i (a.log i) h.node.currentTerm h.node.commitIndex h.applyLoop
  delivered : ∀ e ∈ h.delivered, ChosenAt a e
  candidate : h.node.state = .candidate → a.lead h.node.currentTerm = none →
    ∃ t, a.cand i h.node.currentTerm = some (a.log i, t)
  leader : h.node.state = .leader → a.lead h.node.currentTerm = some (a.log i)
  tracking : h.node.state = .leader →
    h.node.members.Nodup ∧ h.node.matchIndex.keys.Perm h.node.members
  own : h.node.state = .leader → h.node.matchIndex.get h.node.id = (a.log i).length
  matched : h.node.state = .leader → ∀ p ∈ h.node.members,
    Matched a p h.node.currentTerm (h.node.matchIndex.get p)

/-- The log is a beginning of the log of the leader of `U`. -/
def SentBy (a : State String Entry) (F : List Entry) (U : ℕ) : Prop :=
  Consecutive 1 F ∧ ∃ L, a.lead U = some L ∧ F <+: L

/-- What a call from `src` to `dst` says about the history, when its sender had the
full log `F`. A request to append entries carries all of `F` behind the previous
index. A term that is given for an index may be a later one (`State.Stamped`), for the
previous index only if the sender has taken over a snapshot (`State.Noted`). -/
def CallSim (a : State String Entry) (src dst : String) (F : List Entry) : Rpc → Prop
  | .requestVote args _ =>
      a.cand src args.term = some (F, args.lastLogTerm) ∧ args.lastLogIndex = F.length
  | .appendEntries args reply =>
      SentBy a F args.term ∧ a.Noted src F args.prevLogIndex args.prevLogTerm args.term ∧
        args.entries = F.drop args.prevLogIndex ∧ args.leaderCommit ≤ F.length ∧
        a.CommittedUpTo F args.leaderCommit args.term ∧
        ∀ r ∈ reply, r.success = true → Matched a dst args.term F.length
  | .installSnapshot args _ =>
      SentBy a F args.term ∧
        a.Stamped F args.lastIncludedIndex args.lastIncludedTerm args.term ∧
        a.CommittedUpTo F args.lastIncludedIndex args.term

/-- How elections and votes appear in the history. A vote that is granted when the
term already has a leader decides nothing and is left out. -/
structure ElectionSim (w : World) (a : State String Entry) : Prop where
  led : ∀ U, a.lead U ≠ none ↔ ∃ j, w.Led j U
  granted : ∀ v U c, w.Granted v U c → a.voted v U c ∨ a.lead U ≠ none
  stood : ∀ i U, w.elections i U ≠ none → a.voted i U i

structure Sim (cl : Cluster) (w : World) (sh : Shadow) (a : State String Entry) : Prop where
  reachable : Reachable (quorums cl) a
  host : ∀ i, HostSim a i (w.hosts i)
  full : ∀ i, sh.full i = a.log i
  sent : sh.sent.length = w.calls.length
  call : ∀ (c : ℕ) (call : Call) (F : List Entry), w.calls[c]? = some call →
    sh.sent[c]? = some F → CallSim a call.src call.dst F call.rpc
  election : ElectionSim w a

theorem Sim.inv {cl : Cluster} {w : World} {sh : Shadow} {a : State String Entry}
    (h : Sim cl w sh a) : Inv (quorums cl) a :=
  h.reachable.inv

section Order

variable {a b : State String Entry}

theorem lead_ne_none_mono (hab : a ≤ b) {U : ℕ} (h : a.lead U ≠ none) : b.lead U ≠ none := by
  obtain ⟨L, hL⟩ := Option.ne_none_iff_exists'.mp h
  obtain ⟨L', hL', -⟩ := hab.lead_le U L hL
  simp [hL']

theorem ChosenAt.mono (hab : a ≤ b) {e : Entry} (h : ChosenAt a e) : ChosenAt b e :=
  ⟨h.1, h.2.mono hab⟩

theorem Matched.mono (hab : a ≤ b) {p : String} {T m : ℕ} (h : Matched a p T m) :
    Matched b p T m := by
  obtain ⟨L, hL, hm, hall⟩ := h
  obtain ⟨L', hL', hpre⟩ := hab.lead_le T L hL
  refine ⟨L', hL', hm.trans hpre.length_le, ?_⟩
  intro n hn ht
  rw [← termAt_congr (Agree.of_isPrefix hpre) (hn.trans hm)] at ht
  rcases hall n hn ht with hack | ⟨n', hnn', hcom⟩
  · exact Or.inl (hab.ack_imp p T n hack)
  · exact Or.inr ⟨n', hnn', hab.committed_imp T n' hcom⟩

/-- A node that acknowledges the next position is matched up to it. -/
theorem Matched.succ {p : String} {T m : ℕ} {L : List Entry} (h : Matched a p T m)
    (hL : a.lead T = some L) (hlt : m < L.length) (hack : a.ack p T (m + 1)) :
    Matched a p T (m + 1) := by
  obtain ⟨L', hL', -, hall⟩ := h
  obtain rfl : L = L' := Option.some.inj (hL.symm.trans hL')
  refine ⟨L, hL, hlt, ?_⟩
  intro n hn ht
  rcases Nat.lt_or_eq_of_le hn with hnm | rfl
  · exact hall n (by omega) ht
  · exact Or.inl hack

theorem Applying.mono (hab : a ≤ b) {i : String} {F F' : List Entry} {t t' c c' : ℕ}
    {x : ApplyLoop} (ht : t ≤ t') (hc : c ≤ c') (hag : Agree 0 c F F')
    (h : Applying a i F t c x) : Applying b i F' t' c' x := by
  cases x with
  | idle => trivial
  | oversized => trivial
  | read applied commit => exact le_trans h hc
  | batch es => exact fun e he => ⟨(h e he).1.mono hab, (h e he).2.trans hc⟩
  | sent e es => exact fun e' he' => ⟨(h e' he').1.mono hab, (h e' he').2.trans hc⟩
  | compact d => exact ⟨h.1.trans hc, (h.2.mono hab ht).congr (hag.mono le_rfl h.1).symm⟩

theorem SentBy.mono (hab : a ≤ b) {F : List Entry} {U : ℕ} (h : SentBy a F U) :
    SentBy b F U := by
  obtain ⟨hF, L, hL, hpre⟩ := h
  obtain ⟨L', hL', hpre'⟩ := hab.lead_le U L hL
  exact ⟨hF, L', hL', hpre.trans hpre'⟩

theorem CallSim.mono (hab : a ≤ b) {src dst : String} {F : List Entry} {rpc : Rpc}
    (h : CallSim a src dst F rpc) : CallSim b src dst F rpc := by
  cases rpc with
  | requestVote args reply => exact ⟨hab.cand_eq _ _ _ h.1, h.2⟩
  | appendEntries args reply =>
      obtain ⟨hsent, hprev, hes, hle, hcom, hreply⟩ := h
      exact ⟨hsent.mono hab, hprev.mono hab le_rfl, hes, hle, hcom.mono hab le_rfl,
        fun r hr hs => (hreply r hr hs).mono hab⟩
  | installSnapshot args reply =>
      exact ⟨h.1.mono hab, h.2.1.mono hab le_rfl, h.2.2.mono hab le_rfl⟩

end Order

namespace HostSim

variable {a b : State String Entry} {i : String} {h : Host}

theorem init (cl : Cluster) (i : String) : HostSim State.init i ((World.init cl).hosts i) where
  term := rfl
  represents := Represents.newRaftLog
  noted := Or.inl rfl
  floor_le := le_rfl
  committed := Or.inl rfl
  commit_le := le_rfl
  snap_le := le_rfl
  applied_le := le_rfl
  applying := trivial
  delivered e he := by simp [World.init] at he
  candidate hs := by cases hs
  leader hs := by cases hs
  tracking hs := by cases hs
  own hs := by cases hs
  matched hs := by cases hs

/-- A step of another node leaves the relation as it is. -/
theorem frame (hs : HostSim a i h) (hab : a ≤ b) (hterm : b.term i = a.term i)
    (hlog : b.log i = a.log i) (hfloor : b.floor i = a.floor i)
    (hlead : h.node.state = .leader → b.lead h.node.currentTerm = a.lead h.node.currentTerm) :
    HostSim b i h where
  term := hterm.trans hs.term
  represents := hlog ▸ hs.represents
  noted := hlog ▸ hs.noted.mono hab le_rfl
  floor_le := hfloor ▸ hs.floor_le
  committed := hlog ▸ hs.committed.mono hab le_rfl
  commit_le := hlog ▸ hs.commit_le
  snap_le := hs.snap_le
  applied_le := hs.applied_le
  applying := by
    rw [hlog]
    exact hs.applying.mono hab le_rfl le_rfl (Agree.refl _ _ _)
  delivered e he := (hs.delivered e he).mono hab
  candidate hc hnone := by
    rw [hlog]
    refine (hs.candidate hc ?_).imp fun t => hab.cand_eq _ _ _
    by_contra hsome
    exact lead_ne_none_mono hab hsome hnone
  leader hl := by rw [hlead hl, hlog, hs.leader hl]
  tracking := hs.tracking
  own hl := by rw [hlog, hs.own hl]
  matched hl p hp := (hs.matched hl p hp).mono hab

/-- A node that steps down without entering a new term. -/
theorem stepDown (hs : HostSim a i h) :
    HostSim a i { h with node := h.node.becomeFollower h.node.currentTerm } :=
  { hs with
    candidate := nofun
    leader := nofun
    tracking := nofun
    own := nofun
    matched := nofun }

/-- A node that learns of a later term. -/
theorem bump (hs : HostSim a i h) {t : ℕ} (ht : h.node.currentTerm < t) :
    HostSim (a.bump i t) i { h with node := h.node.becomeFollower t } := by
  have hab : a ≤ a.bump i t := State.le_bump (by rwa [hs.term])
  exact
    { hs with
      term := by simp [State.bump, Node.becomeFollower]
      noted := hs.noted.mono hab ht.le
      committed := hs.committed.mono hab ht.le
      applying := hs.applying.mono hab ht.le le_rfl (Agree.refl _ _ _)
      delivered := fun e he => (hs.delivered e he).mono hab
      candidate := nofun
      leader := nofun
      tracking := nofun
      own := nofun
      matched := nofun }

theorem noted_of_term (hs : HostSim a i h) {index t : ℕ} (ht : h.node.log.term index = .ok t) :
    a.Noted i (a.log i) index t h.node.currentTerm := by
  rcases hs.represents.termAt_of_term ht with ⟨hF, -⟩ | ⟨-, rfl, rfl⟩
  · exact Or.inl hF
  · exact hs.noted

theorem stamped_lastTerm (hs : HostSim a i h) :
    a.Stamped (a.log i) (a.log i).length h.node.log.lastTerm h.node.currentTerm := by
  rcases hs.represents.lastTerm with heq | ⟨hend, heq⟩
  · exact Or.inl (by rw [heq, termAt_length])
  · rw [heq, ← hend]
    exact hs.noted.stamped

/-- Compacting the log up to a committed index. -/
theorem setSnapshot (hs : HostSim a i h) {d t : ℕ} (hd : d ≤ h.node.commitIndex)
    (ht : a.Noted i (a.log i) d t h.node.currentTerm) :
    HostSim a i { h with node := { h.node with log := h.node.log.setSnapshot d t } } := by
  have hsnap := h.node.log.snapIndex_setSnapshot d t
  have hfloor := hs.floor_le
  have hle := hs.snap_le
  exact
    { hs with
      represents := hs.represents.setSnapshot ht.stamped.le_length t
      noted := by
        simp only
        rcases h.node.log.setSnapshot_cases d t with ⟨-, hsame⟩ | ⟨-, hindex, hterm⟩
        · rw [hsame]
          exact hs.noted
        · rwa [hindex, hterm]
      floor_le := by simp only; omega
      snap_le := by simp only; omega }

end HostSim

section Assembly

variable {cl : Cluster} {w : World} {sh : Shadow} {a b : State String Entry}

/-- No election changes; a vote that is granted is recorded, unless the term has a
leader already. -/
theorem ElectionSim.of_same {w' : World} (h : ElectionSim w a) (hab : a ≤ b)
    (hlead : ∀ U, b.lead U ≠ none → a.lead U ≠ none) (hel : w'.elections = w.elections)
    (hgr : ∀ v U c, w'.Granted v U c → w.Granted v U c ∨ b.voted v U c ∨ b.lead U ≠ none) :
    ElectionSim w' b := by
  refine ⟨?_, ?_, ?_⟩
  · intro U
    have hled : (∃ j, w'.Led j U) ↔ ∃ j, w.Led j U := by simp [World.Led, hel]
    rw [hled, ← h.led U]
    exact ⟨hlead U, lead_ne_none_mono hab⟩
  · intro v U c hg
    rcases hgr v U c hg with hold | hnew
    · exact (h.granted v U c hold).imp (hab.voted_imp v U c) (lead_ne_none_mono hab)
    · exact hnew
  · intro i U hU
    rw [hel] at hU
    exact hab.voted_imp i U i (h.stood i U hU)

/-- No election changes and no vote is granted. -/
theorem ElectionSim.put (h : ElectionSim w a) (hab : a ≤ b)
    (hlead : ∀ U, b.lead U ≠ none → a.lead U ≠ none) {i : String} {h' : Host} {calls : List Call}
    {bs : List (String × ℕ × String)} (hel : h'.elections = w.elections i)
    (hk : Kept w (w.put i h' calls) noVote bs) : ElectionSim (w.put i h' calls) b :=
  h.of_same hab hlead (by rw [World.put_elections, hel, Function.update_eq_self])
    fun v U c hg => Or.inl (((hk.granted v U c).mp hg).resolve_right id)

/-- The election of the node `i` in the term `U` changes, by which it may be won. -/
theorem ElectionSim.update {w' : World} (h : ElectionSim w a) (hab : a ≤ b) {i : String} {U : ℕ}
    {el : Election} (hel : w'.elections =
      Function.update w.elections i (Function.update (w.elections i) U (some el)))
    (hkeep : w.Led i U → el.once = true)
    (hlead : ∀ U', b.lead U' ≠ none ↔ a.lead U' ≠ none ∨ (U' = U ∧ el.once = true))
    (hgr : ∀ v U c, w'.Granted v U c → w.Granted v U c) (hvoted : b.voted i U i) :
    ElectionSim w' b := by
  have hself : w'.Led i U ↔ el.once = true := by simp [World.Led, hel]
  have hother : ∀ j U', ¬ (j = i ∧ U' = U) → w'.elections j U' = w.elections j U' := by
    intro j U' hne
    by_cases hj : j = i
    · subst hj
      simp [hel, show U' ≠ U from fun hU => hne ⟨rfl, hU⟩]
    · simp [hel, hj]
  refine ⟨?_, ?_, ?_⟩
  · intro U'
    rw [hlead U', h.led U']
    constructor
    · rintro (⟨j, el', hel', honce⟩ | ⟨rfl, honce⟩)
      · by_cases hj : j = i ∧ U' = U
        · obtain ⟨rfl, rfl⟩ := hj
          exact ⟨j, hself.mpr (hkeep ⟨el', hel', honce⟩)⟩
        · exact ⟨j, el', by rw [hother j U' hj, hel'], honce⟩
      · exact ⟨i, hself.mpr honce⟩
    · rintro ⟨j, hl⟩
      by_cases hj : j = i ∧ U' = U
      · obtain ⟨rfl, rfl⟩ := hj
        exact Or.inr ⟨rfl, hself.mp hl⟩
      · obtain ⟨el', hel', honce⟩ := hl
        exact Or.inl ⟨j, el', by rw [← hother j U' hj, hel'], honce⟩
  · intro v U' c hg
    exact (h.granted v U' c (hgr v U' c hg)).imp (hab.voted_imp v U' c) (lead_ne_none_mono hab)
  · intro j U' hU'
    by_cases hj : j = i ∧ U' = U
    · obtain ⟨rfl, rfl⟩ := hj
      exact hvoted
    · rw [hother j U' hj] at hU'
      exact hab.voted_imp j U' j (h.stood j U' hU')

/-- A full log is its compacted part and what is left of it. -/
theorem Represents.take_append {F G : List Entry} {l : RaftLog} (h : Represents F l)
    (hag : Agree 0 l.snapIndex G F) : G.take l.snapIndex ++ l.entries = F := by
  rw [hag.take_eq, h.entries, List.take_append_drop]

/-- The other nodes, after a step of the node `i`. -/
structure Framed (w : World) (a b : State String Entry) (i : String) : Prop where
  le : a ≤ b
  term : ∀ j, j ≠ i → b.term j = a.term j
  log : ∀ j, j ≠ i → b.log j = a.log j
  floor : ∀ j, j ≠ i → b.floor j = a.floor j
  lead : ∀ j, j ≠ i → (w.hosts j).node.state = .leader →
    b.lead (w.hosts j).node.currentTerm = a.lead (w.hosts j).node.currentTerm

theorem Framed.refl (w : World) (a : State String Entry) (i : String) : Framed w a a i where
  le := le_rfl
  term _ _ := rfl
  log _ _ := rfl
  floor _ _ := rfl
  lead _ _ _ := rfl

theorem Sim.hosts_put (h : Sim cl w sh a) {i : String} {h' : Host} {calls : List Call}
    (hframe : Framed w a b i) (hhost : HostSim b i h') (j : String) :
    HostSim b j ((w.put i h' calls).hosts j) := by
  refine World.put_hosts (P := fun j x => HostSim b j x) hhost ?_ j
  intro j hj
  exact (h.host j).frame hframe.le (hframe.term j hj) (hframe.log j hj) (hframe.floor j hj)
    (hframe.lead j hj)

/-- The full logs after a step of the node `i` that takes its compacted entries
from `G`. -/
theorem Sim.nextFull_put (h : Sim cl w sh a) {i : String} {h' : Host} (calls : List Call)
    (e : Event) (hframe : Framed w a b i) (hhost : HostSim b i h')
    (hother : ∀ j, j ≠ i → sh.source w (w.put i h' calls) e j = sh.full j)
    (hsource : Agree 0 h'.node.log.snapIndex (sh.source w (w.put i h' calls) e i) (b.log i))
    (j : String) : sh.nextFull w (w.put i h' calls) e j = b.log j := by
  unfold Shadow.nextFull
  by_cases hj : j = i
  · subst hj
    rw [World.put_hosts_self]
    exact hhost.represents.take_append hsource
  · rw [World.put_hosts_ne hj, hother j hj, hframe.log j hj, h.full j]
    exact (h.host j).represents.take_append (Agree.refl _ _ _)

/-- A host acts on its own. -/
theorem Sim.act (h : Sim cl w sh a) {i : String} {x : Action} {h' : Host} {cs : List Call}
    (hr : Reachable (quorums cl) b) (hframe : Framed w a b i) (hhost : HostSim b i h')
    (hag : Agree 0 h'.node.log.snapIndex (a.log i) (b.log i))
    (hcalls : ∀ call ∈ cs, CallSim b call.src call.dst (b.log i) call.rpc)
    (hel : ElectionSim (w.put i h' (w.calls ++ cs)) b) :
    Sim cl (w.put i h' (w.calls ++ cs)) (sh.next w (w.put i h' (w.calls ++ cs)) (.act i x)) b := by
  rw [← h.full] at hag
  have hfull := h.nextFull_put (w.calls ++ cs) (.act i x) hframe hhost (fun _ _ => rfl) hag
  refine ⟨hr, h.hosts_put hframe hhost, hfull, ?_, ?_, hel⟩
  · simp [Shadow.next, h.sent]
  · intro c call F hc hF
    simp only [Shadow.next, World.put_calls] at hc hF
    by_cases hlt : c < w.calls.length
    · rw [List.getElem?_append_left hlt] at hc
      rw [List.getElem?_append_left (by rwa [h.sent])] at hF
      exact (h.call c call F hc hF).mono hframe.le
    · rw [List.getElem?_append_right (Nat.le_of_not_lt hlt)] at hc
      rw [List.getElem?_append_right (by rw [h.sent]; omega)] at hF
      have hFi := List.eq_of_mem_replicate (List.mem_of_getElem? hF)
      rw [hFi, hfull]
      exact hcalls call (List.mem_of_getElem? hc)

/-- A host handles a request or a reply, or its caller gives up. -/
theorem Sim.set (h : Sim cl w sh a) {i : String} {e : Event} {h' : Host} {c : ℕ}
    {call call' : Call} (hr : Reachable (quorums cl) b) (hframe : Framed w a b i)
    (hhost : HostSim b i h') (hc : w.calls[c]? = some call)
    (hsent : ∀ w', (sh.next w w' e).sent = sh.sent)
    (hother : ∀ j, j ≠ i → sh.source w (w.put i h' (w.calls.set c call')) e j = sh.full j)
    (hsource : Agree 0 h'.node.log.snapIndex
      (sh.source w (w.put i h' (w.calls.set c call')) e i) (b.log i))
    (hcall : ∀ F, sh.sent[c]? = some F → CallSim b call.src call.dst F call.rpc →
      CallSim b call'.src call'.dst F call'.rpc)
    (hel : ElectionSim (w.put i h' (w.calls.set c call')) b) :
    Sim cl (w.put i h' (w.calls.set c call'))
      (sh.next w (w.put i h' (w.calls.set c call')) e) b := by
  refine ⟨hr, h.hosts_put hframe hhost, h.nextFull_put _ e hframe hhost hother hsource, ?_, ?_,
    hel⟩
  · rw [hsent, h.sent]
    simp
  · intro k x F hk hF
    rw [hsent] at hF
    rw [World.put_calls] at hk
    rcases Growth.getElem?_set_cases hk with ⟨rfl, rfl⟩ | ⟨-, hk⟩
    · exact hcall F hF ((h.call k call F hc hF).mono hframe.le)
    · exact (h.call k x F hk hF).mono hframe.le

end Assembly

end Raft

end VaultFS

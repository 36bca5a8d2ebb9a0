import VaultFS.Raft.Cluster.Campaign
import Mathlib.Data.Finset.Card
import Mathlib.Data.Finset.Dedup

/-!
# Election safety

At most one node leads a term. Votes in this code are not permanent: a candidate
that handles an AppendEntries request of its own term forgets its vote for itself
and may vote again in that term. What makes elections safe nevertheless is that
such a request exists only once a leader of the term exists, and that nobody in
that leader's quorum can be a candidate of the term. `Voting` is the invariant
that says so, and `Led w i U` that the election of `i` in term `U` was won.
-/

namespace VaultFS

namespace Raft

open Transition

/-- A set of nodes whose votes win an election. -/
def Cluster.Winning (cl : Cluster) (V : Finset String) : Prop :=
  V ⊆ cl.ids.toFinset ∧ cl.size / 2 + 1 ≤ V.card

theorem Cluster.Winning.meet {cl : Cluster} {V V' : Finset String} (h : cl.Winning V)
    (h' : cl.Winning V') : ∃ v, v ∈ V ∧ v ∈ V' := by
  have hcard : cl.ids.toFinset.card = cl.size := List.toFinset_card_of_nodup cl.nodup
  obtain ⟨v, hv⟩ := Finset.inter_nonempty_of_card_lt_card_add_card h.1 h'.1 (by
    have := h.2
    have := h'.2
    omega)
  exact ⟨v, Finset.mem_inter.mp hv⟩

/-- The election of `i` in term `U` was won. -/
def World.Led (w : World) (i : String) (U : ℕ) : Prop :=
  ∃ el, w.elections i U = some el ∧ el.once = true

structure Voting (cl : Cluster) (w : World) : Prop where
  ballots_nodup : w.ballots.Nodup
  ballots_le : ∀ b ∈ w.ballots, b.2.1 ≤ (w.role b.1).currentTerm
  own_vote : ∀ i, (w.role i).state ≠ .follower → (w.role i).votedFor = i ∧ i ≠ ""
  granted_held : ∀ v U c, w.Granted v U c → U < (w.role v).currentTerm ∨
    (U = (w.role v).currentTerm ∧ (w.role v).state = .follower ∧ (w.role v).votedFor = c)
  granted_unique : ∀ v U c c', w.Granted v U c → w.Granted v U c' → c = c'
  election_le : ∀ i U el, w.elections i U = some el → U ≤ (w.role i).currentTerm
  tally : ∀ i U el, w.elections i U = some el →
    ∃ V : Finset String, el.votes ≤ V.card + 1 ∧ ∀ v ∈ V, w.Counted v U i
  won : ∀ i U, w.Led i U → ∃ V, cl.Winning V ∧ ∀ v ∈ V, v = i ∨ w.Granted v U i
  leader_led : ∀ i, (w.role i).state = .leader → w.Led i (w.role i).currentTerm
  led_leader : ∀ i U, w.Led i U → (w.role i).currentTerm = U → (w.role i).state = .leader
  announced_led : ∀ j U, w.Announced j U → w.Led j U
  led_unique : ∀ i j U, w.Led i U → w.Led j U → i = j
  led_no_grant : ∀ i U c, w.Led i U → ¬ w.Granted i U c

theorem World.Counted.granted {w : World} {v c : String} {U : ℕ} (h : w.Counted v U c) :
    w.Granted v U c := by
  obtain ⟨call, hmem, hg, -⟩ := h
  exact ⟨call, hmem, hg⟩

theorem Configured.granted {cl : Cluster} {w : World} (h : Configured cl w) {v c : String}
    {U : ℕ} (hg : w.Granted v U c) : v ∈ cl.ids ∧ c ∈ cl.ids ∧ v ≠ c := by
  obtain ⟨call, hmem, rfl, rfl, -⟩ := hg
  exact ⟨(h.dst hmem).1, (h.call call hmem).1, (h.dst hmem).2⟩

namespace Campaign

variable {cl : Cluster} {w w' : World} {e : Event}

theorem granted_mono (hc : Campaign cl w e w') {v c : String} {U : ℕ} (h : w.Granted v U c) :
    w'.Granted v U c := by
  cases hc <;> rename_i hk <;> exact (hk.granted v U c).mpr (Or.inl h)

theorem counted_mono (hc : Campaign cl w e w') {v c : String} {U : ℕ} (h : w.Counted v U c) :
    w'.Counted v U c := by
  cases hc <;> rename_i hk <;> exact hk.counted v U c h

theorem announced (hc : Campaign cl w e w') {j : String} {U : ℕ} (h : w'.Announced j U) :
    w.Announced j U ∨ ((w.role j).state = .leader ∧ (w.role j).currentTerm = U) := by
  cases hc <;> rename_i hk <;> exact hk.announced j U h

/-- The role of a node after a step. -/
inductive Turned (cl : Cluster) (w w' : World) (j : String) : Role → Prop where
  | same : Turned cl w w' j (w.role j)
  | observed (t : ℕ) (hlt : (w.role j).currentTerm < t) : Turned cl w w' j ⟨t, "", .follower⟩
  | steppedDown (k : String) (hne : j ≠ k)
      (hann : w.Announced k (w.role j).currentTerm) (hstate : (w.role j).state ≠ .follower) :
      Turned cl w w' j ⟨(w.role j).currentTerm, "", .follower⟩
  | stood (hj : j ∈ cl.ids) : Turned cl w w' j ⟨(w.role j).currentTerm + 1, j, .candidate⟩
  | voted (c : String) (U : ℕ) (r : Role) (hc : c ∈ cl.ids) (hne : c ≠ j)
      (hr : r = w.role j ∧ r.currentTerm = U ∨
        (w.role j).currentTerm < U ∧ r = ⟨U, "", .follower⟩)
      (hfree : r.votedFor = "" ∨ r.votedFor = c) : Turned cl w w' j ⟨U, c, r.state⟩
  | won (hcand : (w.role j).state = .candidate) (hled : w'.Led j (w.role j).currentTerm) :
      Turned cl w w' j ⟨(w.role j).currentTerm, (w.role j).votedFor, .leader⟩

theorem turned (hc : Campaign cl w e w') (j : String) : Turned cl w w' j (w'.role j) := by
  have hupdate : ∀ {i : String} {r : Role}, w'.role = Function.update w.role i r →
      Turned cl w w' i r → Turned cl w w' j (w'.role j) := by
    intro i r hrole hr
    rw [hrole]
    by_cases hj : j = i
    · subst hj
      simpa using hr
    · rw [Function.update_of_ne hj]
      exact .same
  cases hc with
  | quiet hrole => exact hrole ▸ .same
  | count i v U el hold ht hrole => exact hrole ▸ .same
  | observe i t hlt hrole => exact hupdate hrole (.observed t hlt)
  | stepDown i k hne hann hstate hrole =>
      exact hupdate hrole (.steppedDown k hne hann hstate)
  | stand i bs hi hrole => exact hupdate hrole (.stood hi)
  | grant i c U r hc hne hr hfree hmiss hrole => exact hupdate hrole (.voted c U r hc hne hr hfree)
  | win i v U el hi hold ht hq hrole hel =>
      have hled : w'.Led i U := ⟨⟨el.votes + 1, true⟩, by simp [hel], rfl⟩
      obtain rfl := ht.term
      exact hupdate hrole (.won ht.candidate hled)
  | winAlone i U el hi hold hcand ht hq hrole hel =>
      have hled : w'.Led i U := ⟨⟨el.votes, true⟩, by simp [hel], rfl⟩
      subst ht
      exact hupdate hrole (.won hcand hled)

/-- Terms never go back. -/
theorem term_mono (hc : Campaign cl w e w') (j : String) :
    (w.role j).currentTerm ≤ (w'.role j).currentTerm := by
  have ht := hc.turned j
  generalize w'.role j = r at ht ⊢
  cases ht with
  | same => exact le_rfl
  | observed t hlt => exact hlt.le
  | steppedDown k => exact le_rfl
  | stood => exact Nat.le_succ _
  | voted c U r hc hne hr hfree =>
      rcases hr with ⟨rfl, hU⟩ | ⟨hlt, -⟩
      · exact hU.le
      · exact hlt.le
  | won => exact le_rfl

/-- A vote is granted before a step or by it. -/
theorem granted_cases (hc : Campaign cl w e w') {v c : String} {U : ℕ}
    (hg : w'.Granted v U c) : w.Granted v U c ∨ (w'.elections = w.elections ∧
      ∃ r : Role, c ∈ cl.ids ∧ c ≠ v ∧ (r = w.role v ∧ r.currentTerm = U ∨
        (w.role v).currentTerm < U ∧ r = ⟨U, "", .follower⟩) ∧
        (r.votedFor = "" ∨ r.votedFor = c) ∧ w'.role v = ⟨U, c, r.state⟩ ∧
        (voteMissesStepDown w e → U = (w.role v).currentTerm →
          (w.role v).state = .follower → w.elections v U = none)) := by
  cases hc with
  | grant i c' U' r hcid hne hr hfree hmiss hrole hel hk =>
      rcases (hk.granted v U c).mp hg with hold | ⟨rfl, rfl, rfl⟩
      · exact Or.inl hold
      · exact Or.inr ⟨hel, r, hcid, hne, hr, hfree, by simp [hrole], hmiss⟩
  | quiet hrole hel hk => exact Or.inl (((hk.granted v U c).mp hg).resolve_right id)
  | observe i t hlt hrole hel hk => exact Or.inl (((hk.granted v U c).mp hg).resolve_right id)
  | stepDown i j hne hann hstate hrole hel hk =>
      exact Or.inl (((hk.granted v U c).mp hg).resolve_right id)
  | stand i bs hi hrole hel hbs hk =>
      exact Or.inl (((hk.granted v U c).mp hg).resolve_right id)
  | count i v' U' el hold ht hrole hel hk =>
      exact Or.inl (((hk.granted v U c).mp hg).resolve_right id)
  | win i v' U' el hi hold ht hq hrole hel hk =>
      exact Or.inl (((hk.granted v U c).mp hg).resolve_right id)
  | winAlone i U' el hi hold hcand ht hq hrole hel hk =>
      exact Or.inl (((hk.granted v U c).mp hg).resolve_right id)

/-- The shared variables of an election after a step. -/
inductive Ran (cl : Cluster) (w w' : World) (i : String) (U : ℕ) : Election → Prop where
  | same (el : Election) (hel : w.elections i U = some el) : Ran cl w w' i U el
  | stood (hU : U = (w.role i).currentTerm + 1) (hrole : (w'.role i).currentTerm = U) :
      Ran cl w w' i U ⟨1, false⟩
  | counted (el : Election) (v : String) (hel : w.elections i U = some el)
      (ht : Tallied w w' i U v) : Ran cl w w' i U ⟨el.votes + 1, el.once⟩
  | won (el : Election) (votes : ℕ) (hi : i ∈ cl.ids) (hel : w.elections i U = some el)
      (hcand : (w.role i).state = .candidate) (ht : (w.role i).currentTerm = U)
      (hrole : (w'.role i).state = .leader)
      (hother : ∀ j, j ≠ i → w'.elections j = w.elections j)
      (hgranted : ∀ v U c, w'.Granted v U c → w.Granted v U c)
      (hvotes : (∃ v, Tallied w w' i U v) ∧ votes = el.votes + 1 ∧ cl.size / 2 + 1 ≤ votes ∨
        votes = el.votes ∧ cl.size / 2 + 1 ≤ 1) : Ran cl w w' i U ⟨votes, true⟩

theorem ran (hc : Campaign cl w e w') {i : String} {U : ℕ} {el : Election}
    (hel : w'.elections i U = some el) : Ran cl w w' i U el := by
  have hupdate : ∀ {k : String} {U' : ℕ} {el' : Election},
      w'.elections = Function.update w.elections k
        (Function.update (w.elections k) U' (some el')) →
      Ran cl w w' k U' el' → Ran cl w w' i U el := by
    intro k U' el' hel' hr
    by_cases hik : i = k
    · subst hik
      by_cases hU : U = U'
      · subst hU
        simp only [hel', Function.update_self, Option.some.injEq] at hel
        exact hel ▸ hr
      · exact .same el (by simpa [hel', hU] using hel)
    · exact .same el (by simpa [hel', hik] using hel)
  cases hc with
  | quiet hrole hel' => exact .same el (by rw [← hel', hel])
  | observe j t hlt hrole hel' => exact .same el (by rw [← hel', hel])
  | stepDown j k hne hann hstate hrole hel' => exact .same el (by rw [← hel', hel])
  | grant j c U' r hcid hne hr hfree hmiss hrole hel' => exact .same el (by rw [← hel', hel])
  | stand j bs hj hrole hel' => exact hupdate hel' (.stood rfl (by simp [hrole]))
  | count j v U' el' hel₀ ht hrole hel' => exact hupdate hel' (.counted el' v hel₀ ht)
  | win j v U' el' hj hel₀ ht hq hrole hel' hk =>
      exact hupdate hel' (.won el' _ hj hel₀ ht.candidate ht.term (by simp [hrole])
        (fun k hk => by simp [hel', hk])
        (fun v U c hg => ((hk.granted v U c).mp hg).resolve_right id)
        (Or.inl ⟨⟨v, ht⟩, rfl, hq⟩))
  | winAlone j U' el' hj hel₀ hcand ht hq hrole hel' hk =>
      exact hupdate hel' (.won el' _ hj hel₀ hcand ht (by simp [hrole])
        (fun k hk => by simp [hel', hk])
        (fun v U c hg => ((hk.granted v U c).mp hg).resolve_right id) (Or.inr ⟨rfl, hq⟩))

end Campaign

namespace Voting

variable {cl : Cluster} {w w' : World} {e : Event}

theorem init (cl : Cluster) : Voting cl (World.init cl) where
  ballots_nodup := by simp [World.ballots, World.init]
  ballots_le := by simp [World.ballots, World.init]
  own_vote i hi := absurd rfl hi
  granted_held v U c h := by simp [World.Granted, World.init] at h
  granted_unique v U c c' h := by simp [World.Granted, World.init] at h
  election_le i U el h := by simp [World.elections, World.init] at h
  tally i U el h := by simp [World.elections, World.init] at h
  won i U h := by simp [World.Led, World.elections, World.init] at h
  leader_led i h := by simp [World.role, Node.role, World.init, Node.new] at h
  led_leader i U h := by simp [World.Led, World.elections, World.init] at h
  announced_led j U h := by simp [World.Announced, World.init] at h
  led_unique i j U h := by simp [World.Led, World.elections, World.init] at h
  led_no_grant i U c h := by simp [World.Led, World.elections, World.init] at h

/-- A node that has stood in its term does not vote for another one. -/
theorem follower_of_grant (h : Voting cl w) {i c : String} {U : ℕ} {r : Role} (hne : c ≠ i)
    (hr : r = w.role i ∧ r.currentTerm = U ∨
      (w.role i).currentTerm < U ∧ r = ⟨U, "", .follower⟩)
    (hfree : r.votedFor = "" ∨ r.votedFor = c) : r.state = .follower := by
  rcases hr with ⟨rfl, -⟩ | ⟨-, rfl⟩
  · by_contra hs
    obtain ⟨hv, hi⟩ := h.own_vote i hs
    rw [hv] at hfree
    rcases hfree with h0 | hc
    · exact hi h0
    · exact hne hc.symm
  · rfl

theorem led_mono (h : Voting cl w) (hc : Campaign cl w e w') {i : String} {U : ℕ}
    (hl : w.Led i U) : w'.Led i U := by
  obtain ⟨el, hel, honce⟩ := hl
  have hupdate : ∀ {j : String} {U' : ℕ} {el' : Election},
      w'.elections = Function.update w.elections j
        (Function.update (w.elections j) U' (some el')) →
      (i = j → U = U' → el'.once = true) → w'.Led i U := by
    intro j U' el' hel' hsame
    by_cases hij : i = j
    · subst hij
      by_cases hU : U = U'
      · subst hU
        exact ⟨el', by simp [hel'], hsame rfl rfl⟩
      · exact ⟨el, by simp [hel', hU, hel], honce⟩
    · exact ⟨el, by simp [hel', hij, hel], honce⟩
  cases hc with
  | quiet hrole hel' => exact ⟨el, by rw [hel', hel], honce⟩
  | observe j t hlt hrole hel' => exact ⟨el, by rw [hel', hel], honce⟩
  | stepDown j k hne hann hstate hrole hel' => exact ⟨el, by rw [hel', hel], honce⟩
  | grant j c U' r hcid hne hr hfree hmiss hrole hel' => exact ⟨el, by rw [hel', hel], honce⟩
  | stand j bs hj hrole hel' =>
      refine hupdate hel' ?_
      rintro rfl rfl
      have := h.election_le i _ el hel
      omega
  | count j v U' el' hold ht hrole hel' =>
      refine hupdate hel' ?_
      rintro rfl rfl
      rw [hold] at hel
      exact Option.some.inj hel ▸ honce
  | win j v U' el' hj hold ht hq hrole hel' => exact hupdate hel' fun _ _ => rfl
  | winAlone j U' el' hj hold hcand ht hq hrole hel' => exact hupdate hel' fun _ _ => rfl

/-- A new leader was a candidate of the term. It is the only new one, and its step
grants no vote. -/
theorem led_cases (hc : Campaign cl w e w') {i : String} {U : ℕ} (hl : w'.Led i U) :
    w.Led i U ∨ ((w.role i).state = .candidate ∧ (w.role i).currentTerm = U ∧
      (w'.role i).state = .leader ∧ (∀ j, j ≠ i → w'.Led j U → w.Led j U) ∧
      ∀ v U c, w'.Granted v U c → w.Granted v U c) := by
  obtain ⟨el, hel, honce⟩ := hl
  cases hc.ran hel with
  | same _ hold => exact Or.inl ⟨el, hold, honce⟩
  | stood => cases honce
  | counted el₀ v hold ht => exact Or.inl ⟨el₀, hold, honce⟩
  | won el₀ votes hi hold hcand ht hrole hother hgranted hvotes =>
      refine Or.inr ⟨hcand, ht, hrole, ?_, hgranted⟩
      rintro j hj ⟨el', hel', honce'⟩
      exact ⟨el', by rw [← hother j hj, hel'], honce'⟩

/-- The ballots that a step sends out are new. -/
theorem step_ballots (h : Voting cl w) (hc : Campaign cl w e w') :
    w'.ballots.Nodup ∧ ∀ b ∈ w'.ballots, b.2.1 ≤ (w'.role b.1).currentTerm := by
  have hkeep : ∀ {new}, Kept w w' new [] →
      w'.ballots.Nodup ∧ ∀ b ∈ w'.ballots, b.2.1 ≤ (w'.role b.1).currentTerm := by
    intro new hk
    rw [hk.ballots, List.append_nil]
    exact ⟨h.ballots_nodup, fun b hb => (h.ballots_le b hb).trans (hc.term_mono b.1)⟩
  have hmono := hc.term_mono
  cases hc with
  | stand i bs hi hrole hel hbs hk =>
      rw [hk.ballots]
      refine ⟨List.Nodup.append h.ballots_nodup hbs.1 ?_, ?_⟩
      · intro b hb hb'
        have hle := h.ballots_le b hb
        obtain ⟨hbi, hbt⟩ := hbs.2 b hb'
        rw [hbi] at hle
        omega
      · intro b hb
        rcases List.mem_append.mp hb with hold | hnew
        · exact (h.ballots_le b hold).trans (hmono b.1)
        · obtain ⟨hbi, hbt⟩ := hbs.2 b hnew
          rw [hbi, hbt, hrole]
          simp
  | quiet hrole hel hk => exact hkeep hk
  | observe i t hlt hrole hel hk => exact hkeep hk
  | stepDown i j hne hann hstate hrole hel hk => exact hkeep hk
  | grant i c U r hcid hne hr hfree hmiss hrole hel hk => exact hkeep hk
  | count i v U el hold ht hrole hel hk => exact hkeep hk
  | win i v U el hi hold ht hq hrole hel hk => exact hkeep hk
  | winAlone i U el hi hold hcand ht hq hrole hel hk => exact hkeep hk

theorem step_own_vote (h : Voting cl w) (hc : Campaign cl w e w') (j : String)
    (hs : (w'.role j).state ≠ .follower) : (w'.role j).votedFor = j ∧ j ≠ "" := by
  have ht := hc.turned j
  generalize w'.role j = r at ht hs ⊢
  cases ht with
  | same => exact h.own_vote j hs
  | observed t hlt => exact absurd rfl hs
  | steppedDown k => exact absurd rfl hs
  | stood hj => exact ⟨rfl, cl.ne_empty j hj⟩
  | voted c U r hcid hne hr hfree => exact absurd (h.follower_of_grant hne hr hfree) hs
  | won hcand => exact h.own_vote j (by rw [hcand]; decide)

theorem step_granted_held (h : Voting cl w) (hcfg : Configured cl w) (hc : Campaign cl w e w')
    {v c : String} {U : ℕ} (hg : w'.Granted v U c) :
    U < (w'.role v).currentTerm ∨ (U = (w'.role v).currentTerm ∧
      (w'.role v).state = .follower ∧ (w'.role v).votedFor = c) := by
  rcases hc.granted_cases hg with hold | ⟨-, r, hcid, hne, hr, hfree, hrole, -⟩
  · have hheld := h.granted_held v U c hold
    have ht := hc.turned v
    generalize w'.role v = r at ht ⊢
    cases ht with
    | same => exact hheld
    | observed t hlt => exact Or.inl (by simp only; omega)
    | steppedDown k hne hann hstate =>
        exact hheld.imp_right fun hno => absurd hno.2.1 hstate
    | stood hj => exact Or.inl (by simp only; omega)
    | voted c' U' r hcid hne hr hfree =>
        have hfollow := h.follower_of_grant hne hr hfree
        rcases hr with ⟨rfl, hU⟩ | ⟨hlt, rfl⟩
        · rcases hheld with hlt | ⟨heq, -, hv⟩
          · exact Or.inl (by simp only; omega)
          · refine Or.inr ⟨by simp only; omega, hfollow, ?_⟩
            rw [hv] at hfree
            exact (hfree.resolve_left (cl.ne_empty c (hcfg.granted hold).2.1)).symm
        · exact Or.inl (by simp only; omega)
    | won hcand =>
        refine hheld.imp_right fun hno => ?_
        rw [hcand] at hno
        cases hno.2.1
  · have hfollow := h.follower_of_grant hne hr hfree
    rw [hrole]
    exact Or.inr ⟨rfl, hfollow, rfl⟩

theorem step_granted_unique (h : Voting cl w) (hcfg : Configured cl w)
    (hc : Campaign cl w e w') {v c c' : String} {U : ℕ} (hg : w'.Granted v U c)
    (hg' : w'.Granted v U c') : c = c' := by
  -- an older vote of the voter in this term is the one that the new vote repeats
  have hrepeat : ∀ {c₀ c₁ : String} {r : Role}, w.Granted v U c₀ →
      (r = w.role v ∧ r.currentTerm = U ∨
        (w.role v).currentTerm < U ∧ r = ⟨U, "", .follower⟩) →
      (r.votedFor = "" ∨ r.votedFor = c₁) → c₀ = c₁ := by
    intro c₀ c₁ r hold hr hfree
    rcases h.granted_held v U c₀ hold with hlt | ⟨heq, -, hv⟩
    · rcases hr with ⟨rfl, hU⟩ | ⟨hlt', -⟩
      · omega
      · omega
    · rcases hr with ⟨rfl, -⟩ | ⟨hlt', -⟩
      · rw [hv] at hfree
        exact hfree.resolve_left (cl.ne_empty c₀ (hcfg.granted hold).2.1)
      · omega
  rcases hc.granted_cases hg with hold | ⟨-, r, hcid, hne, hr, hfree, hrole, -⟩
  · rcases hc.granted_cases hg' with hold' | ⟨-, r, hcid, hne, hr, hfree, hrole, -⟩
    · exact h.granted_unique v U c c' hold hold'
    · exact hrepeat hold hr hfree
  · rcases hc.granted_cases hg' with hold' | ⟨-, r', hcid', hne', hr', hfree', hrole', -⟩
    · exact (hrepeat hold' hr hfree).symm
    · exact congrArg Role.votedFor (hrole.symm.trans hrole')

theorem step_election (h : Voting cl w) (hc : Campaign cl w e w') {i : String} {U : ℕ}
    {el : Election} (hel : w'.elections i U = some el) :
    U ≤ (w'.role i).currentTerm ∧
      ∃ V : Finset String, el.votes ≤ V.card + 1 ∧ ∀ v ∈ V, w'.Counted v U i := by
  have hold : ∀ {el₀ : Election}, w.elections i U = some el₀ → el.votes ≤ el₀.votes →
      U ≤ (w'.role i).currentTerm ∧
        ∃ V : Finset String, el.votes ≤ V.card + 1 ∧ ∀ v ∈ V, w'.Counted v U i := by
    intro el₀ hel₀ hvotes
    obtain ⟨V, hV, hcounted⟩ := h.tally i U el₀ hel₀
    exact ⟨(h.election_le i U el₀ hel₀).trans (hc.term_mono i), V, hvotes.trans hV,
      fun v hv => hc.counted_mono (hcounted v hv)⟩
  -- a counted vote is one more than the votes counted before
  have hadd : ∀ {v : String} {el₀ : Election}, w.elections i U = some el₀ →
      Tallied w w' i U v → el.votes = el₀.votes + 1 → U ≤ (w'.role i).currentTerm ∧
        ∃ V : Finset String, el.votes ≤ V.card + 1 ∧ ∀ v ∈ V, w'.Counted v U i := by
    intro v el₀ hel₀ ht hvotes
    obtain ⟨V, hV, hcounted⟩ := h.tally i U el₀ hel₀
    have hv : v ∉ V := fun hv => ht.fresh (hcounted v hv)
    refine ⟨(h.election_le i U el₀ hel₀).trans (hc.term_mono i), insert v V, ?_, ?_⟩
    · rw [Finset.card_insert_of_notMem hv]
      omega
    · intro v' hv'
      rcases Finset.mem_insert.mp hv' with rfl | hv'
      · exact ht.counted
      · exact hc.counted_mono (hcounted v' hv')
  cases hc.ran hel with
  | same _ hel₀ => exact hold hel₀ le_rfl
  | stood hU hrole => exact ⟨hrole.ge, ∅, by simp, by simp⟩
  | counted el₀ v hel₀ ht => exact hadd hel₀ ht rfl
  | won el₀ votes hi hel₀ hcand ht hrole hother hgranted hvotes =>
      rcases hvotes with ⟨⟨v, ht⟩, rfl, -⟩ | ⟨rfl, -⟩
      · exact hadd hel₀ ht rfl
      · exact hold hel₀ le_rfl

/-- The counted votes and the candidate's own one. -/
theorem winning_of_counted (hcfg : Configured cl w) {i : String} {U : ℕ} {V : Finset String}
    (hi : i ∈ cl.ids) (hV : ∀ v ∈ V, w.Granted v U i) (hq : cl.size / 2 + 1 ≤ V.card + 1) :
    ∃ V, cl.Winning V ∧ ∀ v ∈ V, v = i ∨ w.Granted v U i := by
  have hiV : i ∉ V := fun hmem => (hcfg.granted (hV i hmem)).2.2 rfl
  refine ⟨insert i V, ⟨?_, ?_⟩, ?_⟩
  · intro v hv
    rcases Finset.mem_insert.mp hv with rfl | hv
    · exact List.mem_toFinset.mpr hi
    · exact List.mem_toFinset.mpr (hcfg.granted (hV v hv)).1
  · rwa [Finset.card_insert_of_notMem hiV]
  · exact fun v hv => (Finset.mem_insert.mp hv).imp_right (hV v)

theorem step_won (h : Voting cl w) (hcfg' : Configured cl w') (hc : Campaign cl w e w')
    {i : String} {U : ℕ} (hl : w'.Led i U) :
    ∃ V, cl.Winning V ∧ ∀ v ∈ V, v = i ∨ w'.Granted v U i := by
  have hold : w.Led i U → ∃ V, cl.Winning V ∧ ∀ v ∈ V, v = i ∨ w'.Granted v U i := by
    intro hl₀
    obtain ⟨V, hV, hvotes⟩ := h.won i U hl₀
    exact ⟨V, hV, fun v hv => (hvotes v hv).imp_right hc.granted_mono⟩
  obtain ⟨el, hel, honce⟩ := hl
  obtain ⟨-, V, hV, hcounted⟩ := h.step_election hc hel
  have hgranted : ∀ v ∈ V, w'.Granted v U i := fun v hv => (hcounted v hv).granted
  cases hc.ran hel with
  | same _ hel₀ => exact hold ⟨el, hel₀, honce⟩
  | stood => cases honce
  | counted el₀ v hel₀ ht => exact hold ⟨el₀, hel₀, honce⟩
  | won el₀ votes hi hel₀ hcand ht hrole hother _ hvotes =>
      rcases hvotes with ⟨-, -, hq⟩ | ⟨-, hq⟩
      · exact winning_of_counted hcfg' hi hgranted (hq.trans hV)
      · exact winning_of_counted hcfg' hi hgranted (by omega)

theorem step_leader_led (h : Voting cl w) (hc : Campaign cl w e w') (j : String)
    (hs : (w'.role j).state = .leader) : w'.Led j (w'.role j).currentTerm := by
  have ht := hc.turned j
  generalize w'.role j = r at ht hs ⊢
  cases ht with
  | same => exact h.led_mono hc (h.leader_led j hs)
  | observed t hlt => cases hs
  | steppedDown k => cases hs
  | stood hj => cases hs
  | voted c U r hcid hne hr hfree =>
      rw [h.follower_of_grant hne hr hfree] at hs
      cases hs
  | won hcand hled => exact hled

theorem step_led_leader (h : Voting cl w) (hc : Campaign cl w e w') {j : String} {U : ℕ}
    (hl : w'.Led j U) (ht : (w'.role j).currentTerm = U) : (w'.role j).state = .leader := by
  rcases led_cases hc hl with hl₀ | ⟨-, -, hleader, -⟩
  · obtain ⟨el, hel, -⟩ := id hl₀
    have hle := h.election_le j U el hel
    have hterm := hc.term_mono j
    have hleader := h.led_leader j U hl₀ (by omega)
    have hturned := hc.turned j
    generalize w'.role j = r at hturned ht ⊢
    cases hturned with
    | same => exact hleader
    | observed t hlt =>
        simp only at ht
        omega
    | steppedDown k hne hann hstate =>
        rw [show (w.role j).currentTerm = U from ht] at hann
        exact absurd (h.led_unique j k U hl₀ (h.announced_led k U hann)) hne
    | stood hj =>
        simp only at ht
        omega
    | voted c U' r hcid hne hr hfree =>
        rcases hr with ⟨rfl, -⟩ | ⟨hlt, -⟩
        · exact hleader
        · simp only at ht
          omega
    | won hcand hled => rfl
  · exact hleader

theorem step_announced_led (h : Voting cl w) (hc : Campaign cl w e w') {j : String} {U : ℕ}
    (ha : w'.Announced j U) : w'.Led j U := by
  rcases hc.announced ha with hold | ⟨hs, rfl⟩
  · exact h.led_mono hc (h.announced_led j U hold)
  · exact h.led_mono hc (h.leader_led j hs)

theorem step_led_no_grant (h : Voting cl w) (hc : Campaign cl w e w') {i c : String} {U : ℕ}
    (hl : w'.Led i U) : ¬ w'.Granted i U c := by
  intro hg
  rcases led_cases hc hl with hl₀ | ⟨hcand, hU, -, -, hgranted⟩
  · rcases hc.granted_cases hg with hold | ⟨-, r, -, hne, hr, hfree, -, -⟩
    · exact h.led_no_grant i U c hl₀ hold
    · obtain ⟨el, hel, -⟩ := id hl₀
      have hle := h.election_le i U el hel
      have hfollow := h.follower_of_grant hne hr hfree
      rcases hr with ⟨rfl, hU⟩ | ⟨hlt, -⟩
      · rw [h.led_leader i U hl₀ hU] at hfollow
        cases hfollow
      · omega
  · rcases h.granted_held i U c (hgranted i U c hg) with hlt | ⟨-, hf, -⟩
    · omega
    · rw [hcand] at hf
      cases hf

theorem step_led_unique (h : Voting cl w) (hcfg : Configured cl w) (hcfg' : Configured cl w')
    (hc : Campaign cl w e w') {i j : String} {U : ℕ} (hi : w'.Led i U) (hj : w'.Led j U) :
    i = j := by
  obtain ⟨V, hV, hvi⟩ := h.step_won hcfg' hc hi
  obtain ⟨V', hV', hvj⟩ := h.step_won hcfg' hc hj
  obtain ⟨v, hv, hv'⟩ := hV.meet hV'
  rcases hvi v hv with rfl | hgi
  · exact (hvj v hv').resolve_right (h.step_led_no_grant hc hi)
  · rcases hvj v hv' with rfl | hgj
    · exact absurd hgi (h.step_led_no_grant hc hj)
    · exact h.step_granted_unique hcfg hc hgi hgj

theorem of_campaign (h : Voting cl w) (hcfg : Configured cl w) (hcfg' : Configured cl w')
    (hc : Campaign cl w e w') : Voting cl w' where
  ballots_nodup := (h.step_ballots hc).1
  ballots_le := (h.step_ballots hc).2
  own_vote := h.step_own_vote hc
  granted_held _ _ _ := h.step_granted_held hcfg hc
  granted_unique _ _ _ _ := h.step_granted_unique hcfg hc
  election_le _ _ _ hel := (h.step_election hc hel).1
  tally _ _ _ hel := (h.step_election hc hel).2
  won _ _ := h.step_won hcfg' hc
  leader_led := h.step_leader_led hc
  led_leader _ _ := h.step_led_leader hc
  announced_led _ _ := h.step_announced_led hc
  led_unique _ _ _ := h.step_led_unique hcfg hcfg' hc
  led_no_grant _ _ _ := h.step_led_no_grant hc

theorem step (h : Voting cl w) (hcfg : Configured cl w) (hs : Raft.step cl w e = some w') :
    Voting cl w' :=
  h.of_campaign hcfg (hcfg.step hs) (step_campaign hcfg h.ballots_nodup hs)

end Voting

theorem Reach.voting {cl : Cluster} {ok : World → Event → Prop} {w : World}
    (h : Reach cl ok w) : Voting cl w := by
  have hboth := Path.invariant (I := fun w => Configured cl w ∧ Voting cl w) h
    ⟨Configured.init cl, Voting.init cl⟩
    fun _ _ _ hi _ hs => ⟨hi.1.step hs, hi.2.step hi.1 hs⟩
  exact hboth.2

theorem Reach.campaign {cl : Cluster} {ok : World → Event → Prop} {w w' : World} {e : Event}
    (h : Reach cl ok w) (hs : step cl w e = some w') : Campaign cl w e w' :=
  step_campaign h.configured h.voting.ballots_nodup hs

/-- A won election stays won. -/
theorem Reach.led {cl : Cluster} {ok : World → Event → Prop} {w w' : World}
    (hw : Reach cl ok w) (h : Path (step cl) ok w w') {i : String} {U : ℕ}
    (hl : w.Led i U) : w'.Led i U := by
  have hall := Path.invariant (I := fun w => Reach cl ok w ∧ w.Led i U) h ⟨hw, hl⟩
    fun t e t' hi hok hs => ⟨hi.1.tail hok hs, hi.1.voting.led_mono (hi.1.campaign hs) hi.2⟩
  exact hall.2

/-- **Election safety.** If a node leads a term at some time of a run, and a node
leads that term at the same time or later, then they are the same node. -/
theorem election_safety {cl : Cluster} {w w' : World} (hw : Reach cl anyStep w)
    (hw' : Path (step cl) anyStep w w') {i j : String} {T : ℕ}
    (hi : (w.hosts i).node.state = .leader) (hiT : (w.hosts i).node.currentTerm = T)
    (hj : (w'.hosts j).node.state = .leader) (hjT : (w'.hosts j).node.currentTerm = T) :
    i = j := by
  have hled : w.Led i T := hiT ▸ hw.voting.leader_led i hi
  have hvoting : Voting cl w' := Reach.voting (hw.trans hw')
  have hled' : w'.Led j T := hjT ▸ hvoting.leader_led j hj
  exact hvoting.led_unique i j T (hw.led hw' hled) hled'

/-- Node `a` of three is elected in term one. -/
def electA : List Event := [.act "a" .electionTimeout, .deliver 0 none, .receive 0]

/-- Node `a` of three is elected and commits two entries. Node `b` has both of them, and
`c` the first one. -/
def commitTwo : List Event :=
  electA ++ [.act "a" (.propose [1]), .act "a" .heartbeat, .act "a" (.replicateTo "b" false),
    .deliver 2 none, .receive 2, .act "a" (.replicateTo "c" false), .deliver 3 none, .receive 3,
    .act "a" (.propose [2]), .act "a" .heartbeat, .act "a" (.replicateTo "b" false),
    .deliver 4 none, .receive 4]

theorem election_safety_trio : ∃ (w w' : World) (i j : String),
    (w.hosts i).node.state = .leader ∧ (w.hosts i).node.currentTerm = 1 ∧
    (w'.hosts j).node.state = .leader ∧ (w'.hosts j).node.currentTerm = 1 ∧
    w'.calls.length = 3 ∧ i = j := by
  have hw : Runs trio anyStep electA := by decide
  have hw' : Runs trio anyStep
      (electA ++ [.act "a" .heartbeat, .act "a" (.replicateTo "b" false)]) := by decide
  exact ⟨run trio anyStep electA, run trio anyStep (electA ++
      [.act "a" .heartbeat, .act "a" (.replicateTo "b" false)]),
    "a", "a", by decide, by decide, by decide, by decide, by decide,
    election_safety (Reach.run hw) (path_run hw') (by decide) rfl (by decide) (by decide)⟩

end Raft

end VaultFS

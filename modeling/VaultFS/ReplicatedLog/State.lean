import VaultFS.ReplicatedLog.Agree
import Mathlib.Data.Finset.Basic
import Mathlib.Logic.Function.Basic
import Mathlib.Order.Defs.PartialOrder

/-!
# A replicated log with one leader per term

The abstract protocol behind leader-based log replication. There is no network:
the state records, next to the current term and log of every node, the history
that messages are about. A message of a leader is a piece of its log, and a
leader's log only grows while it leads, so any delayed message is a piece of
`lead U` as it is now; a vote request is about the log its sender stood with and
the last term it claimed, which are fixed; an acknowledgement or a granted vote is
a fact that stays true.
Delay, loss, reordering and duplication of messages are thereby absorbed into
the choice of the next step.

The state has no record of who leads a term, only of the leader's log, and a
step that elects a leader asks that its term has none yet.

A node may also be brought up to date by a snapshot: the first entries of its
log are then replaced by committed entries of the leader, and whatever it holds
beyond them stays. `floor q` is the number of entries that came this way. Above
the floor the log still consists of pieces of leader logs; across the floor it
need not.

The term that is given with an index need not be that of the entry there: it may
be the term of a later entry that is committed (`Stamped`). A node may thus stand
with a last term that its log does not have, but then it ends before something
that is committed (`Claim`), and a node that holds this does not vote for it.
-/

namespace ReplicatedLog

/-- The nodes' terms and logs, and the history of the run: with which log and
which claimed last term a node stood in a term, who voted for whom, the log of each
term's leader, which positions of a leader's log were acknowledged by whom, and
which were committed. Positions are counted from one. -/
structure State (ν ε : Type*) where
  term : ν → ℕ
  log : ν → List ε
  floor : ν → ℕ
  cand : ν → ℕ → Option (List ε × ℕ)
  voted : ν → ℕ → ν → Prop
  lead : ℕ → Option (List ε)
  ack : ν → ℕ → ℕ → Prop
  committed : ℕ → ℕ → Prop

namespace State

variable {ν ε : Type*}

/-- Every node at term zero with an empty log, and an empty history. -/
def init : State ν ε where
  term _ := 0
  log _ := []
  floor _ := 0
  cand _ _ := none
  voted _ _ _ := False
  lead _ := none
  ack _ _ _ := False
  committed _ _ := False

/-- The history of `a` is part of the history of `b`. -/
structure Extends (a b : State ν ε) : Prop where
  term_le : ∀ q, a.term q ≤ b.term q
  floor_le : ∀ q, a.floor q ≤ b.floor q
  lead_le : ∀ U L, a.lead U = some L → ∃ L', b.lead U = some L' ∧ L <+: L'
  cand_eq : ∀ c U F, a.cand c U = some F → b.cand c U = some F
  voted_imp : ∀ v U c, a.voted v U c → b.voted v U c
  ack_imp : ∀ q T n, a.ack q T n → b.ack q T n
  committed_imp : ∀ T n, a.committed T n → b.committed T n

instance : Preorder (State ν ε) where
  le := Extends
  le_refl a :=
    { term_le := fun _ => le_rfl
      floor_le := fun _ => le_rfl
      lead_le := fun _ L h => ⟨L, h, List.prefix_rfl⟩
      cand_eq := fun _ _ _ h => h
      voted_imp := fun _ _ _ h => h
      ack_imp := fun _ _ _ h => h
      committed_imp := fun _ _ h => h }
  le_trans a b c hab hbc :=
    { term_le := fun q => (hab.term_le q).trans (hbc.term_le q)
      floor_le := fun q => (hab.floor_le q).trans (hbc.floor_le q)
      lead_le := by
        intro U L h
        obtain ⟨L', h', hpre⟩ := hab.lead_le U L h
        obtain ⟨L'', h'', hpre'⟩ := hbc.lead_le U L' h'
        exact ⟨L'', h'', hpre.trans hpre'⟩
      cand_eq := fun i U F h => hbc.cand_eq i U F (hab.cand_eq i U F h)
      voted_imp := fun v U i h => hbc.voted_imp v U i (hab.voted_imp v U i h)
      ack_imp := fun q T n h => hbc.ack_imp q T n (hab.ack_imp q T n h)
      committed_imp := fun T n h => hbc.committed_imp T n (hab.committed_imp T n h) }

/-- The first `c` entries of `F` are committed by a leader of a term up to `B`. -/
def CommittedUpTo (a : State ν ε) (F : List ε) (c B : ℕ) : Prop :=
  c = 0 ∨ ∃ T n L, T ≤ B ∧ a.committed T n ∧ a.lead T = some L ∧ c ≤ n ∧ n ≤ L.length ∧
    Agree 0 c F L

/-- The entry `e` is committed at position `k`, counted from zero. -/
def Chosen (a : State ν ε) (k : ℕ) (e : ε) : Prop :=
  ∃ T n L, a.committed T n ∧ a.lead T = some L ∧ k < n ∧ L[k]? = some e

/-- The term `t` can be given for the index `s` of the log `F`: it is the term of the
entry there, or that of a later entry that is committed in a term up to `B`. -/
def Stamped [HasTerm ε] (a : State ν ε) (F : List ε) (s t B : ℕ) : Prop :=
  termAt F s = some t ∨
    ∃ G k, s < k ∧ Agree 0 s F G ∧ termAt G k = some t ∧ a.CommittedUpTo G k B

/-- A term that the node `q` has for the index `s` of the log `F`. It is the term of
the entry there, unless the node has taken over a snapshot. -/
def Noted [HasTerm ε] (a : State ν ε) (q : ν) (F : List ε) (s t B : ℕ) : Prop :=
  termAt F s = some t ∨ 0 < a.floor q ∧ a.Stamped F s t B

/-- The term `t` can be given as the last one of the log `F`: it is that, or it is
not later than one in which something beyond `F` is committed. -/
def Claim [HasTerm ε] (a : State ν ε) (F : List ε) (t B : ℕ) : Prop :=
  t = lastTerm F ∨
    lastTerm F ≤ t ∧ ∃ T n, T ≤ B ∧ t ≤ T ∧ F.length < n ∧ a.committed T n

/-- Every leader of a term strictly between `T` and `U` has the first `n`
entries of `L`. -/
def SafeBelow (a : State ν ε) (L : List ε) (T n U : ℕ) : Prop :=
  ∀ U' L', T < U' → U' < U → a.lead U' = some L' → Agree 0 n L L'

theorem SafeBelow.of_le {a : State ν ε} {L : List ε} {T n U U' : ℕ}
    (h : a.SafeBelow L T n U) (hU : U' ≤ U) : a.SafeBelow L T n U' :=
  fun X L' hT hX hL' => h X L' hT (hX.trans_le hU) hL'

theorem SafeBelow.agree {a : State ν ε} {L L' : List ε} {T n U : ℕ}
    (h : a.SafeBelow L T n (U + 1)) (hL : a.lead T = some L) (hL' : a.lead U = some L')
    (hTU : T ≤ U) : Agree 0 n L L' := by
  rcases hTU.eq_or_lt with rfl | hlt
  · rw [Option.some.inj (hL.symm.trans hL')]
    exact Agree.refl _ _ _
  · exact h U L' hlt (Nat.lt_succ_self U) hL'

section Order

variable {a b : State ν ε} {F G : List ε} {c c' B B' k : ℕ} {e : ε}

theorem CommittedUpTo.mono (hab : a ≤ b) (hB : B ≤ B') (h : a.CommittedUpTo F c B) :
    b.CommittedUpTo F c B' := by
  rcases h with rfl | ⟨T, n, L, hT, hc, hL, hcn, hn, hag⟩
  · exact Or.inl rfl
  · obtain ⟨L', hL', hpre⟩ := hab.lead_le T L hL
    refine Or.inr ⟨T, n, L', hT.trans hB, hab.committed_imp T n hc, hL', hcn,
      hn.trans hpre.length_le, ?_⟩
    exact hag.extend (hcn.trans hn) hpre

theorem CommittedUpTo.congr (h : a.CommittedUpTo F c B) (hag : Agree 0 c G F) :
    a.CommittedUpTo G c B := by
  rcases h with rfl | ⟨T, n, L, hT, hc, hL, hcn, hn, hFL⟩
  · exact Or.inl rfl
  · exact Or.inr ⟨T, n, L, hT, hc, hL, hcn, hn, hag.trans hFL⟩

theorem CommittedUpTo.of_le (h : a.CommittedUpTo F c B) (hc : c' ≤ c) :
    a.CommittedUpTo F c' B := by
  rcases h with rfl | ⟨T, n, L, hT, hcom, hL, hcn, hn, hFL⟩
  · exact Or.inl (Nat.le_zero.mp hc)
  · exact Or.inr ⟨T, n, L, hT, hcom, hL, hc.trans hcn, hn, hFL.mono le_rfl hc⟩

theorem CommittedUpTo.le_length (h : a.CommittedUpTo F c B) : c ≤ F.length := by
  rcases h with rfl | ⟨T, n, L, -, -, -, hcn, hn, hFL⟩
  · exact Nat.zero_le _
  · exact hFL.symm.length_le (hcn.trans hn)

theorem CommittedUpTo.chosen (hc : a.CommittedUpTo F c B) (hk : k < c)
    (he : F[k]? = some e) : a.Chosen k e := by
  rcases hc with rfl | ⟨T, n, L, _, hcom, hL, hcn, _, hag⟩
  · exact absurd hk (Nat.not_lt_zero k)
  · exact ⟨T, n, L, hcom, hL, hk.trans_le hcn, by rw [← hag k (Nat.zero_le k) hk, he]⟩

theorem Chosen.mono (hab : a ≤ b) (h : a.Chosen k e) : b.Chosen k e := by
  obtain ⟨T, n, L, hc, hL, hk, he⟩ := h
  obtain ⟨L', hL', hpre⟩ := hab.lead_le T L hL
  refine ⟨T, n, L', hab.committed_imp T n hc, hL', hk, ?_⟩
  have hlt : k < L.length := (List.getElem?_eq_some_iff.mp he).1
  rw [← Agree.of_isPrefix hpre k (Nat.zero_le k) hlt, he]

variable [HasTerm ε] {s t : ℕ}

theorem Stamped.mono (hab : a ≤ b) (hB : B ≤ B') (h : a.Stamped F s t B) :
    b.Stamped F s t B' := by
  rcases h with ht | ⟨G, k, hsk, hag, ht, hcom⟩
  · exact Or.inl ht
  · exact Or.inr ⟨G, k, hsk, hag, ht, hcom.mono hab hB⟩

theorem Stamped.congr (h : a.Stamped F s t B) (hag : Agree 0 s G F) : a.Stamped G s t B := by
  rcases h with ht | ⟨H, k, hsk, hFH, ht, hcom⟩
  · exact Or.inl (by rwa [termAt_congr hag le_rfl])
  · exact Or.inr ⟨H, k, hsk, hag.trans hFH, ht, hcom⟩

theorem Stamped.le_length (h : a.Stamped F s t B) : s ≤ F.length := by
  rcases h with ht | ⟨G, k, hsk, hag, -, hcom⟩
  · exact termAt_le_length ht
  · exact hag.symm.length_le (hsk.le.trans hcom.le_length)

/-- A term that can be given for a committed index can be given for every earlier one. -/
theorem Stamped.earlier (h : a.Stamped F s t B) (hcom : a.CommittedUpTo F s B) (hc : c < s) :
    a.Stamped F c t B := by
  rcases h with ht | ⟨G, k, hsk, hag, ht, hcom'⟩
  · exact Or.inr ⟨F, s, hc, Agree.refl _ _ _, ht, hcom⟩
  · exact Or.inr ⟨G, k, hc.trans hsk, hag.mono le_rfl hc.le, ht, hcom'⟩

theorem Noted.stamped {q : ν} (h : a.Noted q F s t B) : a.Stamped F s t B := by
  rcases h with ht | ⟨-, hst⟩
  · exact Or.inl ht
  · exact hst

theorem Noted.mono {q : ν} (hab : a ≤ b) (hB : B ≤ B') (h : a.Noted q F s t B) :
    b.Noted q F s t B' :=
  h.imp_right fun hst => ⟨hst.1.trans_le (hab.floor_le q), hst.2.mono hab hB⟩

theorem Noted.congr {q : ν} (h : a.Noted q F s t B) (hag : Agree 0 s G F) :
    a.Noted q G s t B := by
  rcases h with ht | ⟨hpos, hst⟩
  · exact Or.inl (by rwa [termAt_congr hag le_rfl])
  · exact Or.inr ⟨hpos, hst.congr hag⟩

theorem Claim.mono (hab : a ≤ b) (h : a.Claim F t B) : b.Claim F t B := by
  rcases h with heq | ⟨hle, T, n, hT, ht, hn, hc⟩
  · exact Or.inl heq
  · exact Or.inr ⟨hle, T, n, hT, ht, hn, hab.committed_imp T n hc⟩

end Order

section Actions

variable [DecidableEq ν]

/-- A node learns of a later term. -/
def bump (a : State ν ε) (q : ν) (U : ℕ) : State ν ε :=
  { a with term := Function.update a.term q U }

theorem le_bump {a : State ν ε} {q : ν} {U : ℕ} (h : a.term q < U) : a ≤ a.bump q U where
  term_le q' := by
    by_cases hq : q' = q
    · subst hq
      simpa [bump] using h.le
    · simp [bump, hq]
  floor_le _ := le_rfl
  lead_le U L hL := ⟨L, hL, List.prefix_rfl⟩
  cand_eq _ _ _ h := h
  voted_imp _ _ _ h := h
  ack_imp _ _ _ h := h
  committed_imp _ _ h := h

/-- A node stands in a later term, with the log it has and `t` as its last term, and
votes for itself. -/
def stand (a : State ν ε) (c : ν) (U t : ℕ) : State ν ε :=
  { a with
    term := Function.update a.term c U
    cand := Function.update a.cand c (Function.update (a.cand c) U (some (a.log c, t)))
    voted := fun v U' c' => a.voted v U' c' ∨ (v = c ∧ U' = U ∧ c' = c) }

/-- A node votes. -/
def vote (a : State ν ε) (v : ν) (U : ℕ) (c : ν) : State ν ε :=
  { a with voted := fun v' U' c' => a.voted v' U' c' ∨ (v' = v ∧ U' = U ∧ c' = c) }

/-- A term gets its leader. -/
def elect (a : State ν ε) (U : ℕ) (F : List ε) : State ν ε :=
  { a with lead := Function.update a.lead U (some F) }

omit [DecidableEq ν] in
/-- The leaders of other terms stay. -/
theorem lead_elect {a : State ν ε} {U T : ℕ} {L : List ε} (hnone : a.lead U = none)
    (hL : a.lead T = some L) (F : List ε) : (a.elect U F).lead T = some L := by
  have hne : T ≠ U := by
    rintro rfl
    rw [hnone] at hL
    cases hL
  simpa [elect, hne] using hL

omit [DecidableEq ν] in
theorem lead_elect_cases {a : State ν ε} {U T : ℕ} {F L : List ε}
    (hL : (a.elect U F).lead T = some L) : (T = U ∧ L = F) ∨ a.lead T = some L := by
  by_cases hT : T = U
  · subst hT
    exact Or.inl ⟨rfl, by simpa [elect, eq_comm] using hL⟩
  · exact Or.inr (by simpa [elect, hT] using hL)

/-- A leader appends an entry, which it thereby acknowledges. -/
def append (a : State ν ε) (c : ν) (U : ℕ) (e : ε) : State ν ε :=
  { a with
    log := Function.update a.log c (a.log c ++ [e])
    lead := Function.update a.lead U (some (a.log c ++ [e]))
    ack := fun q T n => a.ack q T n ∨ (q = c ∧ T = U ∧ n = (a.log c).length + 1) }

theorem lead_append (a : State ν ε) (c : ν) (U : ℕ) (e : ε) :
    (a.append c U e).lead U = some (a.log c ++ [e]) := by
  simp [append]

theorem log_append (a : State ν ε) (c : ν) (U : ℕ) (e : ε) :
    (a.append c U e).log c = a.log c ++ [e] := by
  simp [append]

theorem lead_append_cases {a : State ν ε} {c : ν} {U T : ℕ} {e : ε} {L : List ε}
    (hL : (a.append c U e).lead T = some L) :
    (T = U ∧ L = a.log c ++ [e]) ∨ a.lead T = some L := by
  by_cases hT : T = U
  · subst hT
    exact Or.inl ⟨rfl, (Option.some.inj ((a.lead_append c T e).symm.trans hL)).symm⟩
  · exact Or.inr (by simpa [append, hT] using hL)

/-- A node takes over a piece of the leader's log `L` that ends at `m` and
acknowledges the entries of the leader's own term in it that lie above its
floor. -/
def accept [HasTerm ε] (a : State ν ε) (q : ν) (U m : ℕ) (L F : List ε) : State ν ε :=
  { a with
    log := Function.update a.log q F
    ack := fun q' T n => a.ack q' T n ∨
      (q' = q ∧ T = U ∧ a.floor q < n ∧ n ≤ m ∧ termAt L n = some U) }

/-- A node replaces its first `s` entries by those of the leader's log. -/
def install (a : State ν ε) (q : ν) (s : ℕ) (L : List ε) : State ν ε :=
  { a with
    log := Function.update a.log q (L.take s ++ (a.log q).drop s)
    floor := Function.update a.floor q s }

/-- A leader commits up to `n`. -/
def commit (a : State ν ε) (U n : ℕ) : State ν ε :=
  { a with committed := fun T m => a.committed T m ∨ (T = U ∧ m = n) }

end Actions

end State

/-- The log of a candidate that claims the last term `t` looks at least as up to date
as that of a voter. -/
def UpToDate {ε : Type*} [HasTerm ε] (F : List ε) (t : ℕ) (G : List ε) : Prop :=
  lastTerm G < t ∨ (t = lastTerm G ∧ G.length ≤ F.length)

/-- A log after taking over the first `m` entries of `L`: unchanged when it has
them already, and otherwise exactly those. -/
def Merged {ε : Type*} (F L : List ε) (m : ℕ) (F' : List ε) : Prop :=
  (Agree 0 m F L ∧ F' = F) ∨ (¬ Agree 0 m F L ∧ F' = L.take m)

/-- A log that has the first `n` entries of `L₀` still has them after merging in a
piece of a log that has them as well. -/
theorem Merged.agree {ε : Type*} {F F' L L₀ : List ε} {m n : ℕ} (hF' : Merged F L m F')
    (hF : Agree 0 n F L₀) (hL : Agree 0 n L L₀) : Agree 0 n F' L₀ := by
  rcases hF' with ⟨-, rfl⟩ | ⟨hnot, rfl⟩
  · exact hF
  · have hnm : n ≤ m := by
      by_contra hlt
      exact hnot ((hF.trans hL.symm).mono le_rfl (by omega))
    exact ((Agree.of_take L m).mono le_rfl hnm).trans hL

/-- Election quorums and commit quorums; each of one kind meets each of the
other. -/
structure Quorums (ν : Type*) where
  elect : Finset ν → Prop
  commit : Finset ν → Prop
  meet : ∀ V Q, elect V → commit Q → ∃ v, v ∈ V ∧ v ∈ Q

/-- The steps of the protocol. -/
inductive Step {ν ε : Type*} [DecidableEq ν] [HasTerm ε] (𝒬 : Quorums ν)
    (a : State ν ε) : State ν ε → Prop where
  | bump (q : ν) (U : ℕ) (h : a.term q < U) : Step 𝒬 a (a.bump q U)
  | stand (c : ν) (U t : ℕ) (h : a.term c < U) (ht : a.Claim (a.log c) t (a.term c)) :
      Step 𝒬 a (a.stand c U t)
  | vote (v c : ν) (U : ℕ) (F : List ε) (t : ℕ) (hterm : a.term v = U) (hnone : a.lead U = none)
      (hcand : a.cand c U = some (F, t)) (hup : UpToDate F t (a.log v)) : Step 𝒬 a (a.vote v U c)
  | elect (c : ν) (U : ℕ) (V : Finset ν) (F : List ε) (t : ℕ) (hnone : a.lead U = none)
      (hcand : a.cand c U = some (F, t)) (hV : 𝒬.elect V) (hvoted : ∀ v ∈ V, a.voted v U c) :
      Step 𝒬 a (a.elect U F)
  | append (c : ν) (U : ℕ) (e : ε) (hterm : a.term c = U) (hlead : a.lead U = some (a.log c))
      (he : termOf e = U) : Step 𝒬 a (a.append c U e)
  | accept (q : ν) (U prev m : ℕ) (L F : List ε) (hterm : a.term q = U)
      (hlead : a.lead U = some L) (hfloor : a.floor q ≤ prev) (hprev : prev ≤ m)
      (hm : m ≤ L.length) (t : ℕ) (hq : termAt (a.log q) prev = some t)
      (hL : termAt L prev = some t) (hF : Merged (a.log q) L m F) :
      Step 𝒬 a (a.accept q U m L F)
  | install (q : ν) (U s : ℕ) (L : List ε) (hterm : a.term q = U) (hlead : a.lead U = some L)
      (hs : s ≤ L.length) (hfloor : a.floor q ≤ s) (hcom : a.CommittedUpTo L s U) :
      Step 𝒬 a (a.install q s L)
  | commit (U n : ℕ) (Q : Finset ν) (L : List ε) (hlead : a.lead U = some L)
      (hown : termAt L n = some U) (hQ : 𝒬.commit Q) (hack : ∀ q ∈ Q, a.ack q U n) :
      Step 𝒬 a (a.commit U n)

end ReplicatedLog

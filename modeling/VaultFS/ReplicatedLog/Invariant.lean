import VaultFS.ReplicatedLog.State

/-!
# The invariant of the protocol and leader completeness

`Inv` collects what holds in every state of the protocol. Its core is the pair
`ack_held` and `vote_held`. Both say that an acknowledged position is still
there, *provided* that every leader in between has it: `SafeBelow a L T n U` is
that proviso. It is a statement about logs that exist already, so neither field
mentions commitment or quorums, and each step keeps them on its own.

Leader completeness then follows outside of the induction over steps, by
induction on the term (`leader_completeness`): a commit quorum meets the
election quorum of any later leader in a voter that acknowledged the position,
and the proviso for that voter is the induction hypothesis.
-/

namespace ReplicatedLog

variable {ν ε : Type*} [HasTerm ε]

namespace State

/-- A log whose entries come from leaders of terms up to `B`: its first `f`
entries are committed, and above them every entry sits where the leader of its
term has it, together with everything between the floor and it. -/
structure Sound (a : State ν ε) (F : List ε) (f B : ℕ) : Prop where
  le : ∀ e ∈ F, termOf e ≤ B
  floor_le : f ≤ F.length
  committed : a.CommittedUpTo F f B
  matched : ∀ k e, f ≤ k → F[k]? = some e →
    ∃ L, a.lead (termOf e) = some L ∧ Agree f (k + 1) F L

end State

/-- The log `F` has the first `n` entries of `L`, and nothing older than `T` from
there on. -/
def Holds (F L : List ε) (T n : ℕ) : Prop :=
  Agree 0 n F L ∧ ∀ k e, n ≤ k + 1 → F[k]? = some e → T ≤ termOf e

/-- What the vote of a node that acknowledged position `n` of `L` in term `T` says
about a candidate with the log `F` and the claimed last term `t`: the claim is not
below that position, and `F` has it if the claim is true. -/
def Carried (F : List ε) (t : ℕ) (L : List ε) (T n : ℕ) : Prop :=
  (T < t ∨ T = t ∧ n ≤ F.length) ∧ (t = lastTerm F → Agree 0 n F L)

/-- What holds in every state of the protocol. -/
structure Inv (𝒬 : Quorums ν) (a : State ν ε) : Prop where
  lead_pos : ∀ U L, a.lead U = some L → 0 < U
  lead_term_le : ∀ U L, a.lead U = some L → ∀ e ∈ L, termOf e ≤ U
  lead_sorted : ∀ U L, a.lead U = some L → ∀ (j k : ℕ) (e e' : ε), j ≤ k → L[j]? = some e →
    L[k]? = some e' → termOf e ≤ termOf e'
  lead_match : ∀ U L, a.lead U = some L → ∀ (k : ℕ) (e : ε), L[k]? = some e →
    ∃ L', a.lead (termOf e) = some L' ∧ Agree 0 (k + 1) L L'
  node : ∀ q, a.Sound (a.log q) (a.floor q) (a.term q)
  cand : ∀ c U F t, a.cand c U = some (F, t) →
    U ≤ a.term c ∧ ∃ B f, B < U ∧ a.Sound F f B ∧ a.Claim F t B
  voted_cand : ∀ v U c, a.voted v U c → U ≤ a.term v ∧ ∃ x, a.cand c U = some x
  ack_own : ∀ q T n, a.ack q T n → T ≤ a.term q ∧ ∃ L, a.lead T = some L ∧ termAt L n = some T
  ack_held : ∀ q T n L, a.ack q T n → a.lead T = some L →
    a.SafeBelow L T n (a.term q + 1) → Holds (a.log q) L T n
  vote_held : ∀ v U c F t T n L, a.voted v U c → a.cand c U = some (F, t) → a.ack v T n →
    a.lead T = some L → T < U → a.SafeBelow L T n U → Carried F t L T n
  elected : ∀ U L, a.lead U = some L → ∃ c V F t, 𝒬.elect V ∧ (∀ v ∈ V, a.voted v U c) ∧
    a.cand c U = some (F, t) ∧ F <+: L ∧
    ∀ (j : ℕ) (e : ε), F.length ≤ j → L[j]? = some e → termOf e = U
  committed_ack : ∀ T n, a.committed T n → ∃ L, a.lead T = some L ∧ termAt L n = some T ∧
    ∃ Q, 𝒬.commit Q ∧ ∀ q ∈ Q, a.ack q T n
  floor_own : ∀ q L n, a.lead (a.term q) = some L → n ≤ a.floor q →
    termAt L n = some (a.term q) → ∃ n', n ≤ n' ∧ a.committed (a.term q) n'

section Order

variable {a b : State ν ε} {F : List ε} {f B B' : ℕ}

theorem State.Sound.mono (hab : a ≤ b) (hB : B ≤ B') (h : a.Sound F f B) : b.Sound F f B' where
  le e he := (h.le e he).trans hB
  floor_le := h.floor_le
  committed := h.committed.mono hab hB
  matched k e hk he := by
    obtain ⟨L, hL, hag⟩ := h.matched k e hk he
    obtain ⟨L', hL', hpre⟩ := hab.lead_le _ L hL
    have hlt : k + 1 ≤ F.length := (List.getElem?_eq_some_iff.mp he).1
    exact ⟨L', hL', hag.extend_left hlt hpre⟩

/-- A leader's log stays sound when the leader appends an entry. -/
theorem State.Sound.concat (h : a.Sound F f B) {e : ε} (he : termOf e ≤ B)
    (hlead : a.lead (termOf e) = some (F ++ [e])) : a.Sound (F ++ [e]) f B := by
  have hold : Agree 0 F.length (F ++ [e]) F := (Agree.of_isPrefix (List.prefix_append F [e])).symm
  refine ⟨?_, ?_, h.committed.congr (hold.mono le_rfl h.floor_le), ?_⟩
  · intro e' he'
    rcases List.mem_append.mp he' with hmem | hmem
    · exact h.le e' hmem
    · rwa [List.mem_singleton.mp hmem]
  · rw [List.length_append]
    exact h.floor_le.trans (Nat.le_add_right _ _)
  · intro k e' hk he'
    rcases Growth.getElem?_concat_cases he' with ⟨-, hin⟩ | ⟨rfl, rfl⟩
    · obtain ⟨L, hL, hag⟩ := h.matched k e' hk hin
      have hlt : k + 1 ≤ F.length := (List.getElem?_eq_some_iff.mp hin).1
      exact ⟨L, hL, (hold.mono (Nat.zero_le f) hlt).trans hag⟩
    · exact ⟨_, hlead, Agree.refl _ _ _⟩

end Order

section Held

variable {F G L L' : List ε} {T n m s : ℕ}

theorem Holds.congr (h : Holds F L T n) (hag : Agree 0 n L L') : Holds F L' T n :=
  ⟨h.1.trans hag, h.2⟩

theorem Holds.concat (h : Holds F L T n) (hn : n ≤ F.length) {e : ε} (he : T ≤ termOf e) :
    Holds (F ++ [e]) L T n := by
  refine ⟨(h.1.symm.extend hn (List.prefix_append F [e])).symm, ?_⟩
  intro k e' hk he'
  rcases Growth.getElem?_concat_cases he' with ⟨-, hin⟩ | ⟨-, rfl⟩
  · exact h.2 k e' hk hin
  · exact he

theorem Holds.merged (hG : Holds G L' T n) (hL : Holds L L' T n) (hF : Merged G L m F) :
    Holds F L' T n := by
  refine ⟨hF.agree hG.1 hL.1, ?_⟩
  intro k e hk he
  rcases hF with ⟨-, rfl⟩ | ⟨-, rfl⟩
  · exact hG.2 k e hk he
  · rw [List.getElem?_take] at he
    split at he
    · exact hL.2 k e hk he
    · cases he

theorem Holds.splice (hG : Holds G L' T n) (hL : Holds L L' T n) (hs : s ≤ L.length) :
    Holds (L.take s ++ G.drop s) L' T n := by
  constructor
  · intro j hj hjn
    rw [Agree.getElem?_splice hs]
    split
    · exact hL.1 j hj hjn
    · exact hG.1 j hj hjn
  · intro k e hk he
    rw [Agree.getElem?_splice hs] at he
    split at he
    · exact hL.2 k e hk he
    · exact hG.2 k e hk he

end Held

section Consequences

variable {𝒬 : Quorums ν} {a : State ν ε}

theorem Inv.cand_mono (h : Inv 𝒬 a) {b : State ν ε} (hab : a ≤ b) {c : ν} {U t : ℕ} {F : List ε}
    (hF : a.cand c U = some (F, t)) :
    U ≤ b.term c ∧ ∃ B f, B < U ∧ b.Sound F f B ∧ b.Claim F t B := by
  obtain ⟨hU, B, f, hB, hS, ht⟩ := h.cand c U F t hF
  exact ⟨hU.trans (hab.term_le c), B, f, hB, hS.mono hab le_rfl, ht.mono hab⟩

/-- No term inside a leader's log is later than the leader's. -/
theorem Inv.termAt_lead_le (h : Inv 𝒬 a) {U n t : ℕ} {L : List ε}
    (hL : a.lead U = some L) (ht : termAt L n = some t) : t ≤ U := by
  cases n with
  | zero =>
      simp only [termAt_zero, Option.some.injEq] at ht
      omega
  | succ k =>
      obtain ⟨e, he, rfl⟩ := termAt_succ_eq_some.mp ht
      exact h.lead_term_le U L hL e (List.mem_of_getElem? he)

/-- A leader's log that has another leader's own entry at a position has nothing
older behind it. -/
theorem Inv.holds_lead (h : Inv 𝒬 a) {T U n : ℕ} {L L' : List ε} (hL : a.lead T = some L)
    (hown : termAt L n = some T) (hL' : a.lead U = some L') (hag : Agree 0 n L L') :
    Holds L' L T n := by
  refine ⟨hag.symm, ?_⟩
  intro k e hk he
  obtain ⟨j, e₀, rfl, he₀, rfl⟩ := termAt_pos hown (h.lead_pos T L hL)
  rw [hag j (Nat.zero_le j) (Nat.lt_succ_self j)] at he₀
  exact h.lead_sorted U L' hL' j k e₀ e (by omega) he₀ he

/-- The leader of a node's term has what the node acknowledged, as long as all leaders
before it do. -/
theorem Inv.holds_acked (h : Inv 𝒬 a) {q : ν} {T U n : ℕ} {L L' : List ε}
    (hterm : a.term q = U) (hL : a.lead U = some L) (hack : a.ack q T n)
    (hL' : a.lead T = some L') (hsafe : a.SafeBelow L' T n (a.term q + 1)) : Holds L L' T n := by
  subst hterm
  obtain ⟨hT, L₁, hL₁, hown⟩ := h.ack_own q T n hack
  obtain rfl : L' = L₁ := Option.some.inj (hL'.symm.trans hL₁)
  exact h.holds_lead hL' hown hL (hsafe.agree hL' hL hT)

/-- A log that takes over a piece of a leader's log has the leader's own entries in
it, and above the floor nothing older behind them. -/
theorem Inv.holds_merged (h : Inv 𝒬 a) {F G L : List ε} {f B U m n : ℕ} (hG : a.Sound G f B)
    (hL : a.lead U = some L) (hF : Merged G L m F) (hfn : f < n) (hnm : n ≤ m)
    (hown : termAt L n = some U) : Holds F L U n := by
  have hself := h.holds_lead hL hown hL (Agree.refl 0 n L)
  rcases hF with ⟨hag, rfl⟩ | ⟨-, rfl⟩
  · refine ⟨hag.mono le_rfl hnm, ?_⟩
    intro k e hk he
    obtain ⟨j, e₀, rfl, he₀, rfl⟩ := termAt_pos hown (h.lead_pos U L hL)
    -- the leader of the entry's term has the entry of the position as well
    obtain ⟨L', hL', hag'⟩ := hG.matched k e (by omega) he
    have hj : L'[j]? = some e₀ := by
      rw [← hag' j (by omega) (by omega), hag j (Nat.zero_le j) (by omega), he₀]
    exact h.lead_term_le _ L' hL' e₀ (List.mem_of_getElem? hj)
  · refine ⟨(Agree.of_take L m).mono le_rfl hnm, ?_⟩
    intro k e hk he
    rw [List.getElem?_take] at he
    split at he
    · exact hself.2 k e hk he
    · cases he

/-- The beginning of a leader's log, where the floor is committed. -/
theorem Inv.sound_take (h : Inv 𝒬 a) {L : List ε} {f B U m : ℕ} (hL : a.lead U = some L)
    (hUB : U ≤ B) (hcom : a.CommittedUpTo L f B) (hfm : f ≤ m) (hm : m ≤ L.length) :
    a.Sound (L.take m) f B := by
  have htake := Agree.of_take L m
  refine ⟨?_, ?_, hcom.congr (htake.mono le_rfl hfm), ?_⟩
  · intro e he
    exact (h.lead_term_le U L hL e (List.mem_of_mem_take he)).trans hUB
  · rw [List.length_take]
    exact Nat.le_min.mpr ⟨hfm, hfm.trans hm⟩
  · intro k e hk he
    have hkm : k < m := by
      have := (List.getElem?_eq_some_iff.mp he).1
      rw [List.length_take] at this
      omega
    rw [htake k (Nat.zero_le k) hkm] at he
    obtain ⟨L', hL', hag⟩ := h.lead_match U L hL k e he
    exact ⟨L', hL', ((htake.mono le_rfl hkm).trans hag).mono (Nat.zero_le f) le_rfl⟩

/-- A log whose first entries are replaced by committed ones of a leader. -/
theorem Inv.sound_splice (h : Inv 𝒬 a) {G L : List ε} {f B U s : ℕ} (hG : a.Sound G f B)
    (hL : a.lead U = some L) (hUB : U ≤ B) (hs : s ≤ L.length) (hfs : f ≤ s)
    (hcom : a.CommittedUpTo L s B) : a.Sound (L.take s ++ G.drop s) s B := by
  have hhigh : ∀ n, Agree s n (L.take s ++ G.drop s) G := by
    intro n j hj _
    rw [Agree.getElem?_splice hs, if_neg (by omega)]
  have hbelow : Agree 0 s (L.take s ++ G.drop s) L := by
    intro j _ hj
    rw [Agree.getElem?_splice hs, if_pos hj]
  refine ⟨?_, ?_, hcom.congr hbelow, ?_⟩
  · intro e he
    rcases List.mem_append.mp he with hmem | hmem
    · exact (h.lead_term_le U L hL e (List.mem_of_mem_take hmem)).trans hUB
    · exact hG.le e (List.mem_of_mem_drop hmem)
  · rw [List.length_append, List.length_take]
    omega
  · intro k e hk he
    rw [hhigh (k + 1) k hk (Nat.lt_succ_self k)] at he
    obtain ⟨L', hL', hag⟩ := hG.matched k e (hfs.trans hk) he
    exact ⟨L', hL', (hhigh (k + 1)).trans (hag.mono hfs le_rfl)⟩

section Elected

variable {U t : ℕ} {F : List ε} {c : ν} {V : Finset ν}
  (hsafe : ∀ T n L, a.committed T n → a.lead T = some L → a.SafeBelow L T n U)
  (hcand : a.cand c U = some (F, t)) (hV : 𝒬.elect V) (hvoted : ∀ v ∈ V, a.voted v U c)

include hsafe hcand hV hvoted

/-- What is committed in an earlier term is known to some voter, provided that every
leader in between has it. -/
theorem Inv.carried_of_elected (h : Inv 𝒬 a) {T n : ℕ} {L : List ε} (hc : a.committed T n)
    (hL : a.lead T = some L) (hTU : T < U) : Carried F t L T n := by
  obtain ⟨L₀, hL₀, -, Q, hQ, hack⟩ := h.committed_ack T n hc
  obtain ⟨v, hvV, hvQ⟩ := 𝒬.meet V Q hV hQ
  exact h.vote_held v U c F t T n L (hvoted v hvV) hcand (hack v hvQ) hL hTU (hsafe T n L hc hL)

/-- A log that won an election has the last term it claimed: what is committed beyond
a log with another claim speaks against it with some voter. -/
theorem Inv.lastTerm_of_elected (h : Inv 𝒬 a) : t = lastTerm F := by
  obtain ⟨-, B, f, hB, -, hclaim⟩ := h.cand c U F t hcand
  rcases hclaim with heq | ⟨-, T, n, hT, htT, hn, hc⟩
  · exact heq
  · obtain ⟨L, hL, -⟩ := h.committed_ack T n hc
    have := (h.carried_of_elected hsafe hcand hV hvoted hc hL (hT.trans_lt hB)).1
    omega

/-- A log that won an election has what was committed in an earlier term. -/
theorem Inv.agree_of_elected (h : Inv 𝒬 a) {T n : ℕ} {L : List ε} (hc : a.committed T n)
    (hL : a.lead T = some L) (hTU : T < U) : Agree 0 n L F ∧ n ≤ F.length := by
  obtain ⟨L₀, hL₀, hown, -⟩ := h.committed_ack T n hc
  obtain rfl : L = L₀ := Option.some.inj (hL.symm.trans hL₀)
  have hF := (h.carried_of_elected hsafe hcand hV hvoted hc hL hTU).2
    (h.lastTerm_of_elected hsafe hcand hV hvoted)
  exact ⟨hF.symm, hF.symm.length_le (termAt_le_length hown)⟩

end Elected

/-- **Leader completeness.** What is committed in a term is in the log of the
leader of every later term. -/
theorem Inv.leader_completeness (h : Inv 𝒬 a)
    {T n : ℕ} {L : List ε}
    (hc : a.committed T n) (hL : a.lead T = some L) :
    ∀ U L', T < U → a.lead U = some L' → Agree 0 n L L' := by
  intro U
  -- about every position at once: the new leader's claim is about another one
  induction U using Nat.strong_induction_on generalizing T n L with
  | _ U ih =>
      intro L' hTU hL'
      obtain ⟨c, V, F, t, hV, hvoted, hcand, hpre, _⟩ := h.elected U L' hL'
      obtain ⟨hLF, hlen⟩ := h.agree_of_elected
        (fun T n L hc hL U' L'' hT hU hL'' => ih U' hU hc hL L'' hT hL'') hcand hV hvoted hc hL hTU
      exact hLF.extend hlen hpre

theorem Inv.safeBelow (h : Inv 𝒬 a) (U T n : ℕ) (L : List ε) (hc : a.committed T n)
    (hL : a.lead T = some L) : a.SafeBelow L T n U :=
  fun U' L' hT _ hL' => h.leader_completeness hc hL U' L' hT hL'

/-- A committed beginning of a log is in the log of every leader that is not
older than the commitment. -/
theorem Inv.committedUpTo_lead (h : Inv 𝒬 a)
    {F L : List ε} {c B U : ℕ}
    (hc : a.CommittedUpTo F c B) (hL : a.lead U = some L) (hBU : B ≤ U) :
    Agree 0 c F L ∧ c ≤ L.length := by
  rcases hc with rfl | ⟨T, n, L', hT, hcom, hL', hcn, hn, hag⟩
  · exact ⟨Agree.empty le_rfl, Nat.zero_le _⟩
  · rcases (hT.trans hBU).eq_or_lt with rfl | hlt
    · obtain rfl : L' = L := Option.some.inj (hL'.symm.trans hL)
      exact ⟨hag, hcn.trans hn⟩
    · have hLL := (h.leader_completeness hcom hL' U L hlt hL).mono le_rfl hcn
      exact ⟨hag.trans hLL, hLL.length_le (hcn.trans hn)⟩

/-- A leader of a later term has a committed beginning already when it is elected,
even if the commitment comes after the election. -/
theorem Inv.committedUpTo_lead_of_le {b : State ν ε} (h : Inv 𝒬 a) (h' : Inv 𝒬 b) (hab : a ≤ b)
    {F L : List ε} {c B U : ℕ} (hc : b.CommittedUpTo F c B) (hL : a.lead U = some L)
    (hBU : B < U) : Agree 0 c F L := by
  rcases hc with rfl | ⟨T, n, L', hT, hcom, hL', hcn, -, hag⟩
  · exact Agree.empty le_rfl
  · obtain ⟨q, V, G, t, hV, hvoted, hcand, hpre, -⟩ := h.elected U L hL
    obtain ⟨hLG, hlen⟩ := h'.agree_of_elected (h'.safeBelow U) (hab.cand_eq q U _ hcand) hV
      (fun v hv => hab.voted_imp v U q (hvoted v hv)) hcom hL' (hT.trans_lt hBU)
    exact hag.trans ((hLG.extend hlen hpre).mono le_rfl hcn)

/-- What two positions of committed logs hold is the same. -/
theorem Inv.chosen_unique (h : Inv 𝒬 a)
    {k : ℕ} {e e' : ε}
    (he : a.Chosen k e) (he' : a.Chosen k e') : e = e' := by
  obtain ⟨T, n, L, hc, hL, hk, hLk⟩ := he
  obtain ⟨T', n', L', hc', hL', hk', hLk'⟩ := he'
  have hLL' : L[k]? = L'[k]? := by
    rcases lt_trichotomy T T' with hlt | rfl | hlt
    · exact h.leader_completeness hc hL T' L' hlt hL' k (Nat.zero_le k) hk
    · rw [Option.some.inj (hL.symm.trans hL')]
    · exact (h.leader_completeness hc' hL' T L hlt hL k (Nat.zero_le k) hk').symm
  rw [hLk, hLk'] at hLL'
  exact Option.some.inj hLL'

/-- The log of the leader who made a committed entry holds what is committed before that entry. -/
theorem Inv.chosen_below (h : Inv 𝒬 a)
    {m n : ℕ} {x y : ε} {L : List ε}
    (hx : a.Chosen m x) (hy : a.Chosen n y) (hmn : m < n) (hL : a.lead (termOf y) = some L) :
    L[m]? = some x := by
  -- it is enough to find both entries in one leader's log, of whatever term
  have hone {T : ℕ} {M : List ε} (hM : a.lead T = some M) (hMm : M[m]? = some x)
      (hMn : M[n]? = some y) : L[m]? = some x := by
    obtain ⟨L', hL', hag⟩ := h.lead_match T M hM n y hMn
    obtain rfl : L = L' := Option.some.inj (hL.symm.trans hL')
    rw [← hag m (Nat.zero_le m) (by omega), hMm]
  obtain ⟨T, i, M, hc, hM, hi, hMm⟩ := hx
  obtain ⟨T', i', M', hc', hM', hi', hMn⟩ := hy
  rcases lt_trichotomy T T' with hlt | rfl | hlt
  · refine hone hM' ?_ hMn
    rw [← h.leader_completeness hc hM T' M' hlt hM' m (Nat.zero_le m) hi, hMm]
  · obtain rfl : M = M' := Option.some.inj (hM.symm.trans hM')
    exact hone hM hMm hMn
  · refine hone hM hMm ?_
    rw [← h.leader_completeness hc' hM' T M hlt hM n (Nat.zero_le n) hi', hMn]

/-- **Log matching.** A log that has the same term as a leader's log at some
index above its floor has the same entries up to that index. -/
theorem Inv.agree_of_termAt (h : Inv 𝒬 a)
    {F L : List ε} {f B U k t : ℕ}
    (hF : a.Sound F f B) (hL : a.lead U = some L) (hBU : B ≤ U) (hfk : f ≤ k)
    (htF : termAt F k = some t) (htL : termAt L k = some t) : Agree 0 k F L := by
  have hlow : Agree 0 f F L := (h.committedUpTo_lead hF.committed hL hBU).1
  rcases hfk.eq_or_lt with rfl | hlt
  · exact hlow
  · obtain ⟨j, rfl⟩ : ∃ j, k = j + 1 := ⟨k - 1, by omega⟩
    obtain ⟨e, he, rfl⟩ := termAt_succ_eq_some.mp htF
    obtain ⟨e', he', het⟩ := termAt_succ_eq_some.mp htL
    obtain ⟨L₁, hL₁, hag⟩ := hF.matched j e (by omega) he
    obtain ⟨L₂, hL₂, hag'⟩ := h.lead_match U L hL j e' he'
    rw [het, hL₁] at hL₂
    obtain rfl : L₁ = L₂ := Option.some.inj hL₂
    exact hlow.join (hag.trans (hag'.symm.mono (Nat.zero_le f) le_rfl))

/-- Two sound logs that have an entry of the same term at a position agree there and
before it, above both floors. -/
theorem State.Sound.agree {F G : List ε} {f g B B' k : ℕ} {e e' : ε} (hF : a.Sound F f B)
    (hG : a.Sound G g B') (hf : f ≤ k) (hg : g ≤ k) (he : F[k]? = some e) (he' : G[k]? = some e')
    (hterm : termOf e = termOf e') : Agree (max f g) (k + 1) F G := by
  obtain ⟨L, hL, hFL⟩ := hF.matched k e hf he
  obtain ⟨L', hL', hGL⟩ := hG.matched k e' hg he'
  rw [← hterm, hL] at hL'
  obtain rfl : L = L' := Option.some.inj hL'
  exact (hFL.mono (Nat.le_max_left f g) le_rfl).trans
    (hGL.mono (Nat.le_max_right f g) le_rfl).symm

/-- Terms along a sound log never go down above the floor. -/
theorem Inv.sorted_of_sound (h : Inv 𝒬 a) {F : List ε} {f B j k : ℕ} {e e' : ε}
    (hF : a.Sound F f B) (hfj : f ≤ j) (hjk : j ≤ k) (he : F[j]? = some e)
    (he' : F[k]? = some e') : termOf e ≤ termOf e' := by
  obtain ⟨L, hL, hag⟩ := hF.matched k e' (hfj.trans hjk) he'
  rw [hag j hfj (by omega)] at he
  rw [hag k (hfj.trans hjk) (Nat.lt_succ_self k)] at he'
  exact h.lead_sorted _ L hL j k e e' hjk he he'

/-- A sound log and the log of a leader that share a term agree up to where the sound
log has it, provided that the leader's log reaches that far with it. -/
theorem Inv.agree_of_common_term (h : Inv 𝒬 a) {F L : List ε} {f B U i k : ℕ} {e e' : ε}
    (hF : a.Sound F f B) (hL : a.lead U = some L) (hfk : f ≤ k) (hki : k ≤ i)
    (he : F[k]? = some e) (he' : L[i]? = some e') (hterm : termOf e = termOf e') :
    Agree f (k + 1) F L := by
  obtain ⟨L₁, hL₁, hFL₁⟩ := hF.matched k e hfk he
  obtain ⟨L₂, hL₂, hLL₂⟩ := h.lead_match U L hL i e' he'
  rw [← hterm, hL₁] at hL₂
  obtain rfl : L₁ = L₂ := Option.some.inj hL₂
  exact hFL₁.trans (hLL₂.mono (Nat.zero_le f) (by omega)).symm

/-- The log of a leader is sound. -/
theorem Inv.sound_lead (h : Inv 𝒬 a) {U : ℕ} {L : List ε} (hL : a.lead U = some L) :
    a.Sound L 0 U where
  le := h.lead_term_le U L hL
  floor_le := Nat.zero_le _
  committed := Or.inl rfl
  matched k e _ he := h.lead_match U L hL k e he

/-- Terms along a sound log never go down. -/
theorem Inv.termAt_mono (h : Inv 𝒬 a) {F : List ε} {B j k t t' : ℕ} (hF : a.Sound F 0 B)
    (hjk : j ≤ k) (hj : termAt F j = some t) (hk : termAt F k = some t') : t ≤ t' := by
  cases j with
  | zero =>
      simp only [termAt_zero, Option.some.injEq] at hj
      omega
  | succ j =>
      obtain ⟨k, rfl⟩ : ∃ m, k = m + 1 := ⟨k - 1, by omega⟩
      obtain ⟨e, he, rfl⟩ := termAt_succ_eq_some.mp hj
      obtain ⟨e', he', rfl⟩ := termAt_succ_eq_some.mp hk
      exact h.sorted_of_sound hF (Nat.zero_le j) (by omega) he he'

/-- A term that is given for an index is not below the term there. -/
theorem Inv.le_of_stamped (h : Inv 𝒬 a) {F : List ε} {s t t' B : ℕ} (hst : a.Stamped F s t B)
    (ht : termAt F s = some t') : t' ≤ t := by
  rcases hst with heq | ⟨G, k, hsk, hag, hk, rfl | ⟨T, n, L, -, -, hL, -, -, hGL⟩⟩
  · exact (Option.some.inj (ht.symm.trans heq)).le
  · omega
  · rw [termAt_congr hag le_rfl, termAt_congr hGL hsk.le] at ht
    rw [termAt_congr hGL le_rfl] at hk
    exact h.termAt_mono (h.sound_lead hL) hsk.le ht hk

/-- A node can claim as its last term what is given for the end of its log. -/
theorem Inv.claim_of_stamped (h : Inv 𝒬 a) {F : List ε} {t B : ℕ}
    (hst : a.Stamped F F.length t B) : a.Claim F t B := by
  have hle := h.le_of_stamped hst (termAt_length F)
  rcases hst with heq | ⟨G, k, hk, -, ht, rfl | ⟨T, n, L, hT, hc, hL, hkn, -, hGL⟩⟩
  · exact Or.inl (Option.some.inj (heq.symm.trans (termAt_length F)))
  · omega
  · rw [termAt_congr hGL le_rfl] at ht
    exact Or.inr ⟨hle, T, n, hT, h.termAt_lead_le hL ht, hk.trans_le hkn, hc⟩

/-- A term that a leader gives for an index, and that a sound log has there above its
floor, is the term of the leader's own entry. -/
theorem Inv.termAt_of_stamped (h : Inv 𝒬 a) {F G L : List ε} {f B U s t : ℕ} (hG : a.Sound G f B)
    (hL : a.lead U = some L) (hpre : F <+: L) (hst : a.Stamped F s t U) (hfs : f < s)
    (ht : termAt G s = some t) : termAt F s = some t := by
  have hFL := (Agree.of_isPrefix hpre).mono le_rfl hst.le_length
  rcases hst with heq | ⟨H, k, hsk, -, hk, hcom⟩
  · exact heq
  · rw [termAt_congr (h.committedUpTo_lead hcom hL le_rfl).1 le_rfl] at hk
    obtain ⟨j, rfl⟩ : ∃ j, s = j + 1 := ⟨s - 1, by omega⟩
    obtain ⟨i, rfl⟩ : ∃ i, k = i + 1 := ⟨k - 1, by omega⟩
    obtain ⟨e, he, het⟩ := termAt_succ_eq_some.mp ht
    obtain ⟨e', he', het'⟩ := termAt_succ_eq_some.mp hk
    have hGL := h.agree_of_common_term hG hL (by omega) (by omega) he he' (het.trans het'.symm)
    rw [termAt_congr hFL le_rfl]
    exact termAt_succ_eq_some.mpr ⟨e, by rw [← hGL j (by omega) (by omega), he], het⟩

/-- An entry of a sound log is where the leader of its term has it. -/
theorem Inv.matched_at (h : Inv 𝒬 a) {F : List ε} {f B k : ℕ} {e : ε}
    (hF : a.Sound F f B) (he : F[k]? = some e) :
    ∃ L, a.lead (termOf e) = some L ∧ Agree f (k + 1) F L ∧ L[k]? = some e := by
  by_cases hk : f ≤ k
  · obtain ⟨L, hL, hag⟩ := hF.matched k e hk he
    exact ⟨L, hL, hag, by rw [← hag k hk (Nat.lt_succ_self k), he]⟩
  · rcases hF.committed with rfl | ⟨T, n, L, _, _, hL, _, _, hag⟩
    · omega
    · have hLk : L[k]? = some e := by rw [← hag k (Nat.zero_le k) (by omega), he]
      obtain ⟨L', hL', hag'⟩ := h.lead_match T L hL k e hLk
      exact ⟨L', hL', Agree.empty (by omega),
        by rw [← hag' k (Nat.zero_le k) (Nat.lt_succ_self k), hLk]⟩

/-- A committed beginning agrees with a position that all leaders so far have. -/
theorem Inv.agree_of_safeBelow (h : Inv 𝒬 a) {F L : List ε} {f B T n U : ℕ}
    (hF : a.CommittedUpTo F f B) (hBU : B < U) (hL : a.lead T = some L)
    (hsafe : a.SafeBelow L T n U) : Agree 0 (min f n) F L := by
  rcases hF with rfl | ⟨T', n', L', hT', hcom, hL', hfn, _, hag⟩
  · exact Agree.empty (by omega)
  · have hFL' := hag.mono le_rfl (Nat.min_le_left f n)
    refine hFL'.trans ?_
    rcases lt_trichotomy T' T with hlt | rfl | hlt
    · exact (h.leader_completeness hcom hL' T L hlt hL).mono le_rfl (by omega)
    · rw [Option.some.inj (hL'.symm.trans hL)]
      exact Agree.refl _ _ _
    · exact (hsafe T' L' hlt (by omega) hL').symm.mono le_rfl (Nat.min_le_right f n)

theorem lastTerm_ge {G L : List ε} {T n : ℕ} (hG : Holds G L T n) (hn : 0 < n)
    (hlen : n ≤ G.length) : T ≤ lastTerm G := by
  obtain ⟨k, hk⟩ : ∃ k, G.length = k + 1 := ⟨G.length - 1, by omega⟩
  have hlast := termAt_length G
  rw [hk] at hlast
  obtain ⟨e, he, het⟩ := termAt_succ_eq_some.mp hlast
  rw [← het]
  exact hG.2 k e (by omega) he

/-- The comparison of logs at a vote carries an acknowledged position from the
voter to the candidate. -/
theorem Inv.carried_of_upToDate (h : Inv 𝒬 a) {F G L : List ε} {f B T n U t : ℕ}
    (hF : a.Sound F f B) (hBU : B < U) (hL : a.lead T = some L)
    (hown : termAt L n = some T) (hsafe : a.SafeBelow L T n U) (hG : Holds G L T n)
    (hup : UpToDate F t G) : Carried F t L T n := by
  have hTpos : 0 < T := h.lead_pos T L hL
  obtain ⟨k, eL, rfl, hkL, -⟩ := termAt_pos hown hTpos
  have hnG : k + 1 ≤ G.length := hG.1.symm.length_le (termAt_le_length hown)
  have hTG : T ≤ lastTerm G := lastTerm_ge hG (Nat.succ_pos k) hnG
  have hreach : T < t ∨ T = t ∧ k + 1 ≤ F.length := by
    rcases hup with hlt | ⟨heq, hlen⟩
    · omega
    · omega
  refine ⟨hreach, ?_⟩
  rintro rfl
  have hTF : T ≤ lastTerm F := by omega
  obtain ⟨m, e, hm, he, het⟩ := termAt_pos (termAt_length F) (by omega)
  obtain ⟨L', hL', hag, hLm⟩ := h.matched_at hF he
  rw [het] at hL'
  have heB := hF.le e (List.mem_of_getElem? he)
  -- the leader of the candidate's last term has the position, inside the candidate's log
  obtain ⟨hLL', hkF⟩ : Agree 0 (k + 1) L L' ∧ k + 1 ≤ F.length := by
    rcases hTF.eq_or_lt with heq | hlt
    · rw [← heq, hL] at hL'
      obtain rfl : L = L' := Option.some.inj hL'
      exact ⟨Agree.refl _ _ _, by omega⟩
    · have hLL' := hsafe (lastTerm F) L' hlt (by omega) hL'
      refine ⟨hLL', ?_⟩
      by_contra hge
      have hmL := hLL' m (Nat.zero_le m) (by omega)
      rw [hLm] at hmL
      have := h.lead_term_le T L hL e (List.mem_of_getElem? hmL)
      omega
  have hlow := h.agree_of_safeBelow hF.committed hBU hL hsafe
  intro j hj hjk
  by_cases hjf : j < f
  · exact hlow j hj (by omega)
  · rw [hag j (by omega) (by omega), hLL' j hj hjk]

/-- A log that was elected agrees throughout with the leader of its last term. -/
theorem Inv.agree_of_voted (h : Inv 𝒬 a) {F : List ε} {f B U t : ℕ} {c : ν} {V : Finset ν}
    (hF : a.Sound F f B) (hBU : B < U) (hcand : a.cand c U = some (F, t)) (hV : 𝒬.elect V)
    (hvoted : ∀ v ∈ V, a.voted v U c) {k : ℕ} {e : ε} (he : F[k]? = some e) :
    ∃ L, a.lead (termOf e) = some L ∧ Agree 0 (k + 1) F L := by
  obtain ⟨m, hm⟩ : ∃ m, F.length = m + 1 :=
    ⟨F.length - 1, by have := (List.getElem?_eq_some_iff.mp he).1; omega⟩
  have hlast := termAt_length F
  rw [hm] at hlast
  obtain ⟨e', he', het'⟩ := termAt_succ_eq_some.mp hlast
  obtain ⟨L, hL, hag, hLm⟩ := h.matched_at hF he'
  have hlow : Agree 0 f F L := by
    rcases hF.committed with rfl | ⟨T, n, L', hT, hcom, hL', hfn, hn, hFL'⟩
    · exact Agree.empty le_rfl
    · have hclaim := h.lastTerm_of_elected (h.safeBelow U) hcand hV hvoted
      have hTF := (h.carried_of_elected (h.safeBelow U) hcand hV hvoted hcom hL' (by omega)).1
      have hcom' : a.CommittedUpTo F f T := Or.inr ⟨T, n, L', le_rfl, hcom, hL', hfn, hn, hFL'⟩
      exact (h.committedUpTo_lead hcom' hL (by omega)).1
  have hall : Agree 0 (m + 1) F L := hlow.join hag
  have hk : k < m + 1 := by have := (List.getElem?_eq_some_iff.mp he).1; omega
  have hLk : L[k]? = some e := by rw [← hall k (Nat.zero_le k) hk, he]
  obtain ⟨L', hL', hag'⟩ := h.lead_match _ L hL k e hLk
  exact ⟨L', hL', (hall.mono le_rfl hk).trans hag'⟩

/-- A leader's own entries do not count towards what an older term's log is
compared with. -/
theorem Inv.agree_of_append (h : Inv 𝒬 a) {T n U : ℕ} {L L' : List ε} {e : ε}
    (hL : a.lead T = some L) (hTU : T < U) (he : termOf e = U)
    (hag : Agree 0 n L (L' ++ [e])) : Agree 0 n L L' := by
  have hn : n ≤ L'.length := by
    by_contra hlt
    have hpos := hag L'.length (Nat.zero_le _) (Nat.lt_of_not_le hlt)
    rw [List.getElem?_concat_length] at hpos
    have := h.lead_term_le T L hL e (List.mem_of_getElem? hpos)
    omega
  intro j hj hjn
  rw [hag j hj hjn, List.getElem?_append_left (hjn.trans_le hn)]

/-- An acknowledged position is inside the old log of its term. -/
theorem Inv.exists_lead_of_ack (h : Inv 𝒬 a) {b : State ν ε} (hle : a ≤ b) {q : ν} {T n : ℕ}
    {L : List ε} (ha : a.ack q T n) (hL : b.lead T = some L) :
    ∃ L₀, a.lead T = some L₀ ∧ n ≤ L₀.length ∧ Agree 0 n L₀ L := by
  obtain ⟨-, L₀, hL₀, hown⟩ := h.ack_own q T n ha
  obtain ⟨L₁, hL₁, hpre⟩ := hle.lead_le T L₀ hL₀
  obtain rfl : L₁ = L := Option.some.inj (hL₁.symm.trans hL)
  have hlen := termAt_le_length hown
  exact ⟨L₀, hL₀, hlen, (Agree.of_isPrefix hpre).mono le_rfl hlen⟩

/-- A leader's log stays in the order of the terms when it gets an entry of its own term. -/
theorem Inv.sorted_concat (h : Inv 𝒬 a) {U j k : ℕ} {L : List ε} {e e₁ e₂ : ε}
    (hL : a.lead U = some L) (he : termOf e = U) (hjk : j ≤ k) (he₁ : (L ++ [e])[j]? = some e₁)
    (he₂ : (L ++ [e])[k]? = some e₂) : termOf e₁ ≤ termOf e₂ := by
  rcases Growth.getElem?_concat_cases he₂ with ⟨-, hin⟩ | ⟨rfl, rfl⟩
  · have hlt : k < L.length := (List.getElem?_eq_some_iff.mp hin).1
    rw [List.getElem?_append_left (by omega)] at he₁
    exact h.lead_sorted U L hL j k e₁ e₂ hjk he₁ hin
  · rcases Growth.getElem?_concat_cases he₁ with ⟨-, hin⟩ | ⟨-, rfl⟩
    · exact (h.lead_term_le U L hL e₁ (List.mem_of_getElem? hin)).trans he.ge
    · exact le_rfl

end Consequences

end ReplicatedLog

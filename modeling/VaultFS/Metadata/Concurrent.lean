import VaultFS.Interaction.Serial
import VaultFS.Metadata.Namespace

/-!
# Concurrent calls on one namespace

The methods of `internal/metadata/namespace.go` as programs of store accesses: a `Get`, a `Put`, a
`Delete`, or the commit of the transaction of `Rename`, which reads nothing and so is never
aborted. There is no lock, and other calls come between the accesses of one. Each call reads the
clock at most once; the reading is given with it.

A call looks first and writes later. If what it found has changed in between, it writes all the
same, and the calls are then not like calls one after the other. In runs in which that does not
happen (`Undisturbed`) they are (`calls_serializable`).
-/

namespace VaultFS.Metadata

open KeyValue Interaction Transition

/-- An access to the store. -/
inductive Access where
  | get (path : List Char)
  | put (info : FileInfo)
  | delete (path : List Char)
  /-- Commit the transaction that writes an inode and deletes another one. -/
  | commit (info : FileInfo) (src : List Char)

abbrev Access.Res : Access → Type
  | .get _ => Option FileInfo
  | _ => Unit

/-- What a method returns. -/
inductive Outcome where
  | plain (r : Except Error Unit)
  | rename (r : Except RenameError Unit)
  deriving DecidableEq

def Outcome.isOk : Outcome → Bool
  | .plain (.ok ()) => true
  | .rename (.ok ()) => true
  | _ => false

inductive Call where
  | createFile (info : FileInfo)
  | createDir (path : List Char)
  | updateFile (info : FileInfo)
  | deleteFile (path : List Char)
  | rename (src dst : List Char)
  deriving DecidableEq

abbrev Method := Prog Access.Res Outcome

namespace Method

/-- The access of `Stat`. -/
def stat (path : List Char) : Prog Access.Res (Option FileInfo) := Prog.op (Access.get path)

/-- One more access if the path is stored, or missing, as it should be. -/
def check (path : List Char) (stored : Bool) (err : Error) (write : Access) : Method := do
  if (← stat path).isSome = stored then
    let _ ← Prog.op write
    return .plain (.ok ())
  else return .plain (.error err)

variable (now : Time)

def createFile (info : FileInfo) : Method :=
  check info.path false (.alreadyExists info.path)
    (.put { info with createdAt := now, updatedAt := now })

def createDir (path : List Char) : Method :=
  check path false (.alreadyExists path)
    (.put { path, isDir := true, mode := 493, createdAt := now, updatedAt := now })

def updateFile (info : FileInfo) : Method :=
  check info.path true (.notFound info.path) (.put { info with updatedAt := now })

def deleteFile (path : List Char) : Method := check path true (.notFound path) (.delete path)

def rename (src dst : List Char) : Method := do
  match ← stat src with
  | none => return .rename (.error (.source (.notFound src)))
  | some fi =>
      match ← stat dst with
      | some _ => return .rename (.error .destinationExists)
      | none =>
          let _ ← Prog.op (Access.commit { fi with path := dst, updatedAt := now } src)
          return .rename (.ok ())

end Method

namespace Call

def method (now : Time) : Call → Method
  | .createFile info => .createFile now info
  | .createDir path => .createDir now path
  | .updateFile info => .updateFile now info
  | .deleteFile path => .deleteFile path
  | .rename src dst => .rename now src dst

/-- The inode that the call copies. -/
def source : Call → Option (List Char)
  | .rename src _ => some src
  | _ => none

/-- A path at which the call, if it succeeds, puts something new. -/
def creates : Call → Option (List Char)
  | .createFile info => some info.path
  | .createDir path => some path
  | .rename _ dst => some dst
  | _ => none

/-- A path at which nothing is left when the call succeeds. -/
def removes : Call → Option (List Char)
  | .deleteFile path => some path
  | .rename src _ => some src
  | _ => none

variable {σ : Type*} [Store σ Char FileInfo]

/-- The call as the namespace's method does it when nothing else goes on. -/
def run (now : Time) (s : σ) : Call → Outcome × σ
  | .createFile info =>
      let (ns, r) := Namespace.createFile (fun _ => now) ⟨s, 0⟩ info
      (.plain r, ns.store)
  | .createDir path =>
      let (ns, r) := Namespace.createDir (fun _ => now) ⟨s, 0⟩ path
      (.plain r, ns.store)
  | .updateFile info =>
      let (ns, r) := Namespace.updateFile (fun _ => now) ⟨s, 0⟩ info
      (.plain r, ns.store)
  | .deleteFile path =>
      let (ns, r) := Namespace.deleteFile ⟨s, 0⟩ path
      (.plain r, ns.store)
  | .rename src dst =>
      let (ns, r) := Namespace.rename (fun _ => now) ⟨s, 0⟩ src dst
      (.rename r, ns.store)

end Call

variable {σ : Type*} [Store σ Char FileInfo]

def access (s : σ) : (o : Access) → o.Res × σ
  | .get path => (get s (nsKey path), s)
  | .put info => ((), put s (nsKey info.path) info)
  | .delete path => ((), delete s (nsKey path))
  | .commit info src => ((), delete (put s (nsKey info.path) info) (nsKey src))

/-- What the call has found is still so: a path is stored if it was and missing if it was, and the
inode that is to be copied is the same. -/
def StillSo (call : Call) (s : σ) : Sigma Access.Res → Prop
  | ⟨.get path, c⟩ => (get s (nsKey path)).isSome = c.isSome ∧
      (call.source = some path → get s (nsKey path) = c)
  | _ => True

instance (call : Call) (s : σ) (x : Sigma Access.Res) : Decidable (StillSo call s x) :=
  match x with
  | ⟨.get _, _⟩ => inferInstanceAs (Decidable (_ ∧ _))
  | ⟨.put _, _⟩ => isTrue trivial
  | ⟨.delete _, _⟩ => isTrue trivial
  | ⟨.commit _ _, _⟩ => isTrue trivial

variable {ι : Type*}

abbrev Calls (ι σ : Type*) := Pool Access.Res ι σ Outcome

def Calls.start (calls : ι → Call) (clock : ι → Time) (s : σ) : Calls ι σ :=
  Pool.start (fun i => (calls i).method (clock i)) s

/-- The call makes an access while all that it has found is still so. -/
def Undisturbed (calls : ι → Call) (w : Calls ι σ) (i : ι) : Prop :=
  ∀ x ∈ w.told i, StillSo (calls i) w.shared x

instance (calls : ι → Call) (w : Calls ι σ) (i : ι) : Decidable (Undisturbed calls w i) :=
  inferInstanceAs (Decidable (∀ x ∈ w.told i, _))

/-- The store after calls that are made one after the other. -/
def oneByOne (calls : ι → Call) (clock : ι → Time) (s : σ) (order : List ι) : σ :=
  order.foldl (fun s i => ((calls i).run (clock i) s).2) s

/-- The calls that have returned could have been made one after the other. -/
structure Sequential (calls : ι → Call) (clock : ι → Time) (s : σ) (w : Calls ι σ)
    (order : List ι) : Prop where
  nodup : order.Nodup
  returned : ∀ i, i ∈ order ↔ ∃ r, w.threads i = .ret r
  store : w.shared = oneByOne calls clock s order
  results : ∀ before i after, order = before ++ i :: after →
    w.threads i = .ret ((calls i).run (clock i) (oneByOne calls clock s before)).1

def Succeeded (w : Calls ι σ) (i : ι) : Prop := ∃ r, w.threads i = .ret r ∧ r.isOk = true

instance (w : Calls ι σ) (i : ι) : Decidable (Succeeded w i) :=
  match h : w.threads i with
  | .ret r => decidable_of_iff (r.isOk = true) (by simp [Succeeded, h])
  | .ask _ _ => isFalse (by simp [Succeeded, h])

/-- Between two calls that create something at one path there is one that removes it. -/
def Separated (calls : ι → Call) (w : Calls ι σ) (order : List ι) : Prop :=
  ∀ before i mid j after p, order = before ++ i :: (mid ++ j :: after) →
    Succeeded w i → Succeeded w j → (calls i).creates = some p → (calls j).creates = some p →
    ∃ k ∈ mid, Succeeded w k ∧ (calls k).removes = some p

/-! ### The methods -/

theorem writesLast_stat {path : List Char} {f : Option FileInfo → Method}
    (h : ∀ c, (f c).WritesLast (access (σ := σ))) :
    ((Method.stat path).bind f).WritesLast (access (σ := σ)) :=
  Or.inl ⟨fun _ => rfl, h⟩

theorem writesLast_check (path : List Char) (stored : Bool) (err : Error) (write : Access) :
    (Method.check path stored err write).WritesLast (access (σ := σ)) := by
  refine writesLast_stat fun c => ?_
  split
  · exact Or.inr fun _ => ⟨_, rfl⟩
  · trivial

theorem atomic_stat (path : List Char) (f : Option FileInfo → Method) (s : σ) :
    ((Method.stat path).bind f).atomic access s = (f (get s (nsKey path))).atomic access s := rfl

theorem atomic_check (path : List Char) (stored : Bool) (err : Error) (write : Access) (s : σ) :
    (Method.check path stored err write).atomic access s =
      if (get s (nsKey path)).isSome = stored then (.plain (.ok ()), (access s write).2)
      else (.plain (.error err), s) := by
  refine (atomic_stat path _ s).trans ?_
  split
  · rfl
  · rfl

namespace Call

theorem method_ask (now : Time) (call : Call) : ∃ o next, call.method now = .ask o next := by
  cases call <;> exact ⟨_, _, rfl⟩

theorem writesLast_method (now : Time) (call : Call) :
    (call.method now).WritesLast (access (σ := σ)) := by
  cases call with
  | createFile info => exact writesLast_check ..
  | createDir path => exact writesLast_check ..
  | updateFile info => exact writesLast_check ..
  | deleteFile path => exact writesLast_check ..
  | rename src dst =>
      refine writesLast_stat ?_
      rintro (_ | fi)
      · trivial
      · refine writesLast_stat ?_
        rintro (_ | fi')
        · exact Or.inr fun _ => ⟨_, rfl⟩
        · trivial

/-- Without other calls in between, a method of accesses is the method of the namespace. -/
theorem atomic_method (now : Time) (call : Call) (s : σ) :
    (call.method now).atomic access s = call.run now s := by
  cases call with
  | createFile info =>
      refine (atomic_check ..).trans ?_
      simp only [run, Namespace.createFile, Namespace.stat, Namespace.find]
      cases get s (nsKey info.path) with
      | none => rfl
      | some fi => rfl
  | createDir path =>
      refine (atomic_check ..).trans ?_
      simp only [run, Namespace.createDir, Namespace.stat, Namespace.find]
      cases get s (nsKey path) with
      | none => rfl
      | some fi => rfl
  | updateFile info =>
      refine (atomic_check ..).trans ?_
      simp only [run, Namespace.updateFile, Namespace.stat, Namespace.find]
      cases get s (nsKey info.path) with
      | none => rfl
      | some fi => rfl
  | deleteFile path =>
      refine (atomic_check ..).trans ?_
      simp only [run, Namespace.deleteFile, Namespace.stat, Namespace.find]
      cases get s (nsKey path) with
      | none => rfl
      | some fi => rfl
  | rename src dst =>
      refine (atomic_stat src _ s).trans ?_
      simp only [run, Namespace.rename, Namespace.stat, Namespace.find]
      cases get s (nsKey src) with
      | none => rfl
      | some fi =>
          refine (atomic_stat dst _ s).trans ?_
          cases get s (nsKey dst) with
          | none => rfl
          | some fi' => rfl

/-! ### A call whose findings are still so is up to date -/

section UpToDate

variable {path : List Char} {f : Option FileInfo → Method} {l : List (Sigma Access.Res)}
  {o : Access} {next : o.Res → Method} {p : Method}

theorem follows_stat (h : Follows ((Method.stat path).bind f) l p) :
    l = [] ∧ p = (Method.stat path).bind f ∨
      ∃ c l', l = ⟨.get path, c⟩ :: l' ∧ Follows (f c) l' p := by
  cases h with
  | nil => exact Or.inl ⟨rfl, rfl⟩
  | cons h => exact Or.inr ⟨_, _, rfl, h⟩

theorem eq_of_follows_write {o' : Access} {a : Outcome}
    (h : Follows ((Prog.op o').bind fun _ => .ret a) l (.ask o next)) :
    l = [] ∧ Prog.ask o next = (Prog.op o').bind fun _ => .ret a := by
  cases h with
  | nil => exact ⟨rfl, rfl⟩
  | cons h => cases h

theorem replays_stat_of {s : σ} (h : Replays access s (f (get s (nsKey path))) p) :
    Replays access s ((Method.stat path).bind f) p :=
  .ask rfl h

/-- A method that goes by whether the path is stored, and makes at most one access more. -/
theorem replays_stat {s : σ} (hf : ∀ c c', c.isSome = c'.isSome → f c = f c')
    (hshort : ∀ c l, Follows (f c) l (.ask o next) → l = [] ∧ Prog.ask o next = f c)
    (h : Follows ((Method.stat path).bind f) l (.ask o next))
    (hstored : ∀ c, ⟨.get path, c⟩ ∈ l → (get s (nsKey path)).isSome = c.isSome) :
    Replays access s ((Method.stat path).bind f) (.ask o next) := by
  rcases follows_stat h with ⟨-, heq⟩ | ⟨c, l', rfl, h'⟩
  · rw [heq]
    exact .refl _
  · have hsame : f (get s (nsKey path)) = f c := hf _ _ (hstored c List.mem_cons_self)
    rw [(hshort c l' h').2, ← hsame]
    exact replays_stat_of (.refl _)

theorem replays_check {s : σ} {stored : Bool} {err : Error} {write : Access}
    (h : Follows (Method.check path stored err write) l (.ask o next))
    (hstored : ∀ c, ⟨.get path, c⟩ ∈ l → (get s (nsKey path)).isSome = c.isSome) :
    Replays access s (Method.check path stored err write) (.ask o next) := by
  refine replays_stat ?_ ?_ h hstored
  · intro c c' hsome
    simp only [hsome]
  · intro c l h
    split_ifs at h ⊢
    · exact eq_of_follows_write h
    · cases h

theorem replays_method {now : Time} {call : Call} {s : σ}
    (h : Follows (call.method now) l (.ask o next)) (hstill : ∀ x ∈ l, StillSo call s x) :
    Replays access s (call.method now) (.ask o next) := by
  have hstored : ∀ path c, ⟨.get path, c⟩ ∈ l → (get s (nsKey path)).isSome = c.isSome :=
    fun path c hmem => (hstill _ hmem).1
  cases call with
  | createFile info => exact replays_check h (hstored info.path)
  | createDir path => exact replays_check h (hstored path)
  | updateFile info => exact replays_check h (hstored info.path)
  | deleteFile path => exact replays_check h (hstored path)
  | rename src dst =>
      rcases follows_stat h with ⟨-, heq⟩ | ⟨c, l', rfl, h'⟩
      · rw [heq]
        exact .refl _
      · -- the inode at the source is the one that was read, so what is left to do is the same
        have hsource : get s (nsKey src) = c := (hstill _ List.mem_cons_self).2 rfl
        refine replays_stat_of ?_
        rw [hsource]
        cases c with
        | none => cases h'
        | some fi =>
            refine replays_stat ?_ ?_ h' fun c hmem => hstored dst c (List.mem_cons_of_mem _ hmem)
            · rintro (_ | fi) (_ | fi') hsome <;> first | rfl | cases hsome
            · rintro (_ | fi) l h
              · exact eq_of_follows_write h
              · cases h

end UpToDate

/-! ### Calls one after the other -/

section Lawful

variable [LawfulStore σ]

theorem isSome_get_put (s : σ) (p q : List Char) (info : FileInfo) :
    (get (put s (nsKey p) info) (nsKey q)).isSome ↔ p = q ∨ (get s (nsKey q)).isSome := by
  rw [get_put]
  by_cases h : p = q
  · simp [h]
  · simp [h, Ne.symm h, Namespace.nsKey_inj]

theorem isSome_get_delete (s : σ) (p q : List Char) :
    (get (delete s (nsKey p)) (nsKey q)).isSome ↔ p ≠ q ∧ (get s (nsKey q)).isSome := by
  rw [get_delete]
  by_cases h : p = q
  · simp [h]
  · simp [h, Ne.symm h, Namespace.nsKey_inj]

/-- The call fails and changes nothing, or it finds nothing where it creates something, and the
stored paths change by what it creates and removes. -/
def Careful (now : Time) (call : Call) (s : σ) : Prop :=
  (call.run now s).1.isOk = false ∧ (call.run now s).2 = s ∨
  (call.run now s).1.isOk = true ∧
    (∀ p, call.creates = some p → get s (nsKey p) = none ∧ call.removes ≠ some p) ∧
    ∀ p, (get (call.run now s).2 (nsKey p)).isSome ↔
      call.removes ≠ some p ∧ (call.creates = some p ∨ (get s (nsKey p)).isSome)

theorem careful_create {now : Time} {call : Call} {path : List Char} {info : FileInfo}
    {err : Error} (s : σ) (hmethod : call.method now = .check path false err (.put info))
    (hpath : info.path = path) (hcreates : call.creates = some path)
    (hremoves : call.removes = none) : call.Careful now s := by
  subst hpath
  rw [Careful, ← atomic_method, hmethod, atomic_check, hcreates, hremoves]
  split_ifs with hmissing
  · refine Or.inr ⟨rfl, ?_, fun p => ?_⟩
    · rintro p ⟨⟩
      exact ⟨by simpa using hmissing, by simp⟩
    · simp [access, isSome_get_put]
  · exact Or.inl ⟨rfl, rfl⟩

theorem careful (now : Time) (call : Call) (s : σ) : call.Careful now s := by
  cases call with
  | createFile info => exact careful_create s rfl rfl rfl rfl
  | createDir path => exact careful_create s rfl rfl rfl rfl
  | updateFile info =>
      rw [Careful, ← atomic_method, method, Method.updateFile, atomic_check]
      split_ifs with hstored
      · refine Or.inr ⟨rfl, by simp [creates], fun p => ?_⟩
        have hsame : info.path = p → (get s (nsKey p)).isSome := by
          rintro rfl
          exact hstored
        simpa [access, isSome_get_put, creates, removes] using hsame
      · exact Or.inl ⟨rfl, rfl⟩
  | deleteFile path =>
      rw [Careful, ← atomic_method, method, Method.deleteFile, atomic_check]
      split_ifs with hstored
      · refine Or.inr ⟨rfl, by simp [creates], fun p => ?_⟩
        simp [access, isSome_get_delete, creates, removes]
      · exact Or.inl ⟨rfl, rfl⟩
  | rename src dst =>
      simp only [Careful, run, Namespace.rename, Namespace.stat, Namespace.find]
      cases hsrc : get s (nsKey src) with
      | none => exact Or.inl ⟨rfl, rfl⟩
      | some fi =>
          cases hget : get s (nsKey dst) with
          | some fi' => exact Or.inl ⟨rfl, rfl⟩
          | none =>
              refine Or.inr ⟨rfl, ?_, fun p => ?_⟩
              · rintro p ⟨⟩
                refine ⟨hget, ?_⟩
                rintro ⟨⟩
                rw [hget] at hsrc
                cases hsrc
              · simp [Namespace.write, Namespace.tick, isSome_get_put, isSome_get_delete, creates,
                  removes]

theorem get_of_creates {now : Time} {call : Call} {s : σ} {p : List Char}
    (hok : (call.run now s).1.isOk = true) (hcreates : call.creates = some p) :
    get s (nsKey p) = none ∧ (get (call.run now s).2 (nsKey p)).isSome := by
  rcases call.careful now s with ⟨hfail, -⟩ | ⟨-, hnone, hstored⟩
  · rw [hok] at hfail
    cases hfail
  · exact ⟨(hnone p hcreates).1, (hstored p).mpr ⟨(hnone p hcreates).2, Or.inl hcreates⟩⟩

theorem isSome_get_run {now : Time} {call : Call} {s : σ} {p : List Char}
    (h : (get s (nsKey p)).isSome)
    (hkeeps : (call.run now s).1.isOk = true → call.removes ≠ some p) :
    (get (call.run now s).2 (nsKey p)).isSome := by
  rcases call.careful now s with ⟨-, heq⟩ | ⟨hok, -, hstored⟩
  · rw [heq]
    exact h
  · exact (hstored p).mpr ⟨hkeeps hok, Or.inr h⟩

end Lawful

end Call

variable {calls : ι → Call} {clock : ι → Time} {s : σ} {w : Calls ι σ} {order : List ι}

theorem oneByOne_concat (s : σ) (order : List ι) (i : ι) :
    oneByOne calls clock s (order ++ [i]) =
      ((calls i).run (clock i) (oneByOne calls clock s order)).2 := by
  simp [oneByOne]

theorem Sequential.of_serial
    (h : Serial access (fun i => (calls i).method (clock i)) s w order) :
    Sequential calls clock s w order := by
  have hserial : ∀ before,
      serially access (fun i => (calls i).method (clock i)) s before =
        oneByOne calls clock s before := by
    intro before
    simp only [serially, oneByOne, Call.atomic_method]
  refine ⟨h.nodup, h.ended, ?_, ?_⟩
  · rw [h.shared, hserial]
  · intro before i after heq
    rw [h.results before i after heq, hserial, Call.atomic_method]

theorem Sequential.isOk (h : Sequential calls clock s w order) {before after : List ι} {i : ι}
    (heq : order = before ++ i :: after) :
    Succeeded w i ↔ ((calls i).run (clock i) (oneByOne calls clock s before)).1.isOk = true := by
  rw [Succeeded, h.results before i after heq]
  simp

variable [LawfulStore σ]

/-- What is stored stays so until a call removes it. -/
theorem Sequential.isSome_get (h : Sequential calls clock s w order) {p : List Char}
    {before mid after : List ι} (heq : order = before ++ (mid ++ after))
    (hstored : (get (oneByOne calls clock s before) (nsKey p)).isSome)
    (hkeeps : ∀ k ∈ mid, Succeeded w k → (calls k).removes ≠ some p) :
    (get (oneByOne calls clock s (before ++ mid)) (nsKey p)).isSome := by
  induction mid using List.reverseRecOn generalizing after with
  | nil => simpa using hstored
  | append_singleton mid k ih =>
      rw [← List.append_assoc, oneByOne_concat]
      have heq' : order = before ++ (mid ++ k :: after) := by simp [heq]
      have hbefore := ih heq' fun k' hk' => hkeeps k' (List.mem_append_left _ hk')
      refine Call.isSome_get_run hbefore fun hok => hkeeps k (by simp) ?_
      rw [← List.append_assoc] at heq'
      exact (h.isOk heq').mpr hok

theorem Sequential.separated (h : Sequential calls clock s w order) : Separated calls w order := by
  intro before i mid j after p heq hi hj hcreates hcreates'
  by_contra! hkeeps
  have hi' := (h.isOk heq).mp hi
  have hstored := (Call.get_of_creates hi' hcreates).2
  rw [← oneByOne_concat] at hstored
  have heq' : order = before ++ [i] ++ (mid ++ j :: after) := by simp [heq]
  have hstored' := h.isSome_get heq' hstored hkeeps
  rw [← List.append_assoc] at heq'
  have hj' := (h.isOk heq').mp hj
  rw [(Call.get_of_creates hj' hcreates').1] at hstored'
  cases hstored'

/-- Two calls are made for one path and nothing can be in between, so one of them had to fail. -/
theorem not_sequential {p : List Char} {i j : ι} (hi : Succeeded w i) (hj : Succeeded w j)
    (hne : j ≠ i) (hcreates : (calls i).creates = some p) (hcreates' : (calls j).creates = some p)
    (hkeeps : ∀ k, (calls k).removes ≠ some p) : ¬∃ order, Sequential calls clock s w order := by
  rintro ⟨order, h⟩
  have hmem : ∀ k, Succeeded w k → k ∈ order := by
    rintro k ⟨r, hr, -⟩
    exact (h.returned k).mpr ⟨r, hr⟩
  obtain ⟨before, after, heq⟩ := List.append_of_mem (hmem i hi)
  have hmem' : j ∈ before ∨ j ∈ after := by
    have := heq ▸ hmem j hj
    simpa [hne] using this
  rcases hmem' with hbefore | hafter
  · obtain ⟨before', mid, rfl⟩ := List.append_of_mem hbefore
    rw [List.append_assoc, List.cons_append] at heq
    obtain ⟨k, -, -, hk⟩ := h.separated _ _ _ _ _ _ heq hj hi hcreates' hcreates
    exact hkeeps k hk
  · obtain ⟨mid, after', rfl⟩ := List.append_of_mem hafter
    obtain ⟨k, -, -, hk⟩ := h.separated _ _ _ _ _ _ heq hi hj hcreates hcreates'
    exact hkeeps k hk

variable [DecidableEq ι]

/-- **Concurrent calls.** In a run in which every access is made by a call whose findings are still
so, the calls that have returned could have been made one after the other, with the same results
and the same namespace in the end; in particular, of two calls that create something at one path
the second one succeeds only if a call in between has removed the path. -/
theorem calls_serializable (calls : ι → Call) (clock : ι → Time) (s : σ) (w : Calls ι σ)
    (h : Path (Pool.step access) (Undisturbed calls) (Calls.start calls clock s) w) :
    ∃ order, Sequential calls clock s w order ∧ Separated calls w order := by
  have hfollows : ∀ i, Follows ((calls i).method (clock i)) [] ((calls i).method (clock i)) :=
    fun i => .nil _
  have hpath : Path (Pool.step access) (Current access fun i => (calls i).method (clock i))
      (Calls.start calls clock s) w := by
    refine (h.strengthen (I := fun u => ∀ i, Follows ((calls i).method (clock i)) (u.told i)
      (u.threads i)) hfollows ?_).1
    intro u i u' hu hok hs
    refine ⟨?_, Pool.follows_step hu hs⟩
    obtain ⟨o, next, hi⟩ := Pool.exists_ask hs
    have hfollow := hu i
    rw [hi] at hfollow
    rw [Current, hi]
    exact Call.replays_method hfollow hok
  obtain ⟨order, hserial⟩ := exists_serial (fun i => (calls i).method_ask (clock i))
    (fun i => (calls i).writesLast_method (clock i)) hpath
  have hseq := Sequential.of_serial hserial
  exact ⟨order, hseq, hseq.separated⟩

/-- Two files are created in turns. -/
theorem calls_serializable_turns :
    let calls : Bool → Call := fun b => .createFile { path := ['/', if b then 'b' else 'a'] }
    let s : SortedList Char FileInfo := Store.empty
    let clock : Bool → Time := fun _ => 0
    let w := final (guarded (Pool.step access) (Undisturbed calls)) (Calls.start calls clock s)
      [false, true, true, false]
    Succeeded w false ∧ Succeeded w true ∧
      ∃ order, Sequential calls clock s w order ∧ Separated calls w order := by
  intro calls s clock w
  refine ⟨by decide +kernel, by decide +kernel, ?_⟩
  exact calls_serializable calls clock s w (Path.final (by decide +kernel))

/-- Two calls that create one file both look before either writes, and both succeed; and a file is
created after a rename has looked for it, is lost, and both calls succeed. -/
theorem calls_not_serializable :
    let a := ['/', 'a']
    let b := ['/', 'b']
    let clock : Bool → Time := fun _ => 0
    let s : SortedList Char FileInfo := Store.empty
    let s' := (Call.run 0 s (.createFile { path := a })).2
    let calls : Bool → Call := fun x => .createFile { path := a, size := if x then 1 else 2 }
    let calls' : Bool → Call := fun x =>
      if x then .createFile { path := b, size := 1 } else .rename a b
    let w := final (Pool.step access) (Calls.start calls clock s) [false, true, false, true]
    let w' := final (Pool.step access) (Calls.start calls' clock s')
      [false, false, true, true, false]
    (Succeeded w false ∧ Succeeded w true ∧ ¬∃ order, Sequential calls clock s w order) ∧
      Succeeded w' false ∧ Succeeded w' true ∧
        get w'.shared (nsKey b) = some { path := b, createdAt := 0, updatedAt := 0 } ∧
        ¬∃ order, Sequential calls' clock s' w' order := by
  intro a b clock s s' calls calls' w w'
  have hfirst : Succeeded w false := by decide +kernel
  have hsecond : Succeeded w true := by decide +kernel
  have hrename : Succeeded w' false := by decide +kernel
  have hcreate : Succeeded w' true := by decide +kernel
  refine ⟨⟨hfirst, hsecond, ?_⟩, hrename, hcreate, by decide +kernel, ?_⟩
  · exact not_sequential hfirst hsecond (by decide) rfl rfl (by decide)
  · exact not_sequential (p := b) hrename hcreate (by decide) rfl rfl (by decide)

end VaultFS.Metadata

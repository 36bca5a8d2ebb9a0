import Mathlib.Data.List.DropRight
import Mathlib.Data.List.Infix

/-!
# Paths with a separator

A path is a string over an alphabet with a separator. `render sep [c, d]` is the absolute
path with the components `c` and `d`, which is `/c/d` when the separator is a slash, and a
path is `Normal` when it is the separator alone, the root, or made so from components that
are not empty and have no separator in them.

`Ancestor sep q p` says that `q` is a directory above `p` other than the root. `parents`
finds the ancestors of a path by splitting it; on normal paths it finds all of them and
nothing else (`mem_parents`).

`join` follows a path from a directory and cleans it on the way, by its text alone.
-/

namespace SlashPath

section Definitions

variable {α : Type*} [DecidableEq α] (sep : α)

/-- Cut the separators off both ends. -/
def trim (p : List α) : List α := (p.dropWhile (· == sep)).rdropWhile (· == sep)

def split (p : List α) : List (List α) := p.splitOn sep

def render (parts : List (List α)) : List α := parts.flatMap (sep :: ·)

/-- The paths met when descending from `cur` by all parts but the last. -/
def descend (cur : List α) : List (List α) → List (List α)
  | part :: part' :: parts =>
      (cur ++ sep :: part) :: descend (cur ++ sep :: part) (part' :: parts)
  | _ => []

def parents (p : List α) : List (List α) := descend sep [] (split sep (trim sep p))

def Component (c : List α) : Prop := c ≠ [] ∧ sep ∉ c

def Normal (p : List α) : Prop :=
  p = [sep] ∨ ∃ parts, parts ≠ [] ∧ (∀ c ∈ parts, Component sep c) ∧ p = render sep parts

/-- Go from a directory, given by its components, to an entry: empty components and a single dot
stay, two dots go up. -/
def enter (dot : α) (dir : List (List α)) (c : List α) : List (List α) :=
  if c = [] ∨ c = [dot] then dir
  else if c = [dot, dot] then dir.dropLast
  else dir ++ [c]

/-- The components of a path below a directory, after cleaning. -/
def join (dot : α) (dir : List (List α)) (p : List α) : List (List α) :=
  (split sep p).foldl (enter dot) dir

/-- The root is no ancestor here: followed by a separator it begins no normal path. -/
def Ancestor (q p : List α) : Prop := q ≠ [] ∧ q ++ [sep] <+: p

instance (c : List α) : Decidable (Component sep c) := inferInstanceAs (Decidable (_ ∧ _))

instance (q p : List α) : Decidable (Ancestor sep q p) := inferInstanceAs (Decidable (_ ∧ _))

end Definitions

variable {α : Type*} {sep : α}

theorem Ancestor.length_lt {q p : List α} (h : Ancestor sep q p) : q.length < p.length := by
  have := h.2.length_le
  simp only [List.length_append, List.length_singleton] at this
  omega

theorem Ancestor.ne {q p : List α} (h : Ancestor sep q p) : q ≠ p := by
  rintro rfl
  exact lt_irrefl _ h.length_lt

theorem Ancestor.trans {r q p : List α} (h : Ancestor sep r q) (h' : Ancestor sep q p) :
    Ancestor sep r p :=
  ⟨h.1, h.2.trans ((List.prefix_append q [sep]).trans h'.2)⟩

@[simp] theorem render_nil : render sep [] = [] := rfl

theorem render_cons (c : List α) (parts : List (List α)) :
    render sep (c :: parts) = sep :: (c ++ render sep parts) := by
  simp [render]

theorem intercalate_cons (c : List α) (parts : List (List α)) :
    [sep].intercalate (c :: parts) = c ++ render sep parts := by
  induction parts generalizing c with
  | nil => simp [List.intercalate]
  | cons d parts ih =>
      have := ih d
      simp only [List.intercalate, List.intersperse_cons_cons, List.flatten_cons] at this ⊢
      rw [this, render_cons]
      rfl

theorem getLast_render_ne {parts : List (List α)} (h : ∀ c ∈ parts, Component sep c)
    (hne : parts ≠ []) (hr : render sep parts ≠ []) : (render sep parts).getLast hr ≠ sep := by
  induction parts with
  | nil => exact absurd rfl hne
  | cons c parts ih =>
      obtain ⟨hc, hsep⟩ := h c List.mem_cons_self
      rcases eq_or_ne parts [] with rfl | hp
      · intro heq
        refine hsep (heq ▸ ?_)
        simp only [render_cons, render_nil, List.append_nil, List.getLast_cons hc]
        exact List.getLast_mem hc
      · have hr' : render sep parts ≠ [] := by
          obtain ⟨d, ds, rfl⟩ := List.exists_cons_of_ne_nil hp
          simp [render_cons]
        have := ih (fun d hd => h d (List.mem_cons_of_mem c hd)) hp hr'
        simpa [render_cons, List.getLast_cons, hr', List.getLast_append_of_ne_nil] using this

/-- What begins with a component, up to a separator, ends at the component or after it. -/
theorem prefix_of_component {c r t : List α} (hc : sep ∉ c) (h : r ++ [sep] <+: c ++ t) :
    ∃ r', r = c ++ r' ∧ r' ++ [sep] <+: t := by
  obtain ⟨u, hu⟩ := h
  rw [List.append_assoc, List.append_eq_append_iff] at hu
  rcases hu with ⟨v, hcv, hsv⟩ | ⟨v, hrv, htv⟩
  · cases v with
    | nil =>
        refine ⟨[], by simpa using hcv.symm, u, ?_⟩
        simpa using hsv
    | cons y v =>
        -- the separator after `r` would lie within the component
        have hy : y = sep := by
          simp only [List.cons_append, List.nil_append, List.cons.injEq] at hsv
          exact hsv.1.symm
        exact absurd (by simp [hcv, hy]) hc
  · exact ⟨v, hrv, u, by simpa using htv.symm⟩

theorem mem_descend {parts : List (List α)} (h : ∀ c ∈ parts, Component sep c) (cur q : List α) :
    q ∈ descend sep cur parts ↔
      ∃ r, r ≠ [] ∧ q = cur ++ r ∧ r ++ [sep] <+: render sep parts := by
  induction parts generalizing cur with
  | nil => simp [descend]
  | cons c parts ih =>
      have hsep := (h c List.mem_cons_self).2
      -- what ends before a separator of the path begins with its first component
      have hcut : ∀ {r}, r ≠ [] → r ++ [sep] <+: render sep (c :: parts) →
          ∃ r', r = sep :: c ++ r' ∧ r' ++ [sep] <+: render sep parts := by
        intro r hr hpre
        obtain ⟨x, xs, rfl⟩ := List.exists_cons_of_ne_nil hr
        rw [render_cons, List.cons_append, List.cons_prefix_cons] at hpre
        obtain ⟨r', rfl, hr'⟩ := prefix_of_component hsep hpre.2
        exact ⟨r', by rw [hpre.1]; rfl, hr'⟩
      cases parts with
      | nil =>
          simp only [descend, List.not_mem_nil, false_iff]
          rintro ⟨r, hr, -, hpre⟩
          obtain ⟨r', -, hr'⟩ := hcut hr hpre
          simp at hr'
      | cons d parts =>
          rw [descend, List.mem_cons, ih fun e he => h e (List.mem_cons_of_mem c he)]
          constructor
          · rintro (rfl | ⟨r, hr, rfl, hpre⟩)
            · refine ⟨sep :: c, by simp, rfl, ?_⟩
              simp [render_cons]
            · refine ⟨sep :: c ++ r, by simp, by simp, ?_⟩
              rw [render_cons c (d :: parts), List.append_assoc]
              exact (List.prefix_append_right_inj (sep :: c)).mpr hpre
          · rintro ⟨r, hr, rfl, hpre⟩
            obtain ⟨r', rfl, hr'⟩ := hcut hr hpre
            rcases eq_or_ne r' [] with rfl | hne
            · exact Or.inl (by simp)
            · exact Or.inr ⟨r', hne, by simp, hr'⟩

/-- What `descend` meets is absolute, and shorter than the whole path. -/
theorem mem_descend_cases {cur q : List α} {parts : List (List α)} (h : q ∈ descend sep cur parts) :
    (∃ r, q = cur ++ sep :: r) ∧ q.length < cur.length + (render sep parts).length := by
  induction parts generalizing cur with
  | nil => simp [descend] at h
  | cons c parts ih =>
      cases parts with
      | nil => simp [descend] at h
      | cons d parts =>
          rw [render_cons c (d :: parts)]
          rcases List.mem_cons.mp h with rfl | hrest
          · refine ⟨⟨c, rfl⟩, ?_⟩
            simp only [render_cons, List.length_append, List.length_cons]
            omega
          · obtain ⟨⟨r, rfl⟩, hlen⟩ := ih hrest
            refine ⟨⟨c ++ sep :: r, by simp⟩, ?_⟩
            simp only [List.length_append, List.length_cons] at hlen ⊢
            omega

section Decidable

variable [DecidableEq α]

/-- Trimming a normal path leaves its components between single separators. -/
theorem trim_render {c : List α} {parts : List (List α)}
    (h : ∀ d ∈ c :: parts, Component sep d) :
    trim sep (render sep (c :: parts)) = [sep].intercalate (c :: parts) := by
  obtain ⟨hc, hsep⟩ := h c List.mem_cons_self
  obtain ⟨x, xs, rfl⟩ := List.exists_cons_of_ne_nil hc
  have hx : x ≠ sep := fun heq => hsep (heq ▸ List.mem_cons_self)
  have hlast := getLast_render_ne h (List.cons_ne_nil _ _) (by simp [render_cons])
  rw [intercalate_cons, trim, render_cons, List.dropWhile_cons_of_pos (by simp),
    List.cons_append, List.dropWhile_cons_of_neg (by simpa using hx),
    List.rdropWhile_eq_self_iff]
  intro hne
  simpa [render_cons] using hlast

theorem split_trim_render {parts : List (List α)} (hne : parts ≠ [])
    (h : ∀ c ∈ parts, Component sep c) : split sep (trim sep (render sep parts)) = parts := by
  obtain ⟨c, ds, rfl⟩ := List.exists_cons_of_ne_nil hne
  rw [trim_render h]
  exact List.splitOn_intercalate sep (fun l hl => (h l hl).2) hne

/-- Splitting a normal path finds exactly its ancestors. -/
theorem mem_parents {p : List α} (h : Normal sep p) (q : List α) :
    q ∈ parents sep p ↔ Ancestor sep q p := by
  rcases h with rfl | ⟨parts, hne, hparts, rfl⟩
  · have hroot : parents sep [sep] = [] := by
      simp [parents, trim, split, descend]
    rw [hroot]
    constructor
    · nofun
    · intro hq
      have := hq.length_lt
      simp only [List.length_singleton, Nat.lt_one_iff, List.length_eq_zero_iff] at this
      exact absurd this hq.1
  · rw [parents, split_trim_render hne hparts, mem_descend hparts]
    simp [Ancestor]

theorem length_render_split (p : List α) : (render sep (split sep p)).length = p.length + 1 := by
  obtain ⟨c, parts, hsplit⟩ := List.exists_cons_of_ne_nil (List.splitOn_ne_nil sep p)
  have hjoin : [sep].intercalate (p.splitOn sep) = p := List.intercalate_splitOn sep
  rw [hsplit, intercalate_cons] at hjoin
  rw [split, hsplit, render_cons, hjoin, List.length_cons]

theorem length_le_of_mem_parents {p q : List α} (h : q ∈ parents sep p) :
    q.length ≤ (trim sep p).length := by
  have hlen := (mem_descend_cases h).2
  rw [length_render_split, List.length_nil] at hlen
  omega

/-- A path is not among its parents, whatever it looks like. -/
theorem self_notMem_parents (p : List α) : p ∉ parents sep p := by
  intro hp
  obtain ⟨⟨r, hr⟩, -⟩ := mem_descend_cases hp
  -- the path begins with a separator, which trimming takes away
  have htrim : (trim sep p).length + 1 ≤ p.length := by
    rw [List.nil_append] at hr
    subst hr
    rw [trim, List.dropWhile_cons_of_pos (by simp), List.length_cons]
    exact Nat.succ_le_succ ((List.rdropWhile_prefix _ _).length_le.trans
      (List.dropWhile_sublist _).length_le)
  have hlen := length_le_of_mem_parents hp
  omega

/-- Trimming takes a separator away at each end. -/
theorem length_trim_le (p : List α) : (trim sep (sep :: (p ++ [sep]))).length ≤ p.length := by
  rw [trim, List.dropWhile_cons_of_pos (by simp)]
  rcases List.suffix_concat_iff.mp (List.dropWhile_suffix (· == sep)) with hnil | ⟨r, hr, hsuffix⟩
  · rw [hnil]
    simp
  · rw [hr, List.rdropWhile_concat_pos _ _ _ (by simp)]
    exact (List.rdropWhile_prefix _ _).length_le.trans hsuffix.length_le

/-- Two dots or a separator are the only way to go elsewhere. -/
theorem join_of_notMem {dot : α} {p : List α} (hsep : sep ∉ p) (hdot : dot ∉ p) (hne : p ≠ [])
    (dir : List (List α)) : join sep dot dir p = dir ++ [p] := by
  have hsplit : split sep p = [p] := List.splitOn_eq_singleton hsep
  have hone : p ≠ [dot] := fun h => hdot (by simp [h])
  have htwo : p ≠ [dot, dot] := fun h => hdot (by simp [h])
  rw [join, hsplit, List.foldl_cons, List.foldl_nil, enter, if_neg (by simp [hne, hone]),
    if_neg htwo]

end Decidable

end SlashPath

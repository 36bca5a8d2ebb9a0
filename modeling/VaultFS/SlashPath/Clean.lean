import Mathlib.Data.List.DropRight
import Mathlib.Order.Lattice
import VaultFS.SlashPath.Basic

/-!
# Cleaned paths

Paths of any form, absolute or relative, as texts: `clean` gives the shortest path of the same
meaning, `joinPath` cleans a path below a directory, and `base` is the last element.

A name that stands for itself is what a joined path ends in, behind a text that depends on the
directory alone (`joinPath_of_fileName`). So the names can be read back from the paths
(`base_joinPath`), and paths in one directory are in the order of their names
(`joinPath_lt_iff`).
-/

namespace SlashPath

section Definitions

variable {α : Type*} [DecidableEq α] (sep dot : α)

/-- The next element of a path: two dots take away the one before, stay at the root, and are kept at
the beginning of a relative path. -/
def resolve (rooted : Bool) (parts : List (List α)) (c : List α) : List (List α) :=
  if c = [] ∨ c = [dot] then parts
  else if c = [dot, dot] then
    match parts.getLast? with
    | none => if rooted then [] else [c]
    | some last => if last = [dot, dot] then parts ++ [c] else parts.dropLast
  else parts ++ [c]

/-- The elements of a path after cleaning. -/
def elements (p : List α) : List (List α) :=
  (split sep p).foldl (resolve dot (p.head? = some sep)) []

def clean (p : List α) : List α :=
  let text := [sep].intercalate (elements sep dot p)
  if p.head? = some sep then sep :: text
  else if elements sep dot p = [] then [dot]
  else text

/-- Empty arguments are left out. -/
def joinPath (dir p : List α) : List α :=
  if dir = [] then
    if p = [] then [] else clean sep dot p
  else clean sep dot (dir ++ sep :: p)

def base (p : List α) : List α :=
  if p = [] then [dot]
  else
    let trimmed := p.rdropWhile (· == sep)
    if trimmed = [] then [sep] else trimmed.rtakeWhile (· != sep)

/-- A name that stands for itself. -/
structure FileName (name : List α) : Prop where
  ne_nil : name ≠ []
  notMem : sep ∉ name
  ne_dot : name ≠ [dot]
  ne_dots : name ≠ [dot, dot]

/-- What comes before a name in the directory. -/
def leading (dir : List α) : List α :=
  if dir = [] then []
  else (if dir.head? = some sep then [sep] else []) ++
    (elements sep dot dir).flatMap (· ++ [sep])

end Definitions

variable {α : Type*} {sep dot : α}

theorem intercalate_concat (parts : List (List α)) (c : List α) :
    [sep].intercalate (parts ++ [c]) = parts.flatMap (· ++ [sep]) ++ c := by
  induction parts with
  | nil => simp [List.intercalate]
  | cons d parts ih =>
      obtain ⟨x, xs, hx⟩ : ∃ x xs, parts ++ [c] = x :: xs :=
        List.exists_cons_of_ne_nil (by simp)
      rw [List.cons_append, intercalate_cons, hx, render_cons, ← intercalate_cons, ← hx, ih]
      simp

variable [DecidableEq α]

theorem elements_concat {dir name : List α} (hdir : dir ≠ []) (h : FileName sep dot name) :
    elements sep dot (dir ++ sep :: name) = elements sep dot dir ++ [name] := by
  have hsplit : split sep (dir ++ sep :: name) = split sep dir ++ [name] := by
    rw [split, List.splitOn_append_cons_self, List.splitOn_eq_singleton h.notMem]
    rfl
  have hhead : (dir ++ sep :: name).head? = dir.head? := List.head?_append_of_ne_nil _ hdir
  rw [elements, hsplit, hhead, List.foldl_append, List.foldl_cons, List.foldl_nil, resolve,
    if_neg (not_or.mpr ⟨h.ne_nil, h.ne_dot⟩), if_neg h.ne_dots]
  rfl

theorem elements_of_fileName {name : List α} (h : FileName sep dot name) :
    elements sep dot name = [name] := by
  have hsplit : split sep name = [name] := List.splitOn_eq_singleton h.notMem
  rw [elements, hsplit, List.foldl_cons, List.foldl_nil, resolve,
    if_neg (not_or.mpr ⟨h.ne_nil, h.ne_dot⟩), if_neg h.ne_dots]
  rfl

theorem joinPath_of_fileName {name : List α} (h : FileName sep dot name) (dir : List α) :
    joinPath sep dot dir name = leading sep dot dir ++ name := by
  unfold joinPath leading
  split
  · have hhead : name.head? ≠ some sep := fun hsome => h.notMem (List.mem_of_head? hsome)
    rw [if_neg h.ne_nil, clean, elements_of_fileName h, if_neg hhead, if_neg (by simp)]
    simp [List.intercalate]
  · rename_i hdir
    have hhead : (dir ++ sep :: name).head? = dir.head? := List.head?_append_of_ne_nil _ hdir
    have hne : elements sep dot dir ++ [name] ≠ [] := by simp
    rw [clean, elements_concat hdir h, hhead, if_neg hne, intercalate_concat]
    split <;> simp

/-- The text before a name is empty or ends in a separator. -/
theorem leading_cases (sep dot : α) (dir : List α) :
    leading sep dot dir = [] ∨ ∃ l, leading sep dot dir = l ++ [sep] := by
  unfold leading
  split
  · exact .inl rfl
  · rcases List.eq_nil_or_concat' (elements sep dot dir) with hnil | ⟨parts, c, hparts⟩
    · rw [hnil]
      split
      · exact .inr ⟨[], rfl⟩
      · exact .inl rfl
    · rw [hparts, List.flatMap_append, List.flatMap_singleton, ← List.append_assoc,
        ← List.append_assoc]
      exact .inr ⟨_, rfl⟩

theorem base_joinPath {name : List α} (h : FileName sep dot name) (dir : List α) :
    base sep dot (joinPath sep dot dir name) = name := by
  have hname : ∀ c ∈ name, (c != sep) = true := by
    intro c hc
    simpa using ne_of_mem_of_not_mem hc h.notMem
  have htrim : (leading sep dot dir ++ name).rdropWhile (· == sep) =
      leading sep dot dir ++ name := by
    rw [List.rdropWhile_eq_self_iff]
    intro hne
    rw [List.getLast_append_of_ne_nil _ h.ne_nil]
    simpa using hname _ (List.getLast_mem h.ne_nil)
  have hstop : (leading sep dot dir).reverse.takeWhile (· != sep) = [] := by
    rcases leading_cases sep dot dir with hnil | ⟨l, hl⟩
    · rw [hnil]
      rfl
    · rw [hl]
      simp
  rw [joinPath_of_fileName h, base, if_neg (by simp [h.ne_nil]), htrim,
    if_neg (by simp [h.ne_nil]), List.rtakeWhile, List.reverse_append,
    List.takeWhile_append_of_pos (by simpa using hname), hstop]
  simp

section Order

variable {β : Type*} [LinearOrder β]

theorem append_lt_append_iff (l a b : List β) : l ++ a < l ++ b ↔ a < b := by
  induction l with
  | nil => rfl
  | cons x l ih =>
      rw [List.cons_append, List.cons_append, List.cons_lt_cons_iff]
      simp [ih]

theorem joinPath_lt_iff {sep dot : β} {a b : List β} (ha : FileName sep dot a)
    (hb : FileName sep dot b) (dir : List β) :
    joinPath sep dot dir a < joinPath sep dot dir b ↔ a < b := by
  rw [joinPath_of_fileName ha, joinPath_of_fileName hb, append_lt_append_iff]

end Order

end SlashPath

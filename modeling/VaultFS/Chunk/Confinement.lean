import VaultFS.Chunk.Solo

/-!
# Requests and the root of the store

The IDs in the requests `ReadChunk` and `DeleteChunk` are strings of the client, and the store makes
a path of them without a check. Requests stay among the chunks exactly if their IDs are hashes; an
ID with `..` in it leads to any file of the server.
-/

namespace VaultFS.Chunk

open Interaction KeyValue Metadata

/-- A file that is opened or removed lies strictly below the root, where `WriteChunk` stores some
data. -/
def Op.Within (cfg : Config) : Op → Prop
  | .readFile path | .remove path _ =>
      cfg.root <+: path ∧ cfg.root.length < path.length ∧ ∃ data, path = dest cfg data
  | _ => True

/-- The requests for these IDs, of which those that are too short fail, stay among the chunks, and
no two of the IDs there are share a path. -/
structure Confined (cfg : Config) (ids : Set ChunkID) : Prop where
  read : ∀ id ∈ ids, fanoutLen ≤ id.length → (readChunk cfg id).Only (Op.Within cfg)
  delete : ∀ id ∈ ids, fanoutLen ≤ id.length →
    (deleteChunk cfg id (.delete id)).Only (Op.Within cfg)
  distinct : ∀ id ∈ ids ∪ Set.range (hash cfg.sum256), ∀ id' ∈ ids ∪ Set.range (hash cfg.sum256),
    fanoutLen ≤ id.length → fanoutLen ≤ id'.length → path cfg.root id = path cfg.root id' → id = id'

variable {cfg : Config} {id : ChunkID} {P : Op → Prop}

theorem only_readChunk (hctx : P .ctxErr) (hpanic : P .panic)
    (hread : P (.readFile (path cfg.root id))) : (readChunk cfg id).Only P := by
  rw [readChunk]
  refine .bind (.op hctx) fun a => ?_
  split
  · trivial
  · split
    · exact .bind (.op hpanic) fun _ => trivial
    · refine .bind (.op hread) fun a => ?_
      split
      · split <;> trivial
      · trivial
      · trivial

/-- An ID that is long enough is used. -/
theorem of_only_readChunk (h : (readChunk cfg id).Only P) (hlen : fanoutLen ≤ id.length) :
    P (.readFile (path cfg.root id)) := by
  have hnext := h.2 .done
  simp only [if_neg (Nat.not_lt.mpr hlen)] at hnext
  exact hnext.1

/-- The path of a hash. -/
theorem within_dest (cfg : Config) (data : List UInt8) :
    cfg.root <+: dest cfg data ∧ cfg.root.length < (dest cfg data).length ∧
      ∃ data', dest cfg data = dest cfg data' := by
  refine ⟨?_, ?_, data, rfl⟩
  · rw [dest, path_eq cfg.root (valid_hash cfg.sum256 data)]
    exact List.prefix_append _ _
  · rw [dest, path_eq cfg.root (valid_hash cfg.sum256 data), List.length_append]
    simp

/-- The requests stay among the chunks exactly if each ID that is long enough is a hash. -/
theorem confined_iff (cfg : Config) (ids : Set ChunkID) : Confined cfg ids ↔
    ∀ id ∈ ids, fanoutLen ≤ id.length → id ∈ Set.range (hash cfg.sum256) := by
  have hlong : ∀ data, fanoutLen ≤ (hash cfg.sum256 data).length := by
    intro data
    rw [(valid_hash cfg.sum256 data).1]
    decide
  constructor
  · intro h id hid hlen
    obtain ⟨-, -, data, hpath⟩ := of_only_readChunk (h.read id hid hlen) hlen
    have heq := h.distinct id (.inl hid) (hash cfg.sum256 data) (.inr ⟨data, rfl⟩) hlen
      (hlong data) hpath
    exact ⟨data, heq.symm⟩
  · intro h
    have hall : ∀ id ∈ ids ∪ Set.range (hash cfg.sum256), fanoutLen ≤ id.length →
        id ∈ Set.range (hash cfg.sum256) := fun id hid hlen => hid.elim (h id · hlen) fun hr => hr
    refine ⟨?_, ?_, ?_⟩
    · intro id hid hlen
      obtain ⟨data, rfl⟩ := h id hid hlen
      exact only_readChunk trivial trivial (within_dest cfg data)
    · intro id hid hlen
      obtain ⟨data, rfl⟩ := h id hid hlen
      exact only_deleteChunk trivial trivial (within_dest cfg data)
    · intro id hid id' hid' hlen hlen' hpath
      obtain ⟨data, rfl⟩ := hall id hid hlen
      obtain ⟨data', rfl⟩ := hall id' hid' hlen'
      exact path_injective (valid_hash cfg.sum256 data) (valid_hash cfg.sum256 data') hpath

/-- An ID that leads out of the directory `data`. -/
def outside : ChunkID := "../../secret".toList

/-- A `DeleteChunk` of this ID removes a file that does not belong to the store. -/
theorem not_confined :
    path sample.root outside = ["secret".toList] ∧
    (∃ s t, get s.files ["secret".toList] = some [7] ∧
      (deleteChunk sample outside (.delete outside)).Ends (serve sample 0) s none t ∧
      get t.files ["secret".toList] = none) ∧
    ¬ Confined sample Set.univ := by
  have hpath : path sample.root outside = ["secret".toList] := by decide
  refine ⟨hpath, ?_, ?_⟩
  · let s : Shared := (World.init (put Store.empty ["secret".toList] [7]) 0 fun _ => false).shared
    have hget : get s.files ["secret".toList] = some [7] := get_put_self _ _ _
    let t : Shared := { s with
      files := delete s.files ["secret".toList], log := s.log ++ [.deleted outside] }
    have hremove : serve sample 0 s (.remove (path sample.root outside) (.delete outside)) .done =
        some t := by
      rw [hpath]
      simp only [serve, hget, Option.isSome_some, if_true]
      rfl
    refine ⟨s, t, hget, ?_, get_delete_self _ _⟩
    rw [deleteChunk]
    refine .bind (.op (r := .done) rfl) ?_
    exact .bind (.op hremove) (.ret _ _)
  · intro h
    obtain ⟨-, hlen, -⟩ := of_only_readChunk (h.read outside trivial (by decide)) (by decide)
    rw [hpath] at hlen
    exact absurd hlen (by decide)

end VaultFS.Chunk

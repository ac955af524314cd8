import ArtifactKeeper.GreedyPieces
import Mathlib.Algebra.GroupWithZero.Nat

/-! The payloads that tell the replicas which packuments to drop. -/

namespace ArtifactKeeper.CacheInvalidation
open GreedyPieces

def notifyPayloadSoftMaxBytes : ℕ := 6000

/-- `quote` is the JSON literal of a string. -/
def keyList (quote : String → String) : List String → String
  | [] => ""
  | [key] => quote key
  | key :: rest => quote key ++ "," ++ keyList quote rest

/-- The envelope as `serde_json` writes it. -/
def serialize (quote : String → String) (package : String) (keys : List String) : String :=
  "\x7b\"v\":1,\"kind\":\"npm_packument_invalidated\",\"repo_keys\":[" ++ keyList quote keys ++
    "],\"package\":" ++ quote package ++ "\x7d"

/-- One round of the loop, with the payloads so far and the chunk that is filled. -/
def fillChunk (quote : String → String) (package : String)
    (state : List String × List String) (key : String) : List String × List String :=
  let chunk := state.2 ++ [key]
  if 1 < chunk.length ∧
      notifyPayloadSoftMaxBytes < (serialize quote package chunk).utf8ByteSize then
    (state.1 ++ [serialize quote package state.2], [key])
  else (state.1, chunk)

def npmPackumentInvalidationPayloads (quote : String → String) (repoKeys : List String)
    (package : String) : List String :=
  let (payloads, chunk) := repoKeys.foldl (fillChunk quote package) ([], [])
  if chunk.isEmpty then payloads else payloads ++ [serialize quote package chunk]

variable {quote : String → String} {package : String} {p q repoKeys : List String}

/-- A chunk of one key goes out whatever its size. -/
def fitsPayload (quote : String → String) (package : String) (keys : List String) : Bool :=
  keys.length ≤ 1 || (serialize quote package keys).utf8ByteSize ≤ notifyPayloadSoftMaxBytes

theorem fillChunk_foldl (payloads chunk : List String) :
    let r := repoKeys.foldl (fillChunk quote package) (payloads, chunk)
    (if r.2.isEmpty then r.1 else r.1 ++ [serialize quote package r.2]) =
      payloads ++ (cut (fitsPayload quote package) chunk repoKeys).map
        (serialize quote package) := by
  induction repoKeys generalizing payloads chunk with
  | nil =>
    rw [cut]
    dsimp only [List.foldl_nil]
    split
    · exact (List.append_nil _).symm
    · rfl
  | cons key rest ih =>
    rw [List.foldl_cons, cut, fillChunk]
    dsimp only
    split
    · next hover =>
      have hnot : ¬ fitsPayload quote package (chunk ++ [key]) = true := by
        simp only [fitsPayload, Bool.or_eq_true, decide_eq_true_eq, not_or, not_le]
        exact hover
      rw [if_neg hnot, List.map_cons]
      exact (ih _ _).trans (List.append_assoc ..)
    · next hfits =>
      have hyes : fitsPayload quote package (chunk ++ [key]) = true := by
        simp only [fitsPayload, Bool.or_eq_true, decide_eq_true_eq, ← not_lt]
        exact or_iff_not_and_not.mpr (fun h => hfits ⟨not_not.mp h.1, not_not.mp h.2⟩)
      rw [if_pos hyes]
      exact ih _ _

theorem payloads_eq : npmPackumentInvalidationPayloads quote repoKeys package =
    (cut (fitsPayload quote package) [] repoKeys).map (serialize quote package) :=
  fillChunk_foldl [] []

/-- Every further key costs its literal and a comma. -/
theorem size_keyList (hne : p ≠ []) : (keyList quote p).utf8ByteSize + 1 =
    (p.map (fun key => (quote key).utf8ByteSize + 1)).sum := by
  induction p with
  | nil => exact absurd rfl hne
  | cons key rest ih =>
    cases rest with
    | nil => rfl
    | cons key' rest =>
      have hcomma : (",").utf8ByteSize = 1 := by decide
      have hrest := ih (List.cons_ne_nil _ _)
      rw [keyList, String.utf8ByteSize_append, String.utf8ByteSize_append, hcomma, List.map_cons,
        List.sum_cons, ← hrest]
      · exact Nat.add_assoc ..
      · exact List.cons_ne_nil _ _

theorem size_keyList_append :
    (keyList quote p).utf8ByteSize ≤ (keyList quote (p ++ q)).utf8ByteSize ∧
      (keyList quote q).utf8ByteSize ≤ (keyList quote (p ++ q)).utf8ByteSize := by
  by_cases hp : p = []
  · rw [hp]
    exact ⟨Nat.zero_le _, le_rfl⟩
  by_cases hq : q = []
  · rw [hq, List.append_nil]
    exact ⟨le_rfl, Nat.zero_le _⟩
  have hsize := @size_keyList quote (p ++ q) (by simp [hp])
  rw [List.map_append, List.sum_append, ← size_keyList hp, ← size_keyList hq] at hsize
  omega

theorem size_append_middle (before keys between name after : String) :
    (before ++ keys ++ between ++ name ++ after).utf8ByteSize =
      (before ++ between ++ name ++ after).utf8ByteSize + keys.utf8ByteSize := by
  simp only [String.utf8ByteSize_append]
  omega

/-- The envelope costs the same around any keys. -/
theorem exists_size_serialize (quote : String → String) (package : String) :
    ∃ envelope, ∀ keys, (serialize quote package keys).utf8ByteSize =
      envelope + (keyList quote keys).utf8ByteSize :=
  ⟨_, fun keys => size_append_middle _ (keyList quote keys) _ (quote package) _⟩

/-- Keys at either end can be left out of a payload. -/
theorem fitsPayload_of_append (hfits : fitsPayload quote package (p ++ q) = true) :
    fitsPayload quote package p = true ∧ fitsPayload quote package q = true := by
  have ⟨hp, hq⟩ := @size_keyList_append quote p q
  obtain ⟨envelope, hsize⟩ := exists_size_serialize quote package
  simp only [fitsPayload, Bool.or_eq_true, decide_eq_true_eq, hsize, List.length_append] at hfits ⊢
  omega

theorem fitsPayload_singleton (key : String) : fitsPayload quote package [key] = true := by
  simp only [fitsPayload, List.length_singleton, le_refl, decide_true, Bool.true_or]

/-- Every replica is told of every key exactly once, in order, by payloads that can be delivered,
and no other way of telling them needs fewer. -/
theorem payloads_fewest (quote : String → String) (package : String) (repoKeys : List String) :
    ∃ chunks : List (List String),
      npmPackumentInvalidationPayloads quote repoKeys package =
          chunks.map (serialize quote package) ∧
        chunks.flatten = repoKeys ∧
        (∀ chunk ∈ chunks, chunk ≠ [] ∧ (chunk.length = 1 ∨
          (serialize quote package chunk).utf8ByteSize ≤ notifyPayloadSoftMaxBytes)) ∧
        ∀ others : List (List String), others.flatten = repoKeys →
          (∀ chunk ∈ others, chunk.length ≤ 1 ∨
            (serialize quote package chunk).utf8ByteSize ≤ notifyPayloadSoftMaxBytes) →
          chunks.length ≤ others.length := by
  refine ⟨cut (fitsPayload quote package) [] repoKeys, payloads_eq, flatten_cut,
    fun chunk hchunk => ?_, fun others hothers hfits => ?_⟩
  · obtain ⟨hne, hfits⟩ := fits_of_mem_cut fitsPayload_singleton (.inl rfl) chunk hchunk
    have hlength := List.length_pos_iff.mpr hne
    rw [fitsPayload, Bool.or_eq_true, decide_eq_true_eq, decide_eq_true_eq] at hfits
    exact ⟨hne, hfits.imp_left (fun hle => le_antisymm hle hlength)⟩
  · have hfits : ∀ chunk ∈ others, fitsPayload quote package chunk = true := fun chunk hchunk => by
      rw [fitsPayload, Bool.or_eq_true, decide_eq_true_eq, decide_eq_true_eq]
      exact hfits chunk hchunk
    exact length_cut_le fitsPayload_singleton (fun p q h _ => (fitsPayload_of_append h).1)
      (fun p q h _ => (fitsPayload_of_append h).2) hfits (by rw [hothers])

end ArtifactKeeper.CacheInvalidation

import AioftpS3.PosixPath
import Mathlib.Data.List.Sort

/-!
S3 as the adapter sees it: a bucket of keys in the order of their code points (that of their
UTF-8 bytes), PUT and DELETE of one key, and ListObjectsV2, answered from its own parameters: the
keys that start with `prefix` and come after the position of the continuation token, each rolled
into the common prefix ending at the first `delimiter` after `prefix`, at most `max-keys` entries,
and a token for the last entry when more remain.
-/

set_option autoImplicit false
set_option relaxedAutoImplicit false

namespace AioftpS3.Bucket.S3

open AioftpS3.PosixPath

/-- Insert a key into keys in increasing order, unless it is there. -/
def insertKey (key : Str) : List Str → List Str
  | [] => [key]
  | other :: keys =>
    if key < other then key :: other :: keys
    else if key = other then other :: keys
    else other :: insertKey key keys

section InsertKey

variable {key : Str} {keys : List Str}

@[simp] theorem mem_insertKey {other : Str} : other ∈ insertKey key keys ↔ other = key ∨ other ∈ keys := by
  induction keys with
  | nil => simp [insertKey]
  | cons first keys ih =>
    simp only [insertKey]
    split_ifs with below same
    · simp
    · simp [same]
    · simp only [List.mem_cons, ih]
      exact or_left_comm

private theorem sorted_insertKey (sorted : keys.Sorted (· < ·)) : (insertKey key keys).Sorted (· < ·) := by
  induction keys with
  | nil => exact List.sorted_singleton key
  | cons first keys ih =>
    obtain ⟨below, rest⟩ := List.sorted_cons.mp sorted
    simp only [insertKey]
    split_ifs with less same
    · exact List.sorted_cons.mpr ⟨fun other mem => (List.mem_cons.mp mem).elim (· ▸ less)
        fun later => less.trans (below other later), sorted⟩
    · exact sorted
    · refine List.sorted_cons.mpr ⟨fun other mem => ?_, ih rest⟩
      rcases mem_insertKey.mp mem with rfl | later
      · exact lt_of_le_of_ne (not_lt.mp less) (Ne.symm same)
      · exact below other later

end InsertKey

/-- A key sorts before the keys it is a proper prefix of. -/
theorem lt_of_isPrefix {shorter longer : Str} (extended : shorter <+: longer)
    (differ : shorter ≠ longer) : shorter < longer := by
  obtain ⟨rest, rfl⟩ := extended
  cases rest with
  | nil => simp at differ
  | cons c rest =>
    simpa using List.Lex.append_left (· < · : Char → Char → Prop)
      (List.Lex.nil (a := c) (l := rest)) shorter

theorem le_of_isPrefix {shorter longer : Str} (extended : shorter <+: longer) :
    shorter ≤ longer := by
  by_cases same : shorter = longer
  · exact le_of_eq same
  · exact le_of_lt (lt_of_isPrefix extended same)

/-- A bucket: its keys, each once, in the order S3 lists them. -/
structure Bucket where
  keys : List Str
  sorted : keys.Sorted (· < ·)

namespace Bucket

/-- The empty bucket. -/
def empty : Bucket := ⟨[], List.sorted_nil⟩

/-- A PUT of `key`: it is in the bucket afterwards, overwritten if it was there. -/
def put (bucket : Bucket) (key : Str) : Bucket :=
  ⟨insertKey key bucket.keys, sorted_insertKey bucket.sorted⟩

/-- DELETEs of `deleted`. -/
def deleteAll (bucket : Bucket) (deleted : List Str) : Bucket :=
  ⟨bucket.keys.filter (· ∉ deleted), List.Pairwise.filter _ bucket.sorted⟩

@[simp] theorem mem_put {bucket : Bucket} {key other : Str} :
    other ∈ (bucket.put key).keys ↔ other = key ∨ other ∈ bucket.keys := mem_insertKey

@[simp] theorem mem_deleteAll {bucket : Bucket} {deleted : List Str} {other : Str} :
    other ∈ (bucket.deleteAll deleted).keys ↔ other ∈ bucket.keys ∧ other ∉ deleted := by
  simp [deleteAll]

theorem nodup (bucket : Bucket) : bucket.keys.Nodup := bucket.sorted.nodup

/-- Two buckets with the same keys are one. -/
theorem ext_keys {bucket bucket' : Bucket} (same : ∀ key, key ∈ bucket.keys ↔ key ∈ bucket'.keys) :
    bucket = bucket' := by
  obtain ⟨keys, sorted⟩ := bucket
  obtain ⟨keys', sorted'⟩ := bucket'
  obtain rfl : keys = keys' := List.eq_of_perm_of_sorted
    ((List.perm_ext_iff_of_nodup sorted.nodup sorted'.nodup).mpr same) sorted sorted'
  rfl

/-- DELETEs one after another delete every key of either. -/
theorem deleteAll_deleteAll (bucket : Bucket) (first rest : List Str) :
    (bucket.deleteAll first).deleteAll rest = bucket.deleteAll (first ++ rest) :=
  ext_keys fun key => by simp [and_assoc]

@[simp] theorem deleteAll_nil (bucket : Bucket) : bucket.deleteAll [] = bucket :=
  ext_keys fun key => by simp

end Bucket

/-! ## ListObjectsV2 -/

/-- What a page lists: a key (`Contents`) or a common prefix (`CommonPrefixes`). -/
inductive Entry
  | contents (key : Str)
  | commonPrefixes (keyPrefix : Str)
deriving DecidableEq

/-- A ListObjectsV2 request: `prefix` and `delimiter` (`''` when omitted), the position of
`continuation-token`, and `max-keys`. -/
structure ListRequest where
  keyPrefix : Str
  delimiter : Str
  continuation : Option Entry
  maxKeys : Nat

/-- A ListObjectsV2 response: the entries of the page in order, and `NextContinuationToken`,
which stands for the page's last entry, when more entries remain. -/
structure ListResponse where
  entries : List Entry
  nextToken : Option Entry

/-- What comes before the first occurrence of `delimiter` in a text, if it occurs. -/
def beforeDelimiter (delimiter : Str) : Str → Option Str
  | [] => none
  | c :: rest =>
    if delimiter <+: c :: rest then some [] else (beforeDelimiter delimiter rest).map (c :: ·)

/-- The entry a listed key falls in: the common prefix up to the first `delimiter` after
`prefix`, or the key itself. -/
def entryOf (keyPrefix delimiter key : Str) : Entry :=
  if delimiter = [] then .contents key
  else
    match beforeDelimiter delimiter (key.drop keyPrefix.length) with
    | some before => .commonPrefixes (keyPrefix ++ before ++ delimiter)
    | none => .contents key

/-- Whether `key` is listed after the position of a token that stands for `entry`: after the
key, or after every key the common prefix rolled up. -/
def Entry.precedes (entry : Entry) (key : Str) : Bool :=
  match entry with
  | .contents last => decide (last < key)
  | .commonPrefixes rolled => decide (rolled < key) && !decide (rolled <+: key)

/-- The keys a request selects: those after the token's position that start with `prefix`, in
order. -/
def selected (bucket : Bucket) (request : ListRequest) : List Str :=
  bucket.keys.filter fun key =>
    decide (request.keyPrefix <+: key) && request.continuation.all (·.precedes key)

/-- The entries a request lists, before `max-keys` cuts them: the selected keys, each common
prefix once. -/
def listed (bucket : Bucket) (request : ListRequest) : List Entry :=
  ((selected bucket request).map (entryOf request.keyPrefix request.delimiter)).dedup

/-- `GET /?list-type=2`. -/
def listObjectsV2 (bucket : Bucket) (request : ListRequest) : ListResponse :=
  let entries := listed bucket request
  { entries := entries.take request.maxKeys
    nextToken :=
      if request.maxKeys < entries.length then (entries.take request.maxKeys).getLast? else none }

/-! ### Listing without a delimiter -/

section NoDelimiter

variable {bucket : Bucket} {request : ListRequest}

/-- Without a delimiter a page lists the selected keys themselves. -/
theorem listed_of_delimiter (noDelimiter : request.delimiter = []) :
    listed bucket request = (selected bucket request).map .contents := by
  have distinct : ((selected bucket request).map Entry.contents).Nodup :=
    (bucket.nodup.filter _).map fun _ _ same => Entry.contents.inj same
  simp only [listed, entryOf, noDelimiter, if_true]
  exact List.dedup_eq_self.mpr distinct

end NoDelimiter

end AioftpS3.Bucket.S3

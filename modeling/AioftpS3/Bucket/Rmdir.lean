import AioftpS3.Bucket.Listing
import Mathlib.Data.Prod.Lex

/-!
`_rmdir`: list every key under the directory's marker with `_list_descendant_keys` and DELETE
them deepest first, by `('/'` count, length, key`)` descending, so a marker goes only after every
key under it and a loop stopped by a failed DELETE leaves every marker above a key it left. Past
one page the listing runs on through the rest of the bucket, and `_rmdir` deletes keys outside the
directory.
-/

set_option autoImplicit false
set_option relaxedAutoImplicit false

namespace AioftpS3.Bucket.Rmdir

open AioftpS3.PosixPath AioftpS3.Bucket.S3 AioftpS3.Bucket.Listing

/-- `delete_sort_key`: the number of `'/'`, the length and the key, compared as a tuple. -/
def deleteSortKey (key : Str) : Lex (Nat × Lex (Nat × Str)) :=
  toLex (key.count '/', toLex (key.length, key))

/-- `sorted(keys, key=delete_sort_key, reverse=True)`. Python's sort is stable; insertion sort
by the reversed comparison is too. -/
def deleteOrder (keys : List Str) : List Str :=
  keys.insertionSort fun a b => deleteSortKey b ≤ deleteSortKey a

/-- The DELETE loop of `_rmdir`: the keys it deletes, in order, when `succeeds` says which
DELETE requests succeed; `raise_for_status` stops the loop at the first that fails. -/
def deleteKeys (keys : List Str) (succeeds : Str → Bool) : List Str :=
  (deleteOrder keys).takeWhile succeeds

/-- `_rmdir(context, path)`: the keys it deletes. -/
def rmdir (bucket : Bucket) (path : PurePosixPath) (succeeds : Str → Bool) : Option (List Str) :=
  (listDescendantKeys bucket (path.asPosix ++ s3DirSuffix)).map (deleteKeys · succeeds)

/-! ## Children first -/

private theorem deleteSortKey_lt {shorter longer : Str} (extended : shorter <+: longer)
    (differ : shorter ≠ longer) : deleteSortKey shorter < deleteSortKey longer := by
  have count : shorter.count '/' ≤ longer.count '/' := extended.sublist.count_le _
  have fewer : shorter.length < longer.length :=
    lt_of_le_of_ne extended.length_le fun same => differ (extended.eq_of_length same)
  rcases count.lt_or_eq with less | same
  · exact (Prod.Lex.lt_iff _ _).mpr (.inl less)
  · exact (Prod.Lex.lt_iff _ _).mpr (.inr ⟨same, (Prod.Lex.lt_iff _ _).mpr (.inl fewer)⟩)

theorem perm_deleteOrder (keys : List Str) : (deleteOrder keys).Perm keys :=
  List.perm_insertionSort _ keys

private theorem sorted_deleteOrder (keys : List Str) :
    (deleteOrder keys).Sorted fun a b => deleteSortKey b ≤ deleteSortKey a := by
  have : IsTotal Str fun a b => deleteSortKey b ≤ deleteSortKey a := ⟨fun a b => le_total _ _⟩
  have : IsTrans Str fun a b => deleteSortKey b ≤ deleteSortKey a :=
    ⟨fun _ _ _ first second => second.trans first⟩
  exact List.sorted_insertionSort _ keys

/-- `_rmdir` deletes a prefix of an order of the listed keys in which each key comes before every
proper prefix of it, so it never deletes a proper prefix of a key it leaves. -/
theorem deleteOrder_children_first (keys : List Str) (succeeds : Str → Bool) :
    (deleteOrder keys).Perm keys ∧
      (deleteOrder keys).Pairwise (fun earlier later => ¬ (earlier <+: later ∧ earlier ≠ later)) ∧
      deleteKeys keys succeeds <+: deleteOrder keys ∧
      ∀ key ∈ keys, key ∉ deleteKeys keys succeeds →
        ∀ ancestor ∈ keys, ancestor <+: key → ancestor ≠ key →
          ancestor ∉ deleteKeys keys succeeds := by
  have perm := perm_deleteOrder keys
  have pairwise : (deleteOrder keys).Pairwise
      (fun earlier later => ¬ (earlier <+: later ∧ earlier ≠ later)) :=
    (sorted_deleteOrder keys).imp fun below ⟨extended, differ⟩ =>
      not_lt.mpr below (deleteSortKey_lt extended differ)
  refine ⟨perm, pairwise, List.takeWhile_prefix succeeds,
    fun key mem kept ancestor _ extended differ deleted => ?_⟩
  -- the loop cuts the order into the deleted keys and the rest
  have split := List.takeWhile_append_dropWhile succeeds (deleteOrder keys)
  have across := (List.pairwise_append.mp (split.symm ▸ pairwise)).2.2
  have left : key ∈ (deleteOrder keys).dropWhile succeeds := by
    have ordered : key ∈ deleteOrder keys := perm.mem_iff.mpr mem
    rw [← split, List.mem_append] at ordered
    exact ordered.resolve_left kept
  exact across ancestor deleted key left ⟨extended, differ⟩

/-- The loop deletes a key only once it has deleted every listed key extending it. -/
theorem mem_deleteKeys_of_isPrefix {keys : List Str} {succeeds : Str → Bool} {shorter longer : Str}
    (deleted : shorter ∈ deleteKeys keys succeeds) (listed : longer ∈ keys)
    (extended : shorter <+: longer) : longer ∈ deleteKeys keys succeeds := by
  by_cases same : shorter = longer
  · exact same ▸ deleted
  have split := List.takeWhile_append_dropWhile succeeds (deleteOrder keys)
  have across := (List.pairwise_append.mp (split.symm ▸ sorted_deleteOrder keys)).2.2
  have ordered : longer ∈ deleteOrder keys := (perm_deleteOrder keys).mem_iff.mpr listed
  rw [← split, List.mem_append] at ordered
  exact ordered.resolve_right fun left =>
    not_lt.mpr (across shorter deleted longer left) (deleteSortKey_lt extended same)

/-- With every DELETE succeeding, `_rmdir` deletes exactly the listed keys. -/
theorem mem_deleteKeys_true {keys : List Str} {key : Str} :
    key ∈ deleteKeys keys (fun _ => true) ↔ key ∈ keys := by
  rw [deleteKeys, List.takeWhile_eq_self_iff.mpr fun _ _ => rfl, (perm_deleteOrder _).mem_iff]

/-- When the keys under a directory fit in one page, `_rmdir` deletes exactly them. -/
theorem rmdir_of_fits {bucket : Bucket} {path : PurePosixPath}
    (fits : (bucket.keys.filter (path.asPosix ++ s3DirSuffix <+: ·)).length ≤ maxKeys) :
    ∃ deleted, rmdir bucket path (fun _ => true) = some deleted ∧
      ∀ key, key ∈ deleted ↔ key ∈ bucket.keys ∧ path.asPosix ++ s3DirSuffix <+: key := by
  rcases listKeys_descendants bucket (path.asPosix ++ s3DirSuffix) with
    ⟨-, listed⟩ | ⟨more, -⟩
  · refine ⟨_, by rw [rmdir, listDescendantKeys, listed]; rfl, fun key => ?_⟩
    dsimp only
    rw [mem_deleteKeys_true]
    simp
  · omega

/-- The path `a`. -/
def aPath : PurePosixPath := ⟨[['a']], by decide⟩

/-- A bucket with a directory `a` holding a file and a directory, and a file `b`. -/
def smallBucket : Bucket :=
  (((Bucket.empty.put ['a', '/']).put ['a', '/', 'x']).put ['a', '/', 'y', '/']).put ['b']

theorem smallBucket_rmdir :
    (smallBucket.keys.filter (aPath.asPosix ++ s3DirSuffix <+: ·)).length ≤ maxKeys ∧
      ∃ deleted, rmdir smallBucket aPath (fun _ => true) = some deleted ∧
        ∀ key, key ∈ deleted ↔ key ∈ smallBucket.keys ∧ aPath.asPosix ++ s3DirSuffix <+: key :=
  ⟨by decide, rmdir_of_fits (by decide)⟩

/-! ## Deleting past the directory -/

/-- One key more than a page under `a/` (`a/x`, `a/xx`, …), and the key `b` after them. -/
def overfullKeys : List Str :=
  (List.range (maxKeys + 1)).map (fun i => ['a', '/'] ++ List.replicate (i + 1) 'x') ++ [['b']]

private theorem sorted_overfullKeys : overfullKeys.Sorted (· < ·) := by
  refine List.pairwise_append.mpr ⟨?_, List.pairwise_singleton _ _, ?_⟩
  · refine List.pairwise_map.mpr ((List.pairwise_lt_range _).imp fun {i j} less => ?_)
    refine lt_of_isPrefix ⟨List.replicate (j - i) 'x', ?_⟩ fun same => ?_
    · rw [List.append_assoc, ← List.replicate_add]
      congr 2
      omega
    · have lengths := congrArg List.length same
      simp at lengths
      omega
  · intro key mem last lastMem
    obtain ⟨i, -, rfl⟩ := List.mem_map.mp mem
    rw [List.mem_singleton.mp lastMem]
    exact List.Lex.rel (by decide)

/-- A bucket with more keys under `a/` than one page holds, and `b`. -/
def overfullBucket : Bucket := ⟨overfullKeys, sorted_overfullKeys⟩

/-- `_rmdir(a)` deletes `b`: the first page is full, and the later page, asked for without the
prefix, lists every key after it. -/
theorem overfullBucket_rmdir :
    ∃ deleted, rmdir overfullBucket aPath (fun _ => true) = some deleted ∧ ['b'] ∈ deleted ∧
      ¬ (aPath.asPosix ++ s3DirSuffix) <+: ['b'] := by
  have keyPrefix : aPath.asPosix ++ s3DirSuffix = ['a', '/'] := by decide
  have under : overfullKeys.filter (['a', '/'] <+: ·) =
      (List.range (maxKeys + 1)).map (fun i => ['a', '/'] ++ List.replicate (i + 1) 'x') := by
    simp [overfullKeys, List.filter_append, List.prefix_append]
  rcases listKeys_descendants overfullBucket (aPath.asPosix ++ s3DirSuffix) with
    ⟨short, -⟩ | ⟨-, last, found, listed⟩
  · rw [keyPrefix] at short
    change (overfullKeys.filter _).length ≤ _ at short
    simp [under, maxKeys] at short
  · have lastUnder : ['a', '/'] <+: last := by
      have mem := List.mem_of_mem_take (List.mem_of_getLast?_eq_some found)
      rw [keyPrefix] at mem
      simpa using (List.mem_filter.mp mem).2
    obtain ⟨rest, rfl⟩ := lastUnder
    refine ⟨_, by rw [rmdir, listDescendantKeys, listed]; rfl, ?_, by rw [keyPrefix]; decide⟩
    dsimp only
    rw [mem_deleteKeys_true]
    exact List.mem_append_right _ (List.mem_filter.mpr
      ⟨List.mem_append_right _ (List.mem_singleton_self _), decide_eq_true (List.Lex.rel (by decide))⟩)

end AioftpS3.Bucket.Rmdir

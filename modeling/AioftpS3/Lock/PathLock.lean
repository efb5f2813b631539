import AioftpS3.PosixPath
import AioftpS3.Lock.Queue
import Mathlib.Data.List.Sort

/-!
The locks that `_PathLock.__call__(write_to, read_from)` enters. Every written path is locked
for writing; every ancestor of a written or read path, and every read path, is locked for
reading unless it is also written. The list is sorted by `_sort_key`, shallow paths first and
then by `as_posix()`, and the locks are entered in that order. Python iterates its sets in an
order of its own; the sort key tells paths apart, so the order of the result does not depend
on it.
-/

set_option autoImplicit false
set_option relaxedAutoImplicit false

namespace AioftpS3.Lock.PathLock

open AioftpS3.PosixPath AioftpS3.Lock.Queue

/-- `_PathLock._sort_key`: the number of ancestors, then the text; Python compares the pair
lexicographically. -/
def sortKey (path : PurePosixPath) : Lex (Nat × Str) := toLex (path.parents.length, path.asPosix)

/-- `_flatten`. -/
def flatten {α : Type} (toFlatten : List (List α)) : List α := toFlatten.flatten

/-- `sorted_locks`: each path with the class of lock it is entered with, in entering order.
Python's `sorted` is a stable sort by `_sort_key`; the keys of the list are distinct, so every
such sort gives the same list, and insertion sort stands for it. -/
def pathLockEntries (writeTo readFrom : List PurePosixPath) : List (PurePosixPath × WaiterType) :=
  let writablePaths := writeTo.dedup
  let ancestorPaths := flatten ((writeTo ++ readFrom).map PurePosixPath.parents)
  let readablePaths := (ancestorPaths ++ readFrom).dedup.filter (· ∉ writablePaths)
  (readablePaths.map (·, WaiterType.read) ++ writablePaths.map (·, WaiterType.write)).insertionSort
    fun a b => sortKey a.1 ≤ sortKey b.1

/-! ## The sort key tells paths apart -/

private theorem sortKey_injective {a b : PurePosixPath} (same : sortKey a = sortKey b) : a = b :=
  asPosix_injective (congrArg Prod.snd (toLex.injective same))

/-- An ancestor sorts before its descendants. -/
theorem sortKey_lt_of_mem_parents {a path : PurePosixPath} (ancestor : a ∈ path.parents) :
    sortKey a < sortKey path := by
  have shorter := (PurePosixPath.mem_parents.mp ancestor).2
  exact Prod.Lex.lt_iff _ _ |>.mpr (.inl (by simpa using shorter))

/-! ## What the scope locks -/

private theorem mem_pathLockEntries {writeTo readFrom : List PurePosixPath} {path : PurePosixPath}
    {type : WaiterType} :
    (path, type) ∈ pathLockEntries writeTo readFrom ↔
      type = .write ∧ path ∈ writeTo ∨
      type = .read ∧ path ∉ writeTo ∧ (path ∈ readFrom ∨
        (∃ other ∈ writeTo, path ∈ other.parents) ∨ ∃ other ∈ readFrom, path ∈ other.parents) := by
  cases type
  · simp [pathLockEntries, List.mem_insertionSort, flatten, List.mem_flatten]
    exact ⟨fun ⟨found, fresh⟩ => ⟨fresh, found.rotate.rotate⟩,
      fun ⟨fresh, found⟩ => ⟨found.rotate, fresh⟩⟩
  · simp [pathLockEntries, List.mem_insertionSort, flatten, List.mem_flatten]

theorem write_mem_pathLockEntries {writeTo readFrom : List PurePosixPath} {path : PurePosixPath}
    (written : path ∈ writeTo) : (path, WaiterType.write) ∈ pathLockEntries writeTo readFrom :=
  mem_pathLockEntries.mpr (.inl ⟨rfl, written⟩)

/-- A scope locks every path that one of its paths covers: the path itself or an ancestor. -/
theorem exists_mem_pathLockEntries {writeTo readFrom : List PurePosixPath}
    {path other : PurePosixPath} (mem : other ∈ writeTo ++ readFrom)
    (covers : path = other ∨ path ∈ other.parents) :
    ∃ type, (path, type) ∈ pathLockEntries writeTo readFrom := by
  by_cases written : path ∈ writeTo
  · exact ⟨.write, write_mem_pathLockEntries written⟩
  · refine ⟨.read, mem_pathLockEntries.mpr (.inr ⟨rfl, written, ?_⟩)⟩
    rcases List.mem_append.mp mem with wrote | read <;> rcases covers with rfl | ancestor
    · exact absurd wrote written
    · exact .inr (.inl ⟨other, wrote, ancestor⟩)
    · exact .inl read
    · exact .inr (.inr ⟨other, read, ancestor⟩)

theorem nodup_pathLockEntries (writeTo readFrom : List PurePosixPath) :
    ((pathLockEntries writeTo readFrom).map Prod.fst).Nodup := by
  unfold pathLockEntries
  refine ((List.perm_insertionSort _ _).map Prod.fst).nodup_iff.mpr ?_
  simp only [List.map_append, List.map_map, Function.comp_def, List.map_id']
  refine List.Nodup.append ((List.nodup_dedup _).filter _) (List.nodup_dedup _) ?_
  intro path readable writable
  simpa [writable] using (List.mem_filter.mp readable).2

/-- `sorted_locks` is strictly increasing in `_sort_key`: its paths are distinct, and every
two scopes enter their common paths in one global order. -/
theorem pathLockEntries_sorted (writeTo readFrom : List PurePosixPath) :
    (pathLockEntries writeTo readFrom).Pairwise fun a b => sortKey a.1 < sortKey b.1 := by
  have : IsTotal (PurePosixPath × WaiterType) (fun a b => sortKey a.1 ≤ sortKey b.1) :=
    ⟨fun a b => le_total (sortKey a.1) (sortKey b.1)⟩
  have : IsTrans (PurePosixPath × WaiterType) (fun a b => sortKey a.1 ≤ sortKey b.1) :=
    ⟨fun _ _ _ => le_trans⟩
  have sorted := List.sorted_insertionSort (fun a b : PurePosixPath × WaiterType =>
    sortKey a.1 ≤ sortKey b.1)
    ((((flatten ((writeTo ++ readFrom).map PurePosixPath.parents) ++ readFrom).dedup.filter
      (· ∉ writeTo.dedup)).map (·, WaiterType.read)) ++ writeTo.dedup.map (·, WaiterType.write))
  have distinct := List.pairwise_map.mp (nodup_pathLockEntries writeTo readFrom)
  exact (sorted.and distinct).imp fun ⟨le, ne⟩ =>
    lt_of_le_of_ne (by simpa using le) fun same => ne (sortKey_injective same)

/-- A lock entered earlier has a smaller key. -/
theorem sortKey_lt_of_index_lt {writeTo readFrom : List PurePosixPath} {i j : Nat}
    {first second : PurePosixPath × WaiterType} (earlier : i < j)
    (foundFirst : (pathLockEntries writeTo readFrom)[i]? = some first)
    (foundSecond : (pathLockEntries writeTo readFrom)[j]? = some second) :
    sortKey first.1 < sortKey second.1 := by
  obtain ⟨lt, rfl⟩ := List.getElem?_eq_some_iff.mp foundSecond
  obtain ⟨-, rfl⟩ := List.getElem?_eq_some_iff.mp foundFirst
  exact List.pairwise_iff_getElem.mp (pathLockEntries_sorted writeTo readFrom) i j _ lt earlier

end AioftpS3.Lock.PathLock

import AioftpS3.PosixPath
import Mathlib.Data.List.Sort

/-!
The maps the signer is given and builds, Python `dict`s from `str` to `str`: their entries in
insertion order, each key once. Storing under a key that is there replaces its value in place,
and under a new key adds the entry last; `{**d, **other}` stores the entries of `other` into a
copy of `d`. Two dicts with entry lists that are permutations of each other compare equal, and
only the order they were filled in tells them apart.
-/

set_option autoImplicit false
set_option relaxedAutoImplicit false

namespace AioftpS3.Request.Dict

open AioftpS3.PosixPath

/-- A `dict` from `str` to `str`. -/
structure StrDict where
  entries : List (Str × Str)
  keysNodup : (entries.map Prod.fst).Nodup

namespace StrDict

/-- `d.keys()`, in insertion order. -/
def keys (d : StrDict) : List Str := d.entries.map Prod.fst

/-- `d.get(key)`. -/
def get? (d : StrDict) (key : Str) : Option Str := d.entries.lookup key

/-- `{}`. -/
def empty : StrDict := ⟨[], List.nodup_nil⟩

/-- `d[key] = value`: the value replaced where the key stands, or a new last entry. -/
def insert (d : StrDict) (key value : Str) : StrDict :=
  if present : key ∈ d.keys then
    ⟨d.entries.map fun entry => if entry.1 = key then (key, value) else entry, by
      have sameKeys : (d.entries.map fun entry => if entry.1 = key then (key, value) else entry).map
          Prod.fst = d.keys := by
        simp only [List.map_map, keys]
        exact List.map_congr_left fun entry _ => by by_cases same : entry.1 = key <;> simp [same]
      exact sameKeys ▸ d.keysNodup⟩
  else
    ⟨d.entries ++ [(key, value)], by
      rw [List.map_append, List.map_singleton]
      exact d.keysNodup.append (List.nodup_singleton _) (List.disjoint_singleton.mpr present)⟩

/-- Storing the pairs one after another. -/
def insertAll (d : StrDict) (pairs : List (Str × Str)) : StrDict :=
  pairs.foldl (fun d pair => d.insert pair.1 pair.2) d

/-- A dict display or comprehension over `pairs`. -/
def ofList (pairs : List (Str × Str)) : StrDict := empty.insertAll pairs

/-- `{**d, **other}`. -/
def merge (d other : StrDict) : StrDict := d.insertAll other.entries

@[simp] theorem insertAll_nil (d : StrDict) : d.insertAll [] = d := rfl

@[simp] theorem insertAll_cons (d : StrDict) (pair : Str × Str) (pairs : List (Str × Str)) :
    d.insertAll (pair :: pairs) = (d.insert pair.1 pair.2).insertAll pairs := rfl

/-! ## Same entries -/

private theorem get?_eq_some {d : StrDict} {key value : Str} :
    d.get? key = some value ↔ (key, value) ∈ d.entries := by
  obtain ⟨entries, nodup⟩ := d
  simp only [get?]
  induction entries with
  | nil => simp
  | cons entry entries ih =>
    obtain ⟨other, stored⟩ := entry
    obtain ⟨fresh, nodup⟩ := List.nodup_cons.mp nodup
    by_cases same : key = other
    · subst same
      have absent : (key, value) ∉ entries := fun mem => fresh (List.mem_map.mpr ⟨_, mem, rfl⟩)
      simp [absent, eq_comm]
    · have differ : (key == other) = false := by simpa using same
      simp [List.lookup_cons, differ, same, ih nodup]

theorem get?_eq_of_perm {d d' : StrDict} (perm : d.entries.Perm d'.entries) (key : Str) :
    d.get? key = d'.get? key :=
  Option.ext fun value => by rw [Option.mem_def, Option.mem_def, get?_eq_some, get?_eq_some,
    perm.mem_iff]

private theorem insert_perm {d d' : StrDict} (perm : d.entries.Perm d'.entries) (key value : Str) :
    (d.insert key value).entries.Perm (d'.insert key value).entries := by
  have present : key ∈ d.keys ↔ key ∈ d'.keys := (perm.map Prod.fst).mem_iff
  unfold insert
  split_ifs with here here' here'
  · exact perm.map _
  · exact absurd (present.mp here) here'
  · exact absurd (present.mpr here') here
  · exact perm.append_right _

theorem insertAll_perm {d d' : StrDict} (perm : d.entries.Perm d'.entries)
    (pairs : List (Str × Str)) : (d.insertAll pairs).entries.Perm (d'.insertAll pairs).entries := by
  induction pairs generalizing d d' with
  | nil => exact perm
  | cons pair pairs ih => exact ih (insert_perm perm pair.1 pair.2)

private theorem insertAll_of_fresh {d : StrDict} {pairs : List (Str × Str)}
    (distinct : (pairs.map Prod.fst).Nodup) (fresh : ∀ pair ∈ pairs, pair.1 ∉ d.keys) :
    (d.insertAll pairs).entries = d.entries ++ pairs := by
  induction pairs generalizing d with
  | nil => simp
  | cons pair pairs ih =>
    obtain ⟨notLater, distinct⟩ := List.nodup_cons.mp distinct
    have added : (d.insert pair.1 pair.2).entries = d.entries ++ [pair] := by
      simp [insert, fresh pair (List.mem_cons_self _ _)]
    rw [insertAll_cons, ih distinct fun other mem => ?_, added, List.append_assoc,
      List.singleton_append]
    have keys : (d.insert pair.1 pair.2).keys = d.keys ++ [pair.1] := by
      simp [keys, added]
    rw [keys, List.mem_append, List.mem_singleton, not_or]
    exact ⟨fresh other (List.mem_cons_of_mem _ mem),
      fun same => notLater (List.mem_map.mpr ⟨other, mem, same⟩)⟩

/-- A display with distinct keys holds its pairs, in their order. -/
theorem ofList_entries {pairs : List (Str × Str)} (distinct : (pairs.map Prod.fst).Nodup) :
    (ofList pairs).entries = pairs :=
  insertAll_of_fresh distinct (fun _ _ => List.not_mem_nil _)

end StrDict

end AioftpS3.Request.Dict

import Mathlib.Data.List.Lex
import Mathlib.Data.List.Dedup
import Mathlib.Data.List.Infix
import Mathlib.Data.Char
import Mathlib.Data.Prod.Lex
import Mathlib.Data.List.Basic

/-!
The adapter handles paths as `pathlib.PurePosixPath` does. The paths the frontend passes are
relative, the root is `'.'`, and only three things of a path are used: its `as_posix()` text
(the S3 key), its ancestors (`parent`, `parents`) and equality. Python strings are their
sequences of code points, compared as Python compares them.
-/

set_option autoImplicit false
set_option relaxedAutoImplicit false

namespace AioftpS3.PosixPath

/-- A Python `str`. -/
abbrev Str := List Char

/-- A relative `PurePosixPath` by its parts. `pathlib` drops empty and `'.'` parts, and a part
never holds the separator; the root `'.'` has no parts. -/
structure PurePosixPath where
  parts : List Str
  wellFormed : ∀ part ∈ parts, part ≠ [] ∧ part ≠ ['.'] ∧ '/' ∉ part
deriving DecidableEq

namespace PurePosixPath

@[ext] theorem ext {a b : PurePosixPath} (parts : a.parts = b.parts) : a = b := by
  cases a; cases b; cases parts; rfl

/-- `PurePosixPath('.')`. -/
def root : PurePosixPath := ⟨[], by simp⟩

/-- The first `n` parts of a path: its ancestor at depth `n`. -/
def take (path : PurePosixPath) (n : Nat) : PurePosixPath :=
  ⟨path.parts.take n, fun part h => path.wellFormed part (List.mem_of_mem_take h)⟩

/-- `as_posix()`: the parts joined by `'/'`, and `'.'` for the root. -/
def asPosix (path : PurePosixPath) : Str :=
  if path.parts = [] then ['.'] else ['/'].intercalate path.parts

/-- `parent`: the root is its own parent. -/
def parent (path : PurePosixPath) : PurePosixPath := path.take (path.parts.length - 1)

/-- `parents`: every proper ancestor, nearest first, ending with the root. -/
def parents (path : PurePosixPath) : List PurePosixPath :=
  (List.range path.parts.length).reverse.map path.take

@[simp] theorem take_parts (path : PurePosixPath) (n : Nat) :
    (path.take n).parts = path.parts.take n := rfl

@[simp] theorem length_parents (path : PurePosixPath) :
    path.parents.length = path.parts.length := by
  simp [parents]

/-- The ancestors in `parents` are exactly the paths whose parts are a proper prefix. -/
theorem mem_parents {a path : PurePosixPath} :
    a ∈ path.parents ↔ a.parts <+: path.parts ∧ a.parts.length < path.parts.length := by
  constructor
  · rintro h
    obtain ⟨n, hn, rfl⟩ := List.mem_map.mp h
    have hn : n < path.parts.length := List.mem_range.mp (List.mem_reverse.mp hn)
    exact ⟨List.take_prefix n _, by simp [hn]⟩
  · rintro ⟨⟨rest, hrest⟩, hlt⟩
    refine List.mem_map.mpr ⟨a.parts.length, List.mem_reverse.mpr (List.mem_range.mpr hlt), ?_⟩
    ext1
    simp [← hrest]

end PurePosixPath

/-! ## The text of a path -/

private theorem splitOn_asPosix {path : PurePosixPath} (nonempty : path.parts ≠ []) :
    path.asPosix.splitOn '/' = path.parts := by
  rw [PurePosixPath.asPosix, if_neg nonempty]
  exact List.splitOn_intercalate _ _ (fun part mem => (path.wellFormed part mem).2.2) nonempty

private theorem asPosix_ne_dot {path : PurePosixPath} (nonempty : path.parts ≠ []) :
    path.asPosix ≠ ['.'] := fun dot => by
  have parts := splitOn_asPosix nonempty
  rw [dot] at parts
  obtain ⟨part, mem⟩ : ∃ part, part ∈ path.parts := List.exists_mem_of_ne_nil _ nonempty
  have single : part = ['.'] := by simpa [← parts, List.splitOn] using mem
  exact (path.wellFormed part mem).2.1 single

theorem asPosix_injective {a b : PurePosixPath} (same : a.asPosix = b.asPosix) : a = b := by
  by_cases emptyA : a.parts = [] <;> by_cases emptyB : b.parts = []
  · exact PurePosixPath.ext (emptyA.trans emptyB.symm)
  · exact absurd (by simpa [PurePosixPath.asPosix, emptyA] using same.symm) (asPosix_ne_dot emptyB)
  · exact absurd (by simpa [PurePosixPath.asPosix, emptyB] using same) (asPosix_ne_dot emptyA)
  · exact PurePosixPath.ext (by rw [← splitOn_asPosix emptyA, same, splitOn_asPosix emptyB])

private theorem intercalate_concat (init : List Str) (nonempty : init ≠ []) (last : Str) :
    ['/'].intercalate (init ++ [last]) = ['/'].intercalate init ++ ['/'] ++ last := by
  induction init with
  | nil => exact absurd rfl nonempty
  | cons first rest ih =>
    cases rest with
    | nil => simp [List.intercalate, List.intersperse]
    | cons second rest =>
      have := ih (by simp)
      simp only [List.cons_append, List.intercalate, List.intersperse_cons_cons,
        List.flatten_cons] at this ⊢
      simp [this]

/-- The text of a path is its last part under the root, and otherwise its parent's text, a
`'/'` and its last part; the last part is never empty and holds no `'/'` (the root's text
`'.'` counts as its last part). -/
theorem asPosix_split (path : PurePosixPath) :
    ∃ part, part ≠ [] ∧ '/' ∉ part ∧
      (path.parent = PurePosixPath.root ∧ path.asPosix = part ∨
        path.parent ≠ PurePosixPath.root ∧
          path.asPosix = path.parent.asPosix ++ ['/'] ++ part) := by
  rcases List.eq_nil_or_concat path.parts with empty | ⟨init, last, parts⟩
  · refine ⟨['.'], by simp, by simp, .inl ⟨?_, by simp [PurePosixPath.asPosix, empty]⟩⟩
    ext1
    simp [PurePosixPath.parent, PurePosixPath.root, empty]
  · have wellFormed := path.wellFormed last (by simp [parts])
    have parentParts : path.parent.parts = init := by simp [PurePosixPath.parent, parts]
    refine ⟨last, wellFormed.1, wellFormed.2.2, ?_⟩
    rcases eq_or_ne init [] with rfl | nonempty
    · refine .inl ⟨PurePosixPath.ext (by simpa [PurePosixPath.root] using parentParts), ?_⟩
      simp [PurePosixPath.asPosix, parts, List.intercalate]
    · refine .inr ⟨fun root => nonempty (by
        simpa [PurePosixPath.root, parentParts] using congrArg PurePosixPath.parts root), ?_⟩
      simp [PurePosixPath.asPosix, parts, parentParts, nonempty, intercalate_concat]

/-- A prefix ending in `'/'` of a text followed by a part without `'/'` is a prefix of the
text. -/
theorem isPrefix_of_getLast {marker head part : Str} (extended : marker <+: head ++ part)
    (noSlash : '/' ∉ part) (slash : marker.getLast? = some '/') : marker <+: head := by
  rcases List.prefix_or_prefix_of_prefix extended (List.prefix_append head part) with
    shorter | ⟨rest, rfl⟩
  · exact shorter
  · have inPart : rest <+: part := (List.prefix_append_right_inj head).mp extended
    cases rest with
    | nil => simp
    | cons c rest =>
      rw [List.getLast?_append_of_ne_nil _ (List.cons_ne_nil c rest)] at slash
      exact absurd (inPart.subset (List.mem_of_getLast?_eq_some slash)) noSlash

/-- The text of a path never ends in `'/'`. -/
theorem getLast_asPosix (path : PurePosixPath) : path.asPosix.getLast? ≠ some '/' := by
  obtain ⟨part, nonempty, noSlash, split⟩ := asPosix_split path
  have last : path.asPosix.getLast? = part.getLast? := by
    rcases split with ⟨-, same⟩ | ⟨-, joined⟩
    · rw [same]
    · rw [joined, List.getLast?_append_of_ne_nil _ nonempty]
  rw [last]
  exact fun found => noSlash (List.mem_of_getLast?_eq_some found)

/-! ## Parsing a text -/

private theorem not_mem_of_mem_splitOn {text part : Str} (mem : part ∈ text.splitOn '/') :
    '/' ∉ part := by
  induction text generalizing part with
  | nil => simp_all
  | cons c rest ih =>
    simp only [List.splitOn, List.splitOnP_cons] at mem ih
    obtain ⟨first, others, split⟩ := List.exists_cons_of_ne_nil (List.splitOnP_ne_nil _ rest)
    split at mem
    · rcases List.mem_cons.mp mem with rfl | later
      · exact List.not_mem_nil _
      · exact ih later
    · rename_i notSlash
      rw [split, List.modifyHead_cons] at mem
      rw [split] at ih
      rcases List.mem_cons.mp mem with rfl | later
      · exact List.not_mem_cons_of_ne_of_not_mem (Ne.symm (by simpa using notSlash))
          (ih (List.mem_cons_self _ _))
      · exact ih (List.mem_cons_of_mem _ later)

namespace PurePosixPath

/-- `PurePosixPath(text)` for a text that does not begin with `'/'`: the parts between its
`'/'`s, with the empty and `'.'` parts dropped. -/
def ofPosix (text : Str) : PurePosixPath :=
  ⟨(text.splitOn '/').filter fun part => decide (part ≠ [] ∧ part ≠ ['.']), fun part mem => by
    obtain ⟨split, kept⟩ := List.mem_filter.mp mem
    exact ⟨(of_decide_eq_true kept).1, (of_decide_eq_true kept).2, not_mem_of_mem_splitOn split⟩⟩

/-- Parsing the text of a path gives the path back. -/
theorem ofPosix_asPosix (path : PurePosixPath) : ofPosix path.asPosix = path := by
  ext1
  by_cases empty : path.parts = []
  · simp [ofPosix, asPosix, empty, List.splitOn]
  · show List.filter _ (path.asPosix.splitOn '/') = _
    rw [splitOn_asPosix empty]
    exact List.filter_eq_self.mpr fun part mem =>
      decide_eq_true ⟨(path.wellFormed part mem).1, (path.wellFormed part mem).2.1⟩

end PurePosixPath

/-! ## Ancestors by their texts -/

private theorem splitOn_intercalate_append {parts : List Str} (noSlash : ∀ part ∈ parts, '/' ∉ part)
    (nonempty : parts ≠ []) (rest : Str) :
    (['/'].intercalate parts ++ '/' :: rest).splitOn '/' = parts ++ rest.splitOn '/' := by
  induction parts with
  | nil => exact absurd rfl nonempty
  | cons part parts ih =>
    have first : ∀ c ∈ part, ¬ (c == '/') = true := fun c mem same =>
      noSlash part (List.mem_cons_self _ _) (beq_iff_eq.mp same ▸ mem)
    cases parts with
    | nil =>
      simpa [List.intercalate] using List.splitOnP_first (· == '/') part first '/' (by simp) rest
    | cons next parts =>
      have joined : ['/'].intercalate (part :: next :: parts) =
          part ++ '/' :: ['/'].intercalate (next :: parts) := by
        simp [List.intercalate, List.intersperse_cons_cons]
      rw [joined, List.append_assoc, List.cons_append]
      refine (List.splitOnP_first (· == '/') part first '/' (by simp) _).trans ?_
      exact congrArg (part :: ·) (ih (fun p mem => noSlash p (List.mem_cons_of_mem _ mem)) (by simp))

private theorem asPosix_ne_nil (path : PurePosixPath) : path.asPosix ≠ [] := by
  obtain ⟨part, nonempty, -, split⟩ := asPosix_split path
  rcases split with ⟨-, same⟩ | ⟨-, joined⟩
  · rwa [same]
  · simp [joined]

namespace PurePosixPath

@[simp] theorem parent_root : root.parent = root := rfl

/-- A path that is not the root has its parent among its ancestors. -/
theorem parent_mem_parents {path : PurePosixPath} (notRoot : path ≠ root) :
    path.parent ∈ path.parents := by
  have nonempty : path.parts ≠ [] := fun empty => notRoot (ext empty)
  have pos := List.length_pos.mpr nonempty
  exact mem_parents.mpr ⟨List.take_prefix _ _, by simp [parent]; omega⟩

/-- An ancestor of the parent is an ancestor. -/
theorem mem_parents_of_mem_parent {ancestor path : PurePosixPath}
    (mem : ancestor ∈ path.parent.parents) : ancestor ∈ path.parents := by
  obtain ⟨extended, shorter⟩ := mem_parents.mp mem
  exact mem_parents.mpr ⟨extended.trans (List.take_prefix _ _),
    lt_of_lt_of_le shorter (by simp [parent])⟩

end PurePosixPath

/-- A path whose text and a `'/'` begin another path's text is an ancestor of it. -/
theorem mem_parents_of_isPrefix {ancestor path : PurePosixPath}
    (extended : ancestor.asPosix ++ ['/'] <+: path.asPosix) : ancestor ∈ path.parents := by
  have nonempty : path.parts ≠ [] := fun empty => by
    have length := extended.length_le
    have pos := List.length_pos.mpr (asPosix_ne_nil ancestor)
    have dot : path.asPosix = ['.'] := by simp [PurePosixPath.asPosix, empty]
    rw [dot, List.length_append, List.length_singleton, List.length_singleton] at length
    omega
  by_cases root : ancestor.parts = []
  · exact PurePosixPath.mem_parents.mpr ⟨by simp [root], by simp [root, List.length_pos.mpr nonempty]⟩
  · obtain ⟨rest, joined⟩ := extended
    have parts := splitOn_asPosix nonempty
    rw [← joined, List.append_assoc, List.singleton_append, PurePosixPath.asPosix, if_neg root,
      splitOn_intercalate_append (fun part mem => (ancestor.wellFormed part mem).2.2) root] at parts
    refine PurePosixPath.mem_parents.mpr ⟨⟨_, parts⟩, ?_⟩
    rw [← parts, List.length_append]
    have := List.length_pos.mpr (List.splitOnP_ne_nil (· == '/') rest)
    simp only [List.splitOn]
    omega

/-- Of two paths whose markers are one a prefix of the other, one is the other or its
ancestor. -/
theorem mem_parents_of_marker_isPrefix {ancestor path : PurePosixPath}
    (extended : ancestor.asPosix ++ ['/'] <+: path.asPosix ++ ['/']) :
    ancestor = path ∨ ancestor ∈ path.parents := by
  rcases List.prefix_concat_iff.mp extended with same | shorter
  · exact .inl (asPosix_injective (List.append_cancel_right same))
  · exact .inr (mem_parents_of_isPrefix shorter)

private theorem intercalate_isPrefix (init : List Str) (nonempty : init ≠ []) (tail : List Str)
    (more : tail ≠ []) : ['/'].intercalate init ++ ['/'] <+: ['/'].intercalate (init ++ tail) := by
  induction tail using List.reverseRecOn with
  | nil => exact absurd rfl more
  | append_singleton tail last ih =>
    rw [← List.append_assoc, intercalate_concat _ (by simp [nonempty]) last]
    rcases eq_or_ne tail [] with rfl | longer
    · simp
    · exact (ih longer).trans ⟨['/'] ++ last, by simp⟩

/-- An ancestor other than the root begins its descendant's text, followed by a `'/'`. -/
theorem marker_isPrefix_of_mem_parents {ancestor path : PurePosixPath}
    (notRoot : ancestor ≠ PurePosixPath.root) (mem : ancestor ∈ path.parents) :
    ancestor.asPosix ++ ['/'] <+: path.asPosix := by
  obtain ⟨⟨tail, joined⟩, shorter⟩ := PurePosixPath.mem_parents.mp mem
  have nonempty : ancestor.parts ≠ [] := fun empty => notRoot (PurePosixPath.ext empty)
  have more : tail ≠ [] := by
    rintro rfl
    simp [← joined] at shorter
  rw [PurePosixPath.asPosix, if_neg nonempty, PurePosixPath.asPosix,
    if_neg (by simp [← joined, nonempty]), ← joined]
  exact intercalate_isPrefix _ nonempty _ more

end AioftpS3.PosixPath

import AioftpS3.Bucket.S3

/-!
`_list_keys`: a first ListObjectsV2 page with `prefix` and `delimiter`, and then, while a page
comes with a continuation token, a later page requested with the token alone. S3 answers the
later requests from the token's position without a prefix, so once the first page is full the
listing runs on past the prefix to the end of the bucket: `_rmdir` then deletes keys outside the
directory. A directory whose entries fit on one page is listed exactly: its files, and its
subdirectories each once.
-/

set_option autoImplicit false
set_option relaxedAutoImplicit false

namespace AioftpS3.Bucket.Listing

open AioftpS3.PosixPath AioftpS3.Bucket.S3

/-- `'max-keys': '1000'`. -/
def maxKeys : Nat := 1000

/-- `S3_DIR_SUFFIX`. -/
def s3DirSuffix : Str := ['/']

/-- `_parse_list_response`: the token, the keys, and the common prefixes with their last
character, the delimiter, stripped. The keys' sizes and times are not modelled. -/
def parseListResponse (response : ListResponse) : Option Entry × List Str × List Str :=
  (response.nextToken,
    response.entries.filterMap (fun | .contents key => some key | .commonPrefixes _ => none),
    response.entries.filterMap
      (fun | .commonPrefixes rolled => some rolled.dropLast | .contents _ => none))

/-- `_list_first_page()`. -/
def listFirstPage (bucket : Bucket) (keyPrefix delimiter : Str) :
    Option Entry × List Str × List Str :=
  parseListResponse (listObjectsV2 bucket ⟨keyPrefix, delimiter, none, maxKeys⟩)

/-- `_list_later_page(token)`: the token alone, with no `prefix` and no `delimiter`. -/
def listLaterPage (bucket : Bucket) (token : Entry) : Option Entry × List Str × List Str :=
  parseListResponse (listObjectsV2 bucket ⟨[], [], some token, maxKeys⟩)

/-- The `while token` loop of `_list_keys`, for at most `fuel` pages. -/
def listLaterPages (bucket : Bucket) :
    Nat → Option Entry → List Str → List Str → Option (List Str × List Str)
  | _, none, keys, prefixes => some (keys, prefixes)
  | 0, some _, _, _ => none
  | fuel + 1, some token, keys, prefixes =>
    let (next, keysPage, prefixesPage) := listLaterPage bucket token
    listLaterPages bucket fuel next (keys ++ keysPage) (prefixes ++ prefixesPage)

/-- `_list_keys(context, key_prefix, delimeter)`. Every page but the last lists at least one key
past the one before, so the loop never runs more than `bucket.keys.length + 1` times. -/
def listKeys (bucket : Bucket) (keyPrefix delimiter : Str) : Option (List Str × List Str) :=
  let (token, keys, prefixes) := listFirstPage bucket keyPrefix delimiter
  listLaterPages bucket (bucket.keys.length + 1) token keys prefixes

/-- `_list_descendant_keys`: the keys of every page, asked for with an empty delimiter. -/
def listDescendantKeys (bucket : Bucket) (keyPrefix : Str) : Option (List Str) :=
  (listKeys bucket keyPrefix []).map Prod.fst

/-- `REG_MODE`. -/
def regMode : Nat := 0o10666

/-- `DIR_MODE`. -/
def dirMode : Nat := 0o40777

/-- An `S3Path` built from a listing: the `PurePosixPath` its constructor parses from the listed
text, and its `stat.st_mode`; the other fields of its `Stat` are not modelled. -/
structure S3Path where
  path : PurePosixPath
  stMode : Nat
deriving DecidableEq

/-- `_list_immediate_child_paths`: the keys that do not end in `'/'` as files, and the common
prefixes as directories. S3 keys are never empty, so `key[-1]` is the last character. -/
def listImmediateChildPaths (bucket : Bucket) (keyPrefix : Str) : Option (List S3Path) :=
  (listKeys bucket keyPrefix s3DirSuffix).map fun (keys, prefixes) =>
    (keys.filter (·.getLast? ≠ some '/')).map (⟨PurePosixPath.ofPosix ·, regMode⟩) ++
      prefixes.map (⟨PurePosixPath.ofPosix ·, dirMode⟩)

/-- `_list(context, path)`. -/
def list (bucket : Bucket) (path : PurePosixPath) : Option (List S3Path) :=
  listImmediateChildPaths bucket
    (if path = PurePosixPath.root then [] else path.asPosix ++ s3DirSuffix)

/-! ## Listing without a delimiter -/

section Descendants

variable {bucket : Bucket}

private theorem parse_listObjectsV2 (request : ListRequest) (noDelimiter : request.delimiter = [])
    (full : request.maxKeys = maxKeys) :
    parseListResponse (listObjectsV2 bucket request) =
      (if maxKeys < (selected bucket request).length then
          ((selected bucket request).take maxKeys).getLast?.map .contents
        else none,
        (selected bucket request).take maxKeys, []) := by
  have entries : (listed bucket request).take maxKeys =
      ((selected bucket request).take maxKeys).map .contents := by
    rw [listed_of_delimiter noDelimiter, List.map_take]
  have length : (listed bucket request).length = (selected bucket request).length := by
    rw [listed_of_delimiter noDelimiter, List.length_map]
  simp only [parseListResponse, listObjectsV2, full, entries, length, List.getLast?_map,
    List.filterMap_map]
  simp [Function.comp_def]

private theorem filter_lt_getLast_take {keys : List Str} (sorted : keys.Sorted (· < ·)) {n : Nat}
    {last : Str} (found : (keys.take n).getLast? = some last) :
    keys.filter (fun key => decide (last < key)) = keys.drop n := by
  have split := List.take_append_drop n keys
  have pairwise : (keys.take n ++ keys.drop n).Pairwise (· < ·) := split.symm ▸ sorted
  obtain ⟨sortedTake, -, across⟩ := List.pairwise_append.mp pairwise
  have nonempty : keys.take n ≠ [] := fun empty => by simp [empty] at found
  have lastEq : (keys.take n).getLast nonempty = last :=
    Option.some.inj ((List.getLast?_eq_getLast _ nonempty).symm.trans found)
  have lastMem : last ∈ keys.take n := lastEq ▸ List.getLast_mem nonempty
  -- every element of the first `n` is at most their last
  have notAfter : ∀ key ∈ keys.take n, ¬ last < key := by
    have ends := List.dropLast_append_getLast nonempty
    rw [lastEq] at ends
    have below := (List.pairwise_append.mp (ends.symm ▸ sortedTake)).2.2
    intro key mem
    rw [← ends, List.mem_append, List.mem_singleton] at mem
    rcases mem with earlier | rfl
    · exact fun after => lt_asymm (below key earlier last (List.mem_singleton_self _)) after
    · exact lt_irrefl key
  conv_lhs => rw [← split]
  rw [List.filter_append, List.filter_eq_nil_iff.mpr (by simpa using notAfter),
    List.filter_eq_self.mpr (by simpa using across last lastMem), List.nil_append]

private theorem listLaterPages_contents {fuel : Nat} {last : Str} {keys prefixes : List Str}
    (enough : (bucket.keys.filter fun key => decide (last < key)).length < fuel) :
    listLaterPages bucket fuel (some (.contents last)) keys prefixes =
      some (keys ++ bucket.keys.filter (fun key => decide (last < key)), prefixes) := by
  induction fuel generalizing last keys with
  | zero => exact absurd enough (Nat.not_lt_zero _)
  | succ fuel ih =>
    have page : listLaterPage bucket (.contents last) =
        (if maxKeys < (bucket.keys.filter fun key => decide (last < key)).length then
            ((bucket.keys.filter fun key => decide (last < key)).take maxKeys).getLast?.map
              .contents
          else none,
          (bucket.keys.filter fun key => decide (last < key)).take maxKeys, []) := by
      rw [listLaterPage, parse_listObjectsV2 _ rfl rfl]
      simp [selected, Entry.precedes]
    simp only [listLaterPages, page, List.append_nil]
    split
    · rename_i more
      have nonempty : (bucket.keys.filter fun key => decide (last < key)).take maxKeys ≠ [] := by
        rw [Ne, List.take_eq_nil_iff]
        rintro (zero | empty)
        · exact absurd zero (by decide)
        · simp [empty] at more
      obtain ⟨next, found⟩ := Option.isSome_iff_exists.mp (List.getLast?_isSome.mpr nonempty)
      have nextMem : next ∈ bucket.keys.filter fun key => decide (last < key) :=
        List.mem_of_mem_take (List.mem_of_getLast?_eq_some found)
      -- past the page's last key, the bucket holds exactly the keys the page left out
      have rest : bucket.keys.filter (fun key => decide (next < key)) =
          (bucket.keys.filter fun key => decide (last < key)).drop maxKeys := by
        rw [← filter_lt_getLast_take (List.Pairwise.filter _ bucket.sorted) found,
          List.filter_filter]
        congr 1
        funext key
        have lastNext : last < next := by simpa using (List.mem_filter.mp nextMem).2
        by_cases after : next < key
        · simp [after, lastNext.trans after]
        · simp [after]
      rw [found, Option.map_some', ih (by rw [rest, List.length_drop]; simp only [maxKeys] at more ⊢; omega),
        rest, List.append_assoc, List.take_append_drop]
    · rename_i few
      simp only [listLaterPages]
      rw [List.take_of_length_le (by omega)]

private theorem listLaterPage_token (bucket : Bucket) (token : Entry) :
    ∀ next ∈ (listLaterPage bucket token).1, ∃ key, next = .contents key := by
  intro next found
  simp only [listLaterPage, parseListResponse, listObjectsV2,
    @listed_of_delimiter bucket ⟨[], [], some token, maxKeys⟩ rfl] at found
  split at found
  · obtain ⟨key, -, rfl⟩ := List.mem_map.mp
      (List.mem_of_mem_take (List.mem_of_getLast?_eq_some (Option.mem_def.mp found)))
    exact ⟨key, rfl⟩
  · cases found

/-- From any token the `while token` loop ends within `bucket.keys.length + 2` pages: after one
page the token stands for a key, and each page then lists keys past it. -/
theorem listLaterPages_isSome (bucket : Bucket) (token : Option Entry) (keys prefixes : List Str) :
    ∃ listing, listLaterPages bucket (bucket.keys.length + 2) token keys prefixes = some listing := by
  have fromKey : ∀ {fuel : Nat} (last : Str) (keys prefixes : List Str),
      bucket.keys.length < fuel → ∃ listing,
        listLaterPages bucket fuel (some (.contents last)) keys prefixes = some listing :=
    fun last _ _ enough => ⟨_, listLaterPages_contents
      (lt_of_le_of_lt (List.length_filter_le _ _) enough)⟩
  rcases token with _ | ⟨last⟩ | rolled
  · exact ⟨_, rfl⟩
  · exact fromKey last keys prefixes (by omega)
  · rcases page : listLaterPage bucket (.commonPrefixes rolled) with
      ⟨_ | following, keysPage, prefixesPage⟩
    · exact ⟨_, by rw [show bucket.keys.length + 2 = bucket.keys.length + 1 + 1 from rfl,
        listLaterPages, page]; rfl⟩
    · obtain ⟨key, rfl⟩ := listLaterPage_token bucket _ following (by rw [page]; rfl)
      obtain ⟨listing, listed⟩ :=
        fromKey key (keys ++ keysPage) (prefixes ++ prefixesPage) (Nat.lt_succ_self _)
      exact ⟨listing, by rw [show bucket.keys.length + 2 = bucket.keys.length + 1 + 1 from rfl,
        listLaterPages, page]; exact listed⟩

/-- What `_list_descendant_keys` returns: the keys under the prefix when one page holds them,
and otherwise the first page of them followed by every key of the bucket after its last. -/
theorem listKeys_descendants (bucket : Bucket) (keyPrefix : Str) :
    ((bucket.keys.filter (keyPrefix <+: ·)).length ≤ maxKeys ∧
        listKeys bucket keyPrefix [] = some (bucket.keys.filter (keyPrefix <+: ·), [])) ∨
      (maxKeys < (bucket.keys.filter (keyPrefix <+: ·)).length ∧
        ∃ last, ((bucket.keys.filter (keyPrefix <+: ·)).take maxKeys).getLast? = some last ∧
          listKeys bucket keyPrefix [] =
            some ((bucket.keys.filter (keyPrefix <+: ·)).take maxKeys ++
              bucket.keys.filter (fun key => decide (last < key)), [])) := by
  have first : listFirstPage bucket keyPrefix [] =
      (if maxKeys < (bucket.keys.filter (keyPrefix <+: ·)).length then
          ((bucket.keys.filter (keyPrefix <+: ·)).take maxKeys).getLast?.map .contents
        else none,
        (bucket.keys.filter (keyPrefix <+: ·)).take maxKeys, []) := by
    rw [listFirstPage, parse_listObjectsV2 _ rfl rfl]
    simp [selected]
  simp only [listKeys, first]
  split
  · rename_i more
    have nonempty : (bucket.keys.filter (keyPrefix <+: ·)).take maxKeys ≠ [] := by
      rw [Ne, List.take_eq_nil_iff]
      rintro (zero | empty)
      · exact absurd zero (by decide)
      · simp [empty] at more
    obtain ⟨last, found⟩ := Option.isSome_iff_exists.mp (List.getLast?_isSome.mpr nonempty)
    refine .inr ⟨more, last, found, ?_⟩
    rw [found, Option.map_some', listLaterPages_contents (Nat.lt_succ_of_le (List.length_filter_le _ _))]
  · rename_i few
    have short := Nat.le_of_not_lt few
    refine .inl ⟨short, ?_⟩
    simp only [listLaterPages]
    rw [List.take_of_length_le short]

/-- However many pages it takes, the listing holds every key under the prefix: a key past the
first page lies after that page's last key, and the later pages list every key after it. -/
theorem listDescendantKeys_covers {keyPrefix : Str} {keys : List Str}
    (listed : listDescendantKeys bucket keyPrefix = some keys) {key : Str}
    (present : key ∈ bucket.keys) (under : keyPrefix <+: key) : key ∈ keys := by
  have mem : key ∈ bucket.keys.filter (keyPrefix <+: ·) :=
    List.mem_filter.mpr ⟨present, by simpa using under⟩
  rcases listKeys_descendants bucket keyPrefix with ⟨-, result⟩ | ⟨-, last, found, result⟩ <;>
    simp only [listDescendantKeys, result, Option.map_some', Option.some.injEq] at listed <;>
    subst listed
  · exact mem
  · rw [← List.take_append_drop maxKeys (bucket.keys.filter (keyPrefix <+: ·)), List.mem_append,
      ← filter_lt_getLast_take (List.Pairwise.filter _ bucket.sorted) found] at mem
    rcases mem with first | later
    · exact List.mem_append_left _ first
    · exact List.mem_append_right _ (List.mem_filter.mpr ⟨present, (List.mem_filter.mp later).2⟩)

/-- With every key it lists, the descendant listing lists every key of the bucket that extends
it, past the prefix too. -/
theorem listDescendantKeys_extends {keyPrefix : Str} {keys : List Str}
    (listed : listDescendantKeys bucket keyPrefix = some keys) {shorter longer : Str}
    (mem : shorter ∈ keys) (extended : shorter <+: longer) (present : longer ∈ bucket.keys) :
    longer ∈ keys := by
  have covers := listDescendantKeys_covers listed present
  rcases listKeys_descendants bucket keyPrefix with ⟨-, result⟩ | ⟨-, last, found, result⟩ <;>
    simp only [listDescendantKeys, result, Option.map_some', Option.some.injEq] at listed <;>
    subst listed
  · exact covers ((by simpa using (List.mem_filter.mp mem).2 : keyPrefix <+: shorter).trans extended)
  · rcases List.mem_append.mp mem with onPage | after
    · -- an extension of a key under the prefix is under it too
      exact covers ((by simpa using (List.mem_filter.mp (List.mem_of_mem_take onPage)).2 :
        keyPrefix <+: shorter).trans extended)
    · have lastBefore : last < shorter := by simpa using (List.mem_filter.mp after).2
      exact List.mem_append_right _ (List.mem_filter.mpr
        ⟨present, by simpa using lt_of_lt_of_le lastBefore (le_of_isPrefix extended)⟩)

end Descendants

/-! ## Listing one directory -/

section Children

variable {bucket : Bucket}

private theorem beforeDelimiter_slash_eq_none {text : Str} :
    beforeDelimiter s3DirSuffix text = none ↔ '/' ∉ text := by
  induction text with
  | nil => simp [beforeDelimiter]
  | cons c rest ih =>
    simp only [s3DirSuffix] at ih ⊢
    by_cases slash : c = '/'
    · simp [beforeDelimiter, slash]
    · simp [beforeDelimiter, slash, ih, Ne.symm slash]

private theorem beforeDelimiter_slash_eq_some {text before : Str} :
    beforeDelimiter s3DirSuffix text = some before ↔
      '/' ∉ before ∧ before ++ s3DirSuffix <+: text := by
  simp only [s3DirSuffix]
  induction text generalizing before with
  | nil => simp [beforeDelimiter]
  | cons c rest ih =>
    by_cases slash : c = '/'
    · subst slash
      cases before with
      | nil => simp [beforeDelimiter]
      | cons b before =>
        simp only [beforeDelimiter, List.cons_prefix_cons, List.nil_prefix, and_self, ↓reduceIte,
          Option.some.injEq, reduceCtorEq, List.mem_cons, not_or, List.cons_append, false_iff,
          not_and, and_imp]
        exact fun notHead _ head => absurd head.symm notHead
    · cases before with
      | nil => simp [beforeDelimiter, slash]
      | cons b before =>
        simp only [beforeDelimiter, List.cons_prefix_cons, Ne.symm slash, List.nil_prefix,
          and_true, ↓reduceIte, Option.map_eq_some', ih, List.cons.injEq, exists_eq_right_right,
          List.mem_cons, not_or, List.cons_append]
        constructor
        · rintro ⟨⟨noSlash, extended⟩, rfl⟩
          exact ⟨⟨Ne.symm slash, noSlash⟩, rfl, extended⟩
        · rintro ⟨⟨-, noSlash⟩, rfl, extended⟩
          exact ⟨⟨noSlash, extended⟩, rfl⟩

private theorem entryOf_slash (keyPrefix name : Str) :
    entryOf keyPrefix s3DirSuffix (keyPrefix ++ name) =
      ((beforeDelimiter s3DirSuffix name).map fun before =>
        .commonPrefixes (keyPrefix ++ before ++ s3DirSuffix)).getD (.contents (keyPrefix ++ name)) := by
  rw [entryOf, if_neg (by simp [s3DirSuffix]), List.drop_left]
  cases beforeDelimiter s3DirSuffix name <;> rfl

private theorem mem_selected_dir {keyPrefix key : Str} :
    key ∈ selected bucket ⟨keyPrefix, s3DirSuffix, none, maxKeys⟩ ↔
      ∃ name, key = keyPrefix ++ name ∧ key ∈ bucket.keys := by
  simp only [selected, List.mem_filter, Option.all_none, Bool.and_true, decide_eq_true_eq]
  constructor
  · rintro ⟨mem, name, rfl⟩
    exact ⟨name, rfl, mem⟩
  · rintro ⟨name, rfl, mem⟩
    exact ⟨mem, List.prefix_append _ _⟩

private theorem contents_mem_listed {keyPrefix key : Str} :
    .contents key ∈ listed bucket ⟨keyPrefix, s3DirSuffix, none, maxKeys⟩ ↔
      key ∈ bucket.keys ∧ ∃ name, '/' ∉ name ∧ key = keyPrefix ++ name := by
  simp only [listed, List.mem_dedup, List.mem_map, mem_selected_dir]
  constructor
  · rintro ⟨_, ⟨name, rfl, mem⟩, entry⟩
    rw [entryOf_slash] at entry
    cases found : beforeDelimiter s3DirSuffix name with
    | none =>
      simp only [found, Option.map_none', Option.getD_none, Entry.contents.injEq] at entry
      exact ⟨entry ▸ mem, name, beforeDelimiter_slash_eq_none.mp found, entry.symm⟩
    | some before => simp [found] at entry
  · rintro ⟨mem, name, noSlash, rfl⟩
    refine ⟨_, ⟨name, rfl, mem⟩, ?_⟩
    rw [entryOf_slash, beforeDelimiter_slash_eq_none.mpr noSlash]
    rfl

private theorem commonPrefixes_mem_listed {keyPrefix rolled : Str} :
    .commonPrefixes rolled ∈ listed bucket ⟨keyPrefix, s3DirSuffix, none, maxKeys⟩ ↔
      ∃ name, '/' ∉ name ∧ rolled = keyPrefix ++ name ++ s3DirSuffix ∧
        ∃ key ∈ bucket.keys, keyPrefix ++ name ++ s3DirSuffix <+: key := by
  simp only [listed, List.mem_dedup, List.mem_map, mem_selected_dir]
  constructor
  · rintro ⟨_, ⟨rest, rfl, mem⟩, entry⟩
    rw [entryOf_slash] at entry
    cases found : beforeDelimiter s3DirSuffix rest with
    | none => simp [found] at entry
    | some name =>
      simp only [found, Option.map_some', Option.getD_some, Entry.commonPrefixes.injEq] at entry
      obtain ⟨noSlash, extended⟩ := beforeDelimiter_slash_eq_some.mp found
      refine ⟨name, noSlash, entry.symm, _, mem, ?_⟩
      rw [List.append_assoc]
      exact (List.prefix_append_right_inj keyPrefix).mpr extended
  · rintro ⟨name, noSlash, rfl, key, mem, ⟨tail, rfl⟩⟩
    refine ⟨keyPrefix ++ (name ++ s3DirSuffix ++ tail), ⟨_, rfl, by simpa only [List.append_assoc] using mem⟩, ?_⟩
    rw [entryOf_slash, beforeDelimiter_slash_eq_some.mpr ⟨noSlash, List.prefix_append _ _⟩]
    rfl

theorem mem_parseListResponse_keys {response : ListResponse} {key : Str} :
    key ∈ (parseListResponse response).2.1 ↔ .contents key ∈ response.entries := by
  simp only [parseListResponse, List.mem_filterMap]
  constructor
  · rintro ⟨entry, mem, found⟩
    cases entry <;> simp only [Option.some.injEq, reduceCtorEq] at found
    exact found ▸ mem
  · exact fun mem => ⟨_, mem, rfl⟩

/-- A directory `a/` holding a file `a/x` and a directory `a/y/` with a file in it, and a file
`b` beside it. -/
def dirBucket : Bucket :=
  (((Bucket.empty.put ['a', '/']).put ['a', '/', 'x']).put ['a', '/', 'y', '/', 'z']).put ['b']

/-- The file `a/x` of `dirBucket`. -/
def axPath : PurePosixPath := ⟨[['a'], ['x']], by decide⟩

/-- The directory `a/y` of `dirBucket`. -/
def ayPath : PurePosixPath := ⟨[['a'], ['y']], by decide⟩

/-- The marker `a/` and the file `b` are not listed, and `a/y/z` is listed as the directory
`a/y`. -/
example : listImmediateChildPaths dirBucket ['a', '/'] =
    some [⟨axPath, regMode⟩, ⟨ayPath, dirMode⟩] := by
  decide

/-- The keys `a//x` and `a/./y` both list the directory `a` itself under `a/`, as `pathlib`
drops the empty and `'.'` parts of `a/` and `a/.`. -/
example : listImmediateChildPaths ((Bucket.empty.put "a//x".toList).put "a/./y".toList)
    ['a', '/'] = some [⟨⟨[['a']], by decide⟩, dirMode⟩, ⟨⟨[['a']], by decide⟩, dirMode⟩] := by
  decide

end Children

/-! ## Every page of a directory listing

Past the first page `_list_later_page` sends the continuation token alone, and the later pages
list every key after the token's position, under the directory or not, with no common prefixes.
What survives of the directory listing is that no file of the directory is missed.
-/

section Pages

variable {bucket : Bucket}

private theorem listLaterPages_extends : ∀ {fuel : Nat} {token : Option Entry} {keys prefixes : List Str}
    {result : List Str × List Str}, listLaterPages bucket fuel token keys prefixes = some result →
    keys <+: result.1
  | _, none, _, _, _, listed => by
    simp only [listLaterPages, Option.some.injEq] at listed
    exact listed ▸ List.prefix_refl _
  | 0, some _, _, _, _, listed => by cases listed
  | _ + 1, some token, keys, _, _, listed => by
    rcases page : listLaterPage bucket token with ⟨next, keysPage, prefixesPage⟩
    rw [listLaterPages, page] at listed
    exact (List.prefix_append keys keysPage).trans (listLaterPages_extends listed)

private theorem selected_later (token : Entry) :
    selected bucket ⟨[], [], some token, maxKeys⟩ = bucket.keys.filter token.precedes := by
  simp [selected]

private theorem listLaterPages_covers : ∀ {fuel : Nat} {token : Entry} {keys prefixes : List Str}
    {result : List Str × List Str}, listLaterPages bucket fuel (some token) keys prefixes =
      some result → ∀ key ∈ bucket.keys, token.precedes key → key ∈ result.1
  | 0, _, _, _, _, listed => by cases listed
  | _ + 1, token, keys, prefixes, result, listed => by
    intro key present after
    have mem : key ∈ bucket.keys.filter token.precedes := List.mem_filter.mpr ⟨present, after⟩
    have page : listLaterPage bucket token =
        (if maxKeys < (bucket.keys.filter token.precedes).length then
            ((bucket.keys.filter token.precedes).take maxKeys).getLast?.map .contents
          else none, (bucket.keys.filter token.precedes).take maxKeys, []) := by
      rw [listLaterPage, parse_listObjectsV2 _ rfl rfl, selected_later]
    simp only [listLaterPages, page, List.append_nil] at listed
    split at listed
    · -- the page is cut: the keys past it lie after its last key
      rename_i more
      have nonempty : (bucket.keys.filter token.precedes).take maxKeys ≠ [] := by
        rw [Ne, List.take_eq_nil_iff]
        rintro (zero | empty)
        · exact absurd zero (by decide)
        · simp [empty] at more
      obtain ⟨last, found⟩ := Option.isSome_iff_exists.mp (List.getLast?_isSome.mpr nonempty)
      rw [found, Option.map_some'] at listed
      rw [← List.take_append_drop maxKeys (bucket.keys.filter token.precedes), List.mem_append,
        ← filter_lt_getLast_take (List.Pairwise.filter _ bucket.sorted) found] at mem
      rcases mem with onPage | later
      · exact (listLaterPages_extends listed).subset (List.mem_append_right _ onPage)
      · exact listLaterPages_covers listed key present
          (by simpa [Entry.precedes] using (List.mem_filter.mp later).2)
    · -- the page holds them all
      rename_i few
      simp only [listLaterPages, Option.some.injEq] at listed
      rw [← listed, List.take_of_length_le (Nat.le_of_not_lt few)]
      exact List.mem_append_right _ mem

private theorem entryOf_eq_contents {keyPrefix delimiter key other : Str}
    (entry : entryOf keyPrefix delimiter key = .contents other) : key = other := by
  unfold entryOf at entry
  split_ifs at entry
  · exact Entry.contents.inj entry
  · split at entry
    · cases entry
    · exact Entry.contents.inj entry

private theorem isPrefix_of_entryOf_slash {keyPrefix key rolled : Str} (under : keyPrefix <+: key)
    (entry : entryOf keyPrefix s3DirSuffix key = .commonPrefixes rolled) : rolled <+: key := by
  obtain ⟨name, rfl⟩ := under
  rw [entryOf_slash] at entry
  cases found : beforeDelimiter s3DirSuffix name with
  | none => simp [found] at entry
  | some before =>
    simp only [found, Option.map_some', Option.getD_some, Entry.commonPrefixes.injEq] at entry
    rw [← entry, List.append_assoc]
    exact (List.prefix_append_right_inj keyPrefix).mpr (beforeDelimiter_slash_eq_some.mp found).2

private theorem precedes_of_sublist {keyPrefix key : Str} {token : Entry}
    (before : List.Sublist [token, .contents key]
      (listed bucket ⟨keyPrefix, s3DirSuffix, none, maxKeys⟩)) :
    token.precedes key := by
  obtain ⟨pair, selectedPair, mapped⟩ :=
    List.sublist_map_iff.mp (before.trans (List.dedup_sublist _))
  obtain ⟨first, second, rfl⟩ := List.length_eq_two.mp
    (by simpa using congrArg List.length mapped.symm : pair.length = 2)
  simp only [List.map_cons, List.map_nil, List.cons.injEq, and_true] at mapped
  obtain ⟨tokenEntry, keyEntry⟩ := mapped
  obtain rfl := entryOf_eq_contents keyEntry.symm
  have sorted := (List.Pairwise.filter _ bucket.sorted).sublist selectedPair
  have less : first < second := List.rel_of_pairwise_cons sorted (List.mem_singleton_self _)
  have firstSelected := selectedPair.subset (List.mem_cons_self _ _)
  have secondSelected := selectedPair.subset (List.mem_cons_of_mem _ (List.mem_singleton_self _))
  cases token with
  | contents last =>
    obtain rfl := entryOf_eq_contents tokenEntry.symm
    simpa [Entry.precedes] using less
  | commonPrefixes rolled =>
    obtain ⟨name, rfl, -⟩ := mem_selected_dir.mp firstSelected
    have rolledFirst := isPrefix_of_entryOf_slash (List.prefix_append _ _) tokenEntry.symm
    -- the key's entry is itself, so no `'/'` follows the prefix in it, and the common prefix,
    -- which ends in one, does not begin it
    obtain ⟨-, keyName, noSlash, keyText⟩ :=
      contents_mem_listed.mp (before.subset (List.mem_cons_of_mem _ (List.mem_singleton_self _)))
    obtain ⟨rolledName, -, rfl, -⟩ :=
      commonPrefixes_mem_listed.mp (before.subset (List.mem_cons_self _ _))
    refine Bool.and_eq_true_iff.mpr ⟨decide_eq_true (lt_of_le_of_lt (le_of_isPrefix rolledFirst)
      less), ?_⟩
    rw [Bool.not_eq_true', decide_eq_false_iff_not, keyText, List.append_assoc]
    intro extended
    have inName := ((List.prefix_append_right_inj _).mp extended).subset
      (List.mem_append_right _ (List.mem_singleton_self '/'))
    exact noSlash inName

private theorem listKeys_contents {keyPrefix : Str} {result : List Str × List Str}
    (listedKeys : listKeys bucket keyPrefix s3DirSuffix = some result) {key : Str}
    (entry : .contents key ∈ listed bucket ⟨keyPrefix, s3DirSuffix, none, maxKeys⟩) :
    key ∈ result.1 := by
  have present : key ∈ bucket.keys := (contents_mem_listed.mp entry).1
  simp only [listKeys, listFirstPage, listObjectsV2] at listedKeys
  rw [← List.take_append_drop maxKeys (listed bucket _), List.mem_append] at entry
  rcases entry with onPage | later
  · -- on the first page
    exact (listLaterPages_extends listedKeys).subset (mem_parseListResponse_keys.mpr onPage)
  · -- past it: the first page is cut, and its last entry comes before the key
    have more : maxKeys < (listed bucket ⟨keyPrefix, s3DirSuffix, none, maxKeys⟩).length := by
      by_contra few
      simp [List.drop_eq_nil_of_le (Nat.le_of_not_lt few)] at later
    have nonempty : (listed bucket ⟨keyPrefix, s3DirSuffix, none, maxKeys⟩).take maxKeys ≠ [] := by
      rw [Ne, List.take_eq_nil_iff]
      rintro (zero | empty)
      · exact absurd zero (by decide)
      · simp [empty] at more
    obtain ⟨token, found⟩ := Option.isSome_iff_exists.mp (List.getLast?_isSome.mpr nonempty)
    simp only [parseListResponse, if_pos more, found] at listedKeys
    refine listLaterPages_covers listedKeys key present
      (@precedes_of_sublist bucket keyPrefix key token ?_)
    rw [← List.take_append_drop maxKeys (listed bucket _), ← List.singleton_append]
    exact (List.singleton_sublist.mpr (List.mem_of_getLast?_eq_some found)).append
      (List.singleton_sublist.mpr later)

private theorem listLaterPage_token_mem (token next : Entry)
    (found : (listLaterPage bucket token).1 = some next) :
    ∃ key ∈ bucket.keys, next = .contents key ∧
      (bucket.keys.filter fun other => decide (key < other)).length < bucket.keys.length := by
  simp only [listLaterPage, parseListResponse, listObjectsV2,
    @listed_of_delimiter bucket ⟨[], [], some token, maxKeys⟩ rfl] at found
  split at found
  · obtain ⟨key, mem, rfl⟩ := List.mem_map.mp
      (List.mem_of_mem_take (List.mem_of_getLast?_eq_some found))
    have present := (List.mem_filter.mp mem).1
    refine ⟨key, present, rfl, lt_of_le_of_ne (List.length_filter_le _ _) fun same => ?_⟩
    have whole := (List.filter_sublist bucket.keys).eq_of_length same
    have := List.mem_filter.mp (whole ▸ present : key ∈ bucket.keys.filter _)
    simp at this
  · cases found

private theorem listKeys_isSome (keyPrefix delimiter : Str) :
    ∃ result, listKeys bucket keyPrefix delimiter = some result := by
  simp only [listKeys]
  rcases listFirstPage bucket keyPrefix delimiter with ⟨_ | token, keys, prefixes⟩
  · exact ⟨_, rfl⟩
  · cases token with
    | contents last =>
      exact ⟨_, listLaterPages_contents (Nat.lt_succ_of_le (List.length_filter_le _ _))⟩
    | commonPrefixes rolled =>
      rcases page : listLaterPage bucket (.commonPrefixes rolled) with
        ⟨_ | next, keysPage, prefixesPage⟩
      · exact ⟨(keys ++ keysPage, prefixes ++ prefixesPage), by
          rw [listLaterPages, page]
          simp only [listLaterPages]⟩
      · obtain ⟨key, -, rfl, fewer⟩ := listLaterPage_token_mem _ _ (by rw [page])
        exact ⟨_, by rw [listLaterPages, page]; exact listLaterPages_contents fewer⟩

private theorem listImmediateChildPaths_files (keyPrefix : Str) {name : Str} (noSlash : '/' ∉ name)
    (nonempty : name ≠ []) (present : keyPrefix ++ name ∈ bucket.keys) :
    ∃ children, listImmediateChildPaths bucket keyPrefix = some children ∧
      ⟨PurePosixPath.ofPosix (keyPrefix ++ name), regMode⟩ ∈ children := by
  obtain ⟨result, listedKeys⟩ := @listKeys_isSome bucket keyPrefix s3DirSuffix
  refine ⟨_, by rw [listImmediateChildPaths, listedKeys]; rfl, List.mem_append_left _ ?_⟩
  refine List.mem_map.mpr ⟨_, List.mem_filter.mpr ⟨listKeys_contents listedKeys
    (contents_mem_listed.mpr ⟨present, name, noSlash, rfl⟩), ?_⟩, rfl⟩
  rw [List.getLast?_append_of_ne_nil _ nonempty]
  exact decide_eq_true fun last => noSlash (List.mem_of_getLast?_eq_some last)

/-- `S3PathIO.list` never misses a file: for every directory and every file whose parent it is,
with the file's key in the bucket, `list` returns however many pages the listing takes, and
yields the file with `REG_MODE`. -/
theorem list_files (bucket : Bucket) (file : PurePosixPath) (present : file.asPosix ∈ bucket.keys) :
    ∃ children, list bucket file.parent = some children ∧ ⟨file, regMode⟩ ∈ children := by
  obtain ⟨part, nonempty, noSlash, split⟩ := asPosix_split file
  -- the parent's listing has the prefix the file's key goes on from with its last part
  obtain ⟨keyPrefix, listing, text⟩ : ∃ keyPrefix, list bucket file.parent =
      listImmediateChildPaths bucket keyPrefix ∧ file.asPosix = keyPrefix ++ part := by
    rcases split with ⟨root, text⟩ | ⟨notRoot, text⟩
    · exact ⟨[], by rw [list, if_pos root], text⟩
    · exact ⟨file.parent.asPosix ++ s3DirSuffix, by rw [list, if_neg notRoot], text⟩
  have parsed := PurePosixPath.ofPosix_asPosix file
  rw [text] at present parsed
  obtain ⟨children, listed, mem⟩ := listImmediateChildPaths_files keyPrefix noSlash nonempty present
  rw [parsed] at mem
  exact ⟨children, listing.trans listed, mem⟩

theorem dirBucket_file :
    ∃ children, list dirBucket axPath.parent = some children ∧ ⟨axPath, regMode⟩ ∈ children :=
  list_files dirBucket axPath (by decide)

end Pages

end AioftpS3.Bucket.Listing

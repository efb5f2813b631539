import AioftpS3.Bucket.Rmdir

/-!
`S3PathIO`: the filesystem calls over the bucket. A directory `p` is the marker key
`p.as_posix() + '/'` and a file `p` the key `p.as_posix()`; `'.'` is always a directory. Each call
that changes the bucket holds the path lock on its path, so successful calls apply one after
another. `mkdir` does not look at the parent, and an upload does not look at its own path, so a
directory can be made under a missing one and a file written over a directory's path.
-/

set_option autoImplicit false
set_option relaxedAutoImplicit false

namespace AioftpS3.Bucket.Facade

open AioftpS3.PosixPath AioftpS3.Bucket.S3 AioftpS3.Bucket.Listing AioftpS3.Bucket.Rmdir

/-- `_file_exists`: a HEAD of `path.as_posix()`. -/
def fileExists (bucket : Bucket) (path : PurePosixPath) : Bool :=
  decide (path.asPosix ∈ bucket.keys)

/-- `_dir_exists`: a HEAD of `path.as_posix() + S3_DIR_SUFFIX`. -/
def dirExists (bucket : Bucket) (path : PurePosixPath) : Bool :=
  decide (path.asPosix ++ s3DirSuffix ∈ bucket.keys)

/-- `_is_dir` on a path the frontend passes (a plain `PurePosixPath`, with no listing stat). -/
def isDir (bucket : Bucket) (path : PurePosixPath) : Bool :=
  if path = PurePosixPath.root then true else dirExists bucket path

/-- `_is_file` on a path the frontend passes. -/
def isFile (bucket : Bucket) (path : PurePosixPath) : Bool :=
  if path = PurePosixPath.root then false else fileExists bucket path

/-- `_exists`. -/
def pathExists (bucket : Bucket) (path : PurePosixPath) : Bool :=
  isFile bucket path || isDir bucket path

/-- The calls that change the bucket. -/
inductive FacadeAction
  /-- `S3PathIO.mkdir(path)`. -/
  | mkdir (path : PurePosixPath)
  /-- `S3PathIO.rmdir(path)`, every DELETE succeeding. -/
  | rmdir (path : PurePosixPath)
  /-- `S3PathIO.unlink(path)`. -/
  | unlink (path : PurePosixPath)
  /-- A write session on `path` whose `end` sends `CompleteMultipartUpload`: the `complete` step
  of the session with `_is_file(path.parent)` and `_is_dir(path.parent)` answered by the bucket. -/
  | upload (path : PurePosixPath)

/-- One successful call; `none` when it raises. -/
def step (bucket : Bucket) : FacadeAction → Option Bucket
  | .mkdir path =>
    if pathExists bucket path then none else some (bucket.put (path.asPosix ++ s3DirSuffix))
  | .rmdir path =>
    if isFile bucket path then none
    else if !isDir bucket path then none
    else (Rmdir.rmdir bucket path fun _ => true).map bucket.deleteAll
  | .unlink path =>
    if isDir bucket path then none
    else if !isFile bucket path then none
    else some (bucket.deleteAll [path.asPosix])
  | .upload path =>
    if isFile bucket path.parent || !isDir bucket path.parent then none
    else some (bucket.put path.asPosix)

/-- Successful calls one after another. -/
def run (bucket : Bucket) : List FacadeAction → Option Bucket
  | [] => some bucket
  | action :: actions => (step bucket action).bind (run · actions)

/-! ## What the calls do not check -/

/-- The path `a/b`. -/
def abPath : PurePosixPath := ⟨[['a'], ['b']], by decide⟩

/-- On the empty bucket `mkdir(a/b)` succeeds and leaves `a/b/` without `a/`, and the listing of
the root then yields `a` as a directory that `_is_dir` denies. -/
theorem mkdir_without_parent :
    ∃ bucket, run Bucket.empty [.mkdir abPath] = some bucket ∧
      abPath.asPosix ++ s3DirSuffix ∈ bucket.keys ∧ abPath.parent ≠ PurePosixPath.root ∧
      abPath.parent.asPosix ++ s3DirSuffix ∉ bucket.keys ∧
      list bucket PurePosixPath.root = some [⟨abPath.parent, dirMode⟩] ∧
      isDir bucket abPath.parent = false :=
  ⟨_, rfl, by decide, by decide, by decide, by decide, by decide⟩

/-- `mkdir(a)` and then a completed upload to `a` leave both `a` and `a/`. -/
theorem upload_over_directory :
    ∃ bucket, run Bucket.empty [.mkdir aPath, .upload aPath] = some bucket ∧
      isFile bucket aPath = true ∧ isDir bucket aPath = true :=
  ⟨_, rfl, by decide, by decide⟩

/-! ## What the calls keep -/

/-- Every directory above a key has its marker: a proper prefix of a key that ends in `'/'` is
a key. -/
def Closed (bucket : Bucket) : Prop :=
  ∀ key ∈ bucket.keys, ∀ marker, marker <+: key → marker ≠ key → marker.getLast? = some '/' →
    marker ∈ bucket.keys

private theorem closed_iff_inits {bucket : Bucket} :
    Closed bucket ↔ ∀ key ∈ bucket.keys, ∀ marker ∈ key.inits, marker ≠ key →
      marker.getLast? = some '/' → marker ∈ bucket.keys := by
  simp only [Closed, List.mem_inits]

instance : DecidablePred Closed := fun _ => decidable_of_iff _ closed_iff_inits.symm

/-- No path is both a file and a directory. -/
def Disjoint (bucket : Bucket) : Prop :=
  ∀ path, ¬ (isFile bucket path = true ∧ isDir bucket path = true)

/-- Whether every call of a run, on the bucket it runs on, also passes `check`. -/
def runChecked (check : Bucket → FacadeAction → Bool) : Bucket → List FacadeAction → Bool
  | _, [] => true
  | bucket, action :: actions =>
    check bucket action &&
      match step bucket action with
      | some next => runChecked check next actions
      | none => true

/-- The check `mkdir` does not make: the parent is a directory. -/
def checksParent (bucket : Bucket) : FacadeAction → Bool
  | .mkdir path => isDir bucket path.parent
  | _ => true

/-- The check an upload does not make: no directory at its own path. -/
def checksPath (bucket : Bucket) : FacadeAction → Bool
  | .upload path => !isDir bucket path
  | _ => true

private theorem runChecked_invariant (holds : Bucket → Prop) (check : Bucket → FacadeAction → Bool)
    (preserved : ∀ bucket action next, holds bucket → step bucket action = some next →
      check bucket action = true → holds next) :
    ∀ (actions : List FacadeAction) (bucket final : Bucket), holds bucket →
      run bucket actions = some final → runChecked check bucket actions = true → holds final
  | [], _, _, holdsBucket, ran, _ => Option.some.inj ran ▸ holdsBucket
  | action :: actions, bucket, final, holdsBucket, ran, checked => by
    obtain ⟨next, stepped, rest⟩ := Option.bind_eq_some.mp ran
    simp only [runChecked, stepped, Bool.and_eq_true] at checked
    exact runChecked_invariant holds check preserved actions next final
      (preserved bucket action next holdsBucket stepped checked.1) rest checked.2

section Keeps

variable {bucket : Bucket}

private theorem markers_of_isDir (closed : Closed bucket) {path : PurePosixPath}
    (parentDir : isDir bucket path.parent = true) {marker : Str}
    (extended : marker <+: path.asPosix) (slash : marker.getLast? = some '/') :
    marker ∈ bucket.keys := by
  obtain ⟨part, -, noSlash, split⟩ := asPosix_split path
  rcases split with ⟨-, same⟩ | ⟨notRoot, joined⟩
  · -- under the root the text has no `'/'`
    rw [same, ← List.nil_append part] at extended
    obtain rfl := List.prefix_nil.mp (isPrefix_of_getLast extended noSlash slash)
    cases slash
  · rw [joined] at extended
    have above := isPrefix_of_getLast extended noSlash slash
    have parentMarker : path.parent.asPosix ++ ['/'] ∈ bucket.keys := by
      simpa [isDir, notRoot, dirExists, s3DirSuffix] using parentDir
    by_cases same : marker = path.parent.asPosix ++ ['/']
    · exact same ▸ parentMarker
    · exact closed _ parentMarker marker above same slash

private theorem Closed.put (closed : Closed bucket) {key : Str}
    (above : ∀ marker, marker <+: key → marker ≠ key → marker.getLast? = some '/' →
      marker ∈ bucket.keys) :
    Closed (bucket.put key) := by
  intro other mem marker extended differ slash
  rcases Bucket.mem_put.mp mem with rfl | old
  · exact Bucket.mem_put.mpr (.inr (above marker extended differ slash))
  · exact Bucket.mem_put.mpr (.inr (closed other old marker extended differ slash))

private theorem Closed.deleteAll (closed : Closed bucket) {deleted : List Str}
    (below : ∀ marker ∈ deleted, marker.getLast? = some '/' →
      ∀ key ∈ bucket.keys, marker <+: key → key ∈ deleted) :
    Closed (bucket.deleteAll deleted) := by
  intro key mem marker extended differ slash
  obtain ⟨present, kept⟩ := Bucket.mem_deleteAll.mp mem
  exact Bucket.mem_deleteAll.mpr ⟨closed key present marker extended differ slash,
    fun gone => kept (below marker gone slash key present extended)⟩

private theorem Closed.deleteKeys (closed : Closed bucket) {keyPrefix : Str} {keys : List Str}
    (listed : listDescendantKeys bucket keyPrefix = some keys) (succeeds : Str → Bool) :
    Closed (bucket.deleteAll (deleteKeys keys succeeds)) :=
  closed.deleteAll fun _ gone _ _ present extended => mem_deleteKeys_of_isPrefix gone
    (listDescendantKeys_extends listed
      ((perm_deleteOrder keys).subset (List.takeWhile_subset _ gone)) extended present) extended

private theorem Closed.step (closed : Closed bucket) {action : FacadeAction} {next : Bucket}
    (stepped : step bucket action = some next) (checked : checksParent bucket action = true) :
    Closed next := by
  cases action with
  | mkdir path =>
    simp only [Facade.step] at stepped
    split at stepped <;> cases stepped
    refine closed.put fun marker extended differ slash => ?_
    rcases List.prefix_concat_iff.mp extended with whole | shorter
    · exact absurd whole differ
    · exact markers_of_isDir closed checked shorter slash
  | rmdir path =>
    simp only [Facade.step] at stepped
    split at stepped
    · cases stepped
    split at stepped
    · cases stepped
    obtain ⟨deleted, removed, rfl⟩ := Option.map_eq_some'.mp stepped
    obtain ⟨keys, listed, rfl⟩ := Option.map_eq_some'.mp removed
    exact closed.deleteKeys listed _
  | unlink path =>
    simp only [Facade.step] at stepped
    split at stepped
    · cases stepped
    split at stepped <;> cases stepped
    refine closed.deleteAll fun marker gone slash _ _ _ => ?_
    rw [List.mem_singleton.mp gone] at slash
    exact absurd slash (getLast_asPosix path)
  | upload path =>
    simp only [Facade.step] at stepped
    split at stepped <;> cases stepped
    rename_i parentOk
    have parentDir : isDir bucket path.parent = true := by simp_all
    exact closed.put fun marker extended _ slash => markers_of_isDir closed parentDir extended slash

private theorem isFile_put {key : Str} {path : PurePosixPath} (file : isFile (bucket.put key) path = true) :
    isFile bucket path = true ∨ path.asPosix = key := by
  unfold isFile fileExists at *
  split at file
  · cases file
  · rename_i notRoot
    simpa [Bucket.mem_put, notRoot, or_comm] using file

private theorem isDir_put {key : Str} {path : PurePosixPath} (dir : isDir (bucket.put key) path = true) :
    isDir bucket path = true ∨ path.asPosix ++ s3DirSuffix = key := by
  unfold isDir dirExists at *
  split at dir
  · exact .inl (if_pos ‹_›)
  · rename_i notRoot
    simpa [Bucket.mem_put, notRoot, or_comm] using dir

private theorem isFile_deleteAll {deleted : List Str} {path : PurePosixPath}
    (file : isFile (bucket.deleteAll deleted) path = true) : isFile bucket path = true := by
  unfold isFile fileExists at *
  split at file
  · cases file
  · simp_all

private theorem isDir_deleteAll {deleted : List Str} {path : PurePosixPath}
    (dir : isDir (bucket.deleteAll deleted) path = true) : isDir bucket path = true := by
  unfold isDir dirExists at *
  split at dir
  · exact if_pos ‹_›
  · simp_all

/-- A text ending in `'/'` is no path's text. -/
theorem asPosix_ne_marker (path : PurePosixPath) (text : Str) :
    path.asPosix ≠ text ++ s3DirSuffix := fun same =>
  getLast_asPosix path (by simp [same, s3DirSuffix])

private theorem Disjoint.step (disjoint : Disjoint bucket) {action : FacadeAction} {next : Bucket}
    (stepped : step bucket action = some next) (checked : checksPath bucket action = true) :
    Disjoint next := by
  rintro other ⟨file, dir⟩
  cases action with
  | mkdir path =>
    -- only `path` becomes a directory, and nothing was there
    simp only [Facade.step] at stepped
    split at stepped <;> cases stepped
    rename_i present
    have notFile : isFile bucket path = false := by simp_all [pathExists]
    have oldFile := (isFile_put file).resolve_right (asPosix_ne_marker other _)
    rcases isDir_put dir with oldDir | marker
    · exact disjoint other ⟨oldFile, oldDir⟩
    · obtain rfl := asPosix_injective (List.append_cancel_right marker)
      simp [notFile] at oldFile
  | rmdir path =>
    simp only [Facade.step] at stepped
    split at stepped
    · cases stepped
    split at stepped
    · cases stepped
    obtain ⟨deleted, -, rfl⟩ := Option.map_eq_some'.mp stepped
    exact disjoint other ⟨isFile_deleteAll file, isDir_deleteAll dir⟩
  | unlink path =>
    simp only [Facade.step] at stepped
    split at stepped
    · cases stepped
    split at stepped <;> cases stepped
    exact disjoint other ⟨isFile_deleteAll file, isDir_deleteAll dir⟩
  | upload path =>
    -- only `path` becomes a file, and it was no directory
    simp only [Facade.step] at stepped
    split at stepped <;> cases stepped
    have notDir : isDir bucket path = false := by simpa [checksPath] using checked
    have oldDir := (isDir_put dir).resolve_right fun marker => asPosix_ne_marker path _ marker.symm
    rcases isFile_put file with oldFile | same
    · exact disjoint other ⟨oldFile, oldDir⟩
    · obtain rfl := asPosix_injective same
      simp [notDir] at oldDir

end Keeps

/-- In every run from the empty bucket in which each `mkdir` found its parent a directory, every
directory above a key has its marker. -/
theorem closed_of_checksParent {actions : List FacadeAction} {bucket : Bucket}
    (ran : run Bucket.empty actions = some bucket)
    (checked : runChecked checksParent Bucket.empty actions = true) : Closed bucket :=
  runChecked_invariant Closed checksParent (fun _ _ _ closed stepped checked =>
    closed.step stepped checked) actions _ _ (by simp [Closed, Bucket.empty]) ran checked

/-- `a`; a file `a/b` written and removed; a directory `a/b`; and `a` removed with it. -/
def treeRun : List FacadeAction :=
  [.mkdir aPath, .upload abPath, .unlink abPath, .mkdir abPath, .rmdir aPath]

theorem treeRun_closed :
    ∃ bucket, run Bucket.empty treeRun = some bucket ∧
      runChecked checksParent Bucket.empty treeRun = true ∧ Closed bucket :=
  ⟨_, rfl, rfl, @closed_of_checksParent treeRun _ rfl rfl⟩

/-- In every run from the empty bucket in which no upload completed onto a directory, no path
is both a file and a directory. -/
theorem disjoint_of_checksPath {actions : List FacadeAction} {bucket : Bucket}
    (ran : run Bucket.empty actions = some bucket)
    (checked : runChecked checksPath Bucket.empty actions = true) : Disjoint bucket :=
  runChecked_invariant Disjoint checksPath (fun _ _ _ disjoint stepped checked =>
    disjoint.step stepped checked) actions _ _
    (fun path ⟨file, _⟩ => by simp [isFile, fileExists, Bucket.empty] at file) ran checked

theorem treeRun_disjoint :
    ∃ bucket, run Bucket.empty treeRun = some bucket ∧
      runChecked checksPath Bucket.empty treeRun = true ∧ Disjoint bucket :=
  ⟨_, rfl, rfl, @disjoint_of_checksPath treeRun _ rfl rfl⟩

/-! ## An `rmdir` that stops -/

/-- An `rmdir` that stops at a failed DELETE, after however many listing pages, leaves every
directory above a remaining key with its marker. -/
theorem rmdir_keeps_closed {bucket : Bucket} (closed : Closed bucket) (path : PurePosixPath)
    (succeeds : Str → Bool) {deleted : List Str}
    (ran : Rmdir.rmdir bucket path succeeds = some deleted) : Closed (bucket.deleteAll deleted) := by
  obtain ⟨keys, listed, rfl⟩ := Option.map_eq_some'.mp ran
  exact closed.deleteKeys listed succeeds

/-- `_rmdir(a)` on `smallBucket` with the DELETE of the marker `a/` failing. -/
theorem smallBucket_rmdir_stops :
    Closed smallBucket ∧ ∃ deleted,
      Rmdir.rmdir smallBucket aPath (fun key => decide (key ≠ ['a', '/'])) = some deleted ∧
      Closed (smallBucket.deleteAll deleted) :=
  ⟨by decide, _, rfl, rmdir_keeps_closed (by decide) aPath _ rfl⟩

/-! ## What `rmdir` leaves -/

/-- After a successful `rmdir(p)`, however many pages its listing takes, no key beginning with the
marker `p.as_posix() + '/'` remains. -/
theorem rmdir_empties {bucket bucket' : Bucket} {path : PurePosixPath}
    (stepped : step bucket (.rmdir path) = some bucket') :
    ∀ key ∈ bucket'.keys, ¬ path.asPosix ++ s3DirSuffix <+: key := by
  simp only [step] at stepped
  split_ifs at stepped
  obtain ⟨deleted, removed, rfl⟩ := Option.map_eq_some'.mp stepped
  obtain ⟨keys, listed, rfl⟩ := Option.map_eq_some'.mp removed
  intro key mem under
  rw [Bucket.mem_deleteAll] at mem
  exact mem.2 (mem_deleteKeys_true.mpr (listDescendantKeys_covers listed mem.1 under))

theorem smallBucket_rmdir_empties :
    ∃ bucket', step smallBucket (.rmdir aPath) = some bucket' ∧
      ∀ key ∈ bucket'.keys, ¬ aPath.asPosix ++ s3DirSuffix <+: key :=
  ⟨_, rfl, @rmdir_empties smallBucket _ aPath rfl⟩

end AioftpS3.Bucket.Facade

import AioftpS3.Bucket.Facade

/-!
The filesystem the FTP frontend sees through `S3PathIO`, what `_is_file` and `_is_dir` answer for
every path, and over it the meaning of each call: `mkdir(p)` makes `p` a directory, `unlink(p)`
takes the file `p` away, an upload makes `p` a file, `rmdir(p)` takes away `p` and everything
below it. The calls refine these meanings over whole runs, except an `rmdir` whose keys do not
fit in one listing page and an `rmdir` or upload on the root `'.'`.
-/

set_option autoImplicit false
set_option relaxedAutoImplicit false

namespace AioftpS3.Bucket.View

open AioftpS3.PosixPath AioftpS3.Bucket.S3 AioftpS3.Bucket.Listing AioftpS3.Bucket.Rmdir
  AioftpS3.Bucket.Facade

/-- A filesystem as the frontend sees it: which paths are files and which are directories. -/
@[ext] structure Filesystem where
  file : PurePosixPath → Bool
  dir : PurePosixPath → Bool

/-- What `_is_file` and `_is_dir` answer on a bucket. -/
def view (bucket : Bucket) : Filesystem := ⟨isFile bucket, isDir bucket⟩

/-- `path` is `top` or lies below it. -/
def Below (top path : PurePosixPath) : Prop := path = top ∨ top ∈ path.parents

instance (top path : PurePosixPath) : Decidable (Below top path) :=
  inferInstanceAs (Decidable (_ ∨ _))

/-- What each call means: the filesystem after it. -/
def Filesystem.apply (fs : Filesystem) : FacadeAction → Filesystem
  | .mkdir path => ⟨fs.file, fun other => other = path || fs.dir other⟩
  | .rmdir path => ⟨fun other => fs.file other && !Below path other,
      fun other => fs.dir other && !Below path other⟩
  | .unlink path => ⟨fun other => other ≠ path && fs.file other, fs.dir⟩
  | .upload path => ⟨fun other => other = path || fs.file other, fs.dir⟩

/-- What calls one after another mean. -/
def Filesystem.applyAll (fs : Filesystem) (actions : List FacadeAction) : Filesystem :=
  actions.foldl Filesystem.apply fs

/-- The calls whose meaning the code keeps: an `rmdir` or upload not on the root, and an `rmdir`
whose directory's keys fit in one listing page. -/
def kept (bucket : Bucket) : FacadeAction → Bool
  | .rmdir path => path ≠ PurePosixPath.root &&
      (bucket.keys.filter (path.asPosix ++ s3DirSuffix <+: ·)).length ≤ maxKeys
  | .upload path => path ≠ PurePosixPath.root
  | _ => true

/-! ## What a bucket update does to the view -/

section Updates

variable {bucket : Bucket}

@[simp] theorem asPosix_inj {a b : PurePosixPath} : a.asPosix = b.asPosix ↔ a = b :=
  ⟨asPosix_injective, fun same => same ▸ rfl⟩

private theorem isFile_put_marker (path other : PurePosixPath) :
    isFile (bucket.put (path.asPosix ++ s3DirSuffix)) other = isFile bucket other := by
  simp [isFile, fileExists, asPosix_ne_marker]

private theorem isDir_put_marker (path other : PurePosixPath) :
    isDir (bucket.put (path.asPosix ++ s3DirSuffix)) other =
      (other = path || isDir bucket other) := by
  by_cases root : other = PurePosixPath.root
  · simp [isDir, root]
  · simp [isDir, dirExists, root]

private theorem isFile_put_text {path : PurePosixPath} (notRoot : path ≠ PurePosixPath.root)
    (other : PurePosixPath) :
    isFile (bucket.put path.asPosix) other = (other = path || isFile bucket other) := by
  by_cases root : other = PurePosixPath.root
  · subst root
    simp [isFile, Ne.symm notRoot]
  · simp [isFile, fileExists, root]

private theorem isDir_put_text (path other : PurePosixPath) :
    isDir (bucket.put path.asPosix) other = isDir bucket other := by
  simp [isDir, dirExists, (asPosix_ne_marker path other.asPosix).symm]

private theorem isFile_deleteAll_eq (deleted : List Str) (other : PurePosixPath) :
    isFile (bucket.deleteAll deleted) other = (isFile bucket other && other.asPosix ∉ deleted) := by
  by_cases root : other = PurePosixPath.root
  · simp [isFile, root]
  · simp [isFile, fileExists, root]

private theorem isDir_deleteAll_eq (deleted : List Str) (other : PurePosixPath) :
    isDir (bucket.deleteAll deleted) other =
      (isDir bucket other &&
        (other = PurePosixPath.root || other.asPosix ++ s3DirSuffix ∉ deleted)) := by
  by_cases root : other = PurePosixPath.root
  · simp [isDir, root]
  · simp [isDir, dirExists, root]

end Updates

/-! ## Deleting a directory's keys -/

section Rmdir

variable {top : PurePosixPath} (notRoot : top ≠ PurePosixPath.root)
include notRoot

private theorem below_iff_text (path : PurePosixPath) (other : path ≠ top) :
    Below top path ↔ top.asPosix ++ s3DirSuffix <+: path.asPosix :=
  ⟨fun below => marker_isPrefix_of_mem_parents notRoot (below.resolve_left other),
    fun extended => .inr (mem_parents_of_isPrefix extended)⟩

private theorem below_iff_marker (path : PurePosixPath) :
    Below top path ↔ top.asPosix ++ s3DirSuffix <+: path.asPosix ++ s3DirSuffix := by
  refine ⟨fun below => ?_,
    fun extended => (mem_parents_of_marker_isPrefix extended).imp_left Eq.symm⟩
  rcases below with rfl | ancestor
  · exact List.prefix_refl _
  · exact (marker_isPrefix_of_mem_parents notRoot ancestor).trans (List.prefix_append _ _)

private theorem not_below_root : ¬ Below top PurePosixPath.root := by
  rintro (same | ancestor)
  · exact notRoot same.symm
  · simp [PurePosixPath.parents, PurePosixPath.root] at ancestor

end Rmdir

private theorem view_deleteAll {bucket : Bucket} {top : PurePosixPath}
    (notRoot : top ≠ PurePosixPath.root) (notFile : isFile bucket top = false) {deleted : List Str}
    (exact : ∀ key, key ∈ deleted ↔ key ∈ bucket.keys ∧ top.asPosix ++ s3DirSuffix <+: key) :
    view (bucket.deleteAll deleted) = (view bucket).apply (.rmdir top) := by
  ext other
  · -- a file goes when its text is under the marker
    simp only [view, Filesystem.apply, isFile_deleteAll_eq, exact]
    by_cases file : isFile bucket other = true
    · have present : other ≠ PurePosixPath.root ∧ other.asPosix ∈ bucket.keys := by
        simpa [isFile, fileExists, apply_ite] using file
      have notTop : other ≠ top := fun same => by simp [same, notFile] at file
      simp [file, present.2, below_iff_text notRoot other notTop]
    · simp [file]
  · -- a directory goes when its marker is under the marker; the root stays
    simp only [view, Filesystem.apply, isDir_deleteAll_eq, exact]
    by_cases root : other = PurePosixPath.root
    · simp [root, not_below_root notRoot]
    · by_cases dir : isDir bucket other = true
      · have present : other.asPosix ++ s3DirSuffix ∈ bucket.keys := by
          simpa [isDir, dirExists, root] using dir
        simp [dir, root, present, below_iff_marker notRoot other]
      · simp [dir]

/-! ## The calls refine their meaning -/

/-- Every call the code keeps the meaning of does to the filesystem what its name says, and
nothing else. -/
theorem view_step {bucket next : Bucket} {action : FacadeAction}
    (stepped : step bucket action = some next) (keeps : kept bucket action = true) :
    view next = (view bucket).apply action := by
  cases action with
  | mkdir path =>
    simp only [step] at stepped
    split at stepped <;> cases stepped
    ext other
    · exact isFile_put_marker path other
    · exact isDir_put_marker path other
  | rmdir path =>
    simp only [kept, Bool.and_eq_true, decide_eq_true_eq] at keeps
    simp only [step] at stepped
    split at stepped
    · cases stepped
    rename_i notFile
    split at stepped
    · cases stepped
    obtain ⟨deleted, removed, rfl⟩ := Option.map_eq_some'.mp stepped
    obtain ⟨deleted', listed, exact⟩ := rmdir_of_fits keeps.2
    obtain rfl : deleted = deleted' := Option.some.inj (removed.symm.trans listed)
    exact view_deleteAll keeps.1 (by simpa using notFile) exact
  | unlink path =>
    simp only [step] at stepped
    split at stepped
    · cases stepped
    split at stepped <;> cases stepped
    ext other
    · -- only the file `path` goes
      simp only [view, Filesystem.apply, isFile_deleteAll_eq, List.mem_singleton, asPosix_inj]
      by_cases here : other = path <;> simp [here]
    · -- a marker is no file's key
      simp [view, Filesystem.apply, isDir_deleteAll_eq, (asPosix_ne_marker path other.asPosix).symm]
  | upload path =>
    simp only [kept, decide_eq_true_eq] at keeps
    simp only [step] at stepped
    split at stepped <;> cases stepped
    ext other
    · exact isFile_put_text keeps other
    · exact isDir_put_text path other

/-- Over every run of calls the code keeps the meaning of, from any bucket, the filesystem the
frontend sees is the one the calls' meanings give, one after another. -/
theorem view_run : ∀ {bucket final : Bucket} {actions : List FacadeAction},
    run bucket actions = some final → runChecked kept bucket actions = true →
      view final = (view bucket).applyAll actions
  | _, _, [], ran, _ => by cases ran; rfl
  | bucket, final, action :: actions, ran, checked => by
    obtain ⟨next, stepped, rest⟩ := Option.bind_eq_some.mp ran
    simp only [runChecked, stepped, Bool.and_eq_true] at checked
    rw [Filesystem.applyAll, List.foldl_cons, ← view_step stepped checked.1]
    exact view_run rest checked.2

theorem treeRun_view :
    ∃ bucket, run Bucket.empty treeRun = some bucket ∧ runChecked kept Bucket.empty treeRun = true ∧
      view bucket = (view Bucket.empty).applyAll treeRun :=
  ⟨_, rfl, by decide, view_run rfl (by decide)⟩

end AioftpS3.Bucket.View

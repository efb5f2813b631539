import AioftpS3.Bucket.Facade

/-!
`_is_dir` and `_is_file` answer for a listed `S3Path` from its `st_mode`, without a request, and
fall back to the root check and a HEAD only for a plain path. They test the mode against
`DIR_MODE` and `REG_MODE` themselves, which share the permission bits `0o666`, so both pass for
every listed path; and `REG_MODE` is `0o10666`, a FIFO's file-type bits, where its comment has
`stat.S_IFREG | 0o666`.
-/

set_option autoImplicit false
set_option relaxedAutoImplicit false

namespace AioftpS3.Bucket.StatPath

open AioftpS3.PosixPath AioftpS3.Bucket.S3 AioftpS3.Bucket.Listing

/-- `stat.S_IFMT`: the file-type bits of a mode. -/
def sIfmt : Nat := 0o170000

/-- `stat.S_IFDIR`. -/
def sIfdir : Nat := 0o040000

/-- `stat.S_IFIFO`. -/
def sIfifo : Nat := 0o010000

/-- What `_is_dir` and `_is_file` are given: a plain path the frontend passes, or an `S3Path`
that a listing yielded. -/
inductive PathArg
  | plain (path : PurePosixPath)
  | listed (path : S3Path)

/-- `_is_dir`. -/
def isDir (bucket : Bucket) : PathArg → Bool
  | .listed path =>
    if path.stMode &&& dirMode ≠ 0 then true
    else Facade.isDir bucket path.path
  | .plain path => Facade.isDir bucket path

/-- `_is_file`. -/
def isFile (bucket : Bucket) : PathArg → Bool
  | .listed path =>
    if path.stMode &&& regMode ≠ 0 then true
    else Facade.isFile bucket path.path
  | .plain path => Facade.isFile bucket path

/-! ## The modes of listed paths -/

private theorem stMode_of_mem_listImmediateChildPaths {bucket : Bucket} {keyPrefix : Str}
    {children : List S3Path} (listed : listImmediateChildPaths bucket keyPrefix = some children)
    {child : S3Path} (mem : child ∈ children) : child.stMode = regMode ∨ child.stMode = dirMode := by
  obtain ⟨⟨keys, prefixes⟩, -, rfl⟩ := Option.map_eq_some'.mp listed
  rcases List.mem_append.mp mem with file | dir
  · obtain ⟨_, -, rfl⟩ := List.mem_map.mp file
    exact .inl rfl
  · obtain ⟨_, -, rfl⟩ := List.mem_map.mp dir
    exact .inr rfl

private theorem regMode_type : regMode &&& sIfmt = sIfifo := by decide

private theorem dirMode_type : dirMode &&& sIfmt = sIfdir := by decide

private theorem land_modes_ne_zero {mode other : Nat} (listedMode : mode = regMode ∨ mode = dirMode)
    (otherMode : other = regMode ∨ other = dirMode) : mode &&& other ≠ 0 := by
  rcases listedMode with rfl | rfl <;> rcases otherMode with rfl | rfl <;> decide

/-- Every path a listing yields has the file-type bits of a FIFO, if it was built from a key, or
of a directory, if from a common prefix; and `_is_dir` and `_is_file` are both true for it, from
its mode alone, whatever the bucket holds by the time they are asked. -/
theorem listed_isDir_isFile (bucket : Bucket) (keyPrefix : Str) {children : List S3Path}
    (listed : listImmediateChildPaths bucket keyPrefix = some children) :
    ∀ child ∈ children,
      (child.stMode = regMode ∧ child.stMode &&& sIfmt = sIfifo ∨
        child.stMode = dirMode ∧ child.stMode &&& sIfmt = sIfdir) ∧
      ∀ later : Bucket, isDir later (.listed child) = true ∧ isFile later (.listed child) = true := by
  intro child mem
  have mode := stMode_of_mem_listImmediateChildPaths listed mem
  refine ⟨mode.imp (fun reg => ⟨reg, reg ▸ regMode_type⟩) (fun dir => ⟨dir, dir ▸ dirMode_type⟩),
    fun later => ⟨?_, ?_⟩⟩
  · simp [isDir, land_modes_ne_zero mode (.inr rfl)]
  · simp [isFile, land_modes_ne_zero mode (.inl rfl)]

theorem dirBucket_isDir_isFile :
    listImmediateChildPaths dirBucket ['a', '/'] =
        some [⟨axPath, regMode⟩, ⟨ayPath, dirMode⟩] ∧
      ∀ child ∈ [(⟨axPath, regMode⟩ : S3Path), ⟨ayPath, dirMode⟩],
        (child.stMode = regMode ∧ child.stMode &&& sIfmt = sIfifo ∨
          child.stMode = dirMode ∧ child.stMode &&& sIfmt = sIfdir) ∧
        ∀ later : Bucket, isDir later (.listed child) = true ∧ isFile later (.listed child) = true :=
  ⟨by decide, listed_isDir_isFile dirBucket ['a', '/'] (by decide)⟩

end AioftpS3.Bucket.StatPath

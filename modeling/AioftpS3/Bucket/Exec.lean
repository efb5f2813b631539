import AioftpS3.Bucket.Requests

/-!
A call run alone, S3 answering every request: its program's requests served one after another on
the bucket. Run so, a call ends, returns exactly when `Facade.step` succeeds and leaves the bucket
the step leaves, and changes nothing when it raises; and a log that a call followed to its end is
the call run alone on the bucket the log was served from.
-/

set_option autoImplicit false
set_option relaxedAutoImplicit false

namespace AioftpS3.Bucket.Exec

open AioftpS3.PosixPath AioftpS3.Bucket.S3 AioftpS3.Bucket.Requests AioftpS3.Bucket.Requests.Prog
open AioftpS3.Bucket.Listing (maxKeys listLaterPages listLaterPage listFirstPage s3DirSuffix)
open AioftpS3.Bucket.Facade (FacadeAction)

/-- The call run alone for at most `fuel` requests, S3 answering each: how it ends, and the
bucket it leaves. -/
def exec : Nat → Bucket → Prog → Option (Outcome × Bucket)
  | _, bucket, .done outcome => some (outcome, bucket)
  | 0, _, _ => none
  | fuel + 1, bucket, prog =>
    prog.request.bind fun request =>
      exec fuel (serve bucket request).2 (prog.answer (serve bucket request).1)

section Exec

variable {fuel : Nat} {bucket : Bucket} {result : Outcome × Bucket}

@[simp] theorem exec_done (fuel : Nat) (bucket : Bucket) (outcome : Outcome) :
    exec fuel bucket (.done outcome) = some (outcome, bucket) := by
  cases fuel <;> rfl

theorem exec_step {prog : Prog} {request : Request} (sends : prog.request = some request) :
    exec (fuel + 1) bucket prog =
      exec fuel (serve bucket request).2 (prog.answer (serve bucket request).1) := by
  cases prog with
  | done => cases sends
  | send | listLater => exact congrArg (Option.bind · _) sends

private theorem exec_send (request : Request) (next : Response → Prog) :
    exec (fuel + 1) bucket (.send request next) =
      exec fuel (serve bucket request).2 (next (serve bucket request).1) := rfl

private theorem exec_listLater_page (token : Entry) (keys prefixes : List Str)
    (next : List Str × List Str → Prog) :
    exec (fuel + 1) bucket (.listLater token keys prefixes next) =
      exec fuel bucket
        (afterPage keys prefixes next (.page (listObjectsV2 bucket ⟨[], [], some token, maxKeys⟩))) :=
  rfl

private theorem exec_add {prog : Prog} (ends : exec fuel bucket prog = some result) (extra : Nat) :
    exec (fuel + extra) bucket prog = some result := by
  induction fuel generalizing bucket prog with
  | zero =>
    cases prog with
    | done => simpa using ends
    | send | listLater => cases ends
  | succ fuel ih =>
    cases prog with
    | done => simpa using ends
    | send request next =>
      rw [Nat.add_right_comm, exec_send]
      exact ih ends
    | listLater token keys prefixes next =>
      rw [Nat.add_right_comm, exec_listLater_page]
      exact ih ends

/-- A call run alone ends one way, whatever the fuel. -/
theorem exec_unique {fuel' : Nat} {prog : Prog} {result' : Outcome × Bucket}
    (ends : exec fuel bucket prog = some result) (ends' : exec fuel' bucket prog = some result') :
    result = result' := by
  have both := exec_add ends fuel'
  rw [Nat.add_comm, exec_add ends' fuel] at both
  exact (Option.some.inj both).symm

/-! ### The checks -/

variable {path : PurePosixPath} {next : Bool → Prog}

private theorem exec_isFile (ends : exec fuel bucket (next (Facade.isFile bucket path)) = some result) :
    exec (fuel + 1) bucket (isFile path next) = some result := by
  by_cases root : path = PurePosixPath.root
  · simp only [isFile, Facade.isFile, root, if_true] at ends ⊢
    exact exec_add ends 1
  · simp only [isFile, Facade.isFile, Facade.fileExists, root, if_false] at ends ⊢
    simpa [fileExists, exec_send, serve] using ends

private theorem exec_isDir (ends : exec fuel bucket (next (Facade.isDir bucket path)) = some result) :
    exec (fuel + 1) bucket (isDir path next) = some result := by
  by_cases root : path = PurePosixPath.root
  · simp only [isDir, Facade.isDir, root, if_true] at ends ⊢
    exact exec_add ends 1
  · simp only [isDir, Facade.isDir, Facade.dirExists, root, if_false] at ends ⊢
    simpa [dirExists, exec_send, serve] using ends

private theorem exec_pathExists
    (ends : exec fuel bucket (next (Facade.pathExists bucket path)) = some result) :
    exec (fuel + 2) bucket (pathExists path next) = some result := by
  refine exec_isFile ?_
  cases file : Facade.isFile bucket path
  · exact exec_isDir (by simpa [Facade.pathExists, file] using ends)
  · simpa [Facade.pathExists, file] using exec_add ends 1

/-! ### The listing loop -/

private theorem listLaterPages_none (bucket : Bucket) (fuel : Nat) (keys prefixes : List Str) :
    listLaterPages bucket fuel none keys prefixes = some (keys, prefixes) := by
  cases fuel <;> rfl

private theorem exec_listLater {pages : Nat} {token : Entry} {keys prefixes : List Str}
    {next : List Str × List Str → Prog} {listing : List Str × List Str}
    (listed : listLaterPages bucket pages (some token) keys prefixes = some listing)
    (ends : exec fuel bucket (next listing) = some result) :
    exec (fuel + pages) bucket (.listLater token keys prefixes next) = some result := by
  induction pages generalizing token keys prefixes with
  | zero => cases listed
  | succ pages ih =>
    rw [← Nat.add_assoc, exec_listLater_page]
    rcases page : listLaterPage bucket token with ⟨following, keysPage, prefixesPage⟩
    have parsed : Listing.parseListResponse
        (listObjectsV2 bucket ⟨[], [], some token, maxKeys⟩) = (following, keysPage, prefixesPage) :=
      page
    simp only [listLaterPages, page] at listed
    simp only [afterPage, parsed]
    rcases following with _ | following
    · rw [listLaterPages_none] at listed
      cases listed
      exact exec_add ends pages
    · exact ih listed

private theorem exec_listKeys {keyPrefix delimiter : Str} {next : List Str × List Str → Prog}
    {listing : List Str × List Str}
    (listed : Listing.listKeys bucket keyPrefix delimiter = some listing)
    (ends : exec fuel bucket (next listing) = some result) :
    exec (fuel + (bucket.keys.length + 1) + 1) bucket (Requests.listKeys keyPrefix delimiter next) =
      some result := by
  rw [Requests.listKeys, exec_send]
  rcases page : listFirstPage bucket keyPrefix delimiter with ⟨following, keysPage, prefixesPage⟩
  have parsed : Listing.parseListResponse
      (listObjectsV2 bucket ⟨keyPrefix, delimiter, none, maxKeys⟩) =
        (following, keysPage, prefixesPage) := page
  simp only [Listing.listKeys, page] at listed
  simp only [serve, afterPage, parsed, List.nil_append]
  rcases following with _ | following
  · rw [listLaterPages_none] at listed
    cases listed
    exact exec_add ends _
  · exact exec_listLater listed ends

private theorem exec_deleteKeys (keys : List Str) (bucket : Bucket) :
    exec keys.length bucket (deleteKeys keys) = some (.returned, bucket.deleteAll keys) := by
  induction keys generalizing bucket with
  | nil => simp [deleteKeys]
  | cons key keys ih =>
    rw [List.length_cons, deleteKeys, exec_send]
    simpa [serve, raiseForStatus, Bucket.deleteAll_deleteAll] using ih (bucket.deleteAll [key])

/-- Run alone, every program ends, whatever point it is at: a program is a finite tree of
requests, and a listing's loop ends within `bucket.keys.length + 2` pages. -/
theorem exec_ends (bucket : Bucket) (prog : Prog) :
    ∃ fuel result, exec fuel bucket prog = some result := by
  induction prog generalizing bucket with
  | done outcome => exact ⟨0, _, exec_done 0 bucket outcome⟩
  | send request next ih =>
    obtain ⟨fuel, result, ends⟩ := ih (serve bucket request).1 (serve bucket request).2
    exact ⟨fuel + 1, result, (exec_send request next).trans ends⟩
  | listLater token keys prefixes next ih =>
    obtain ⟨listing, listed⟩ := Listing.listLaterPages_isSome bucket (some token) keys prefixes
    obtain ⟨fuel, result, ends⟩ := ih listing bucket
    exact ⟨_, result, exec_listLater listed ends⟩

/-! ### The calls -/

private theorem deleteKeys_true (keys : List Str) : Rmdir.deleteKeys keys (fun _ => true) = Rmdir.deleteOrder keys :=
  List.takeWhile_eq_self_iff.mpr fun _ _ => rfl

/-- Run alone, S3 answering every request, the program ends as `Facade.step` says for the
action: it returns exactly when the step succeeds, and it leaves the bucket the step leaves, or
the bucket as it was when it raises. -/
def EndsAsStep (bucket : Bucket) (action : FacadeAction) (prog : Prog) : Prop :=
  ∃ fuel outcome, exec fuel bucket prog = some (outcome, (Facade.step bucket action).getD bucket) ∧
    (outcome = .returned ↔ (Facade.step bucket action).isSome)

private theorem exec_mkdir (bucket : Bucket) (path : PurePosixPath) :
    EndsAsStep bucket (.mkdir path) (callProg (.mkdir path)) := by
  cases present : Facade.pathExists bucket path
  · refine ⟨1 + 2, .returned, exec_pathExists ?_, by simp [Facade.step, present]⟩
    simp [present, Facade.step, Requests.mkdir, exec_send, serve, raiseForStatus, s3DirSuffix]
  · refine ⟨0 + 2, .raised (some (path.asPosix ++ " already exists".toList)),
      exec_pathExists ?_, by simp [Facade.step, present]⟩
    simp [present, Facade.step, raisedAbout]

private theorem exec_rmdir (bucket : Bucket) (path : PurePosixPath) :
    EndsAsStep bucket (.rmdir path) (callProg (.rmdir path)) := by
  cases file : Facade.isFile bucket path
  · cases dir : Facade.isDir bucket path
    · refine ⟨0 + 1 + 1, .raised (some (path.asPosix ++ " does not exist".toList)),
        exec_isFile ?_, by simp [Facade.step, file, dir]⟩
      simp only [file, Bool.false_eq_true, if_false]
      refine exec_isDir ?_
      simp [dir, Facade.step, file, raisedAbout]
    · -- the listing under the marker, then the DELETEs deepest first
      obtain ⟨listing, listed⟩ :
          ∃ listing, Listing.listKeys bucket (path.asPosix ++ s3DirSuffix) [] = some listing := by
        rcases Listing.listKeys_descendants bucket (path.asPosix ++ s3DirSuffix) with
          ⟨_, found⟩ | ⟨_, _, _, found⟩ <;> exact ⟨_, found⟩
      refine ⟨(Rmdir.deleteOrder listing.1).length + (bucket.keys.length + 1) + 1 + 1 + 1,
        .returned, exec_isFile ?_, by simp [Facade.step, file, dir, Rmdir.rmdir,
          Listing.listDescendantKeys, listed]⟩
      simp only [file, Bool.false_eq_true, if_false]
      refine exec_isDir ?_
      simpa [Facade.step, file, dir, Rmdir.rmdir, Listing.listDescendantKeys, listed,
        deleteKeys_true] using exec_listKeys listed (exec_deleteKeys _ _)
  · refine ⟨0 + 1, .raised (some (path.asPosix ++ " is not a directory".toList)),
      exec_isFile ?_, by simp [Facade.step, file]⟩
    simp [file, Facade.step, raisedAbout]

private theorem exec_unlink (bucket : Bucket) (path : PurePosixPath) :
    EndsAsStep bucket (.unlink path) (callProg (.unlink path)) := by
  cases dir : Facade.isDir bucket path
  · cases file : Facade.isFile bucket path
    · refine ⟨0 + 1 + 1, .raised (some (path.asPosix ++ " does not exist".toList)),
        exec_isDir ?_, by simp [Facade.step, file, dir]⟩
      simp only [dir, Bool.false_eq_true, if_false]
      refine exec_isFile ?_
      simp [file, dir, Facade.step, raisedAbout]
    · refine ⟨1 + 1 + 1, .returned, exec_isDir ?_, by simp [Facade.step, file, dir]⟩
      simp only [dir, Bool.false_eq_true, if_false]
      refine exec_isFile ?_
      simp [file, dir, Facade.step, Requests.unlink, exec_send, serve, raiseForStatus]
  · refine ⟨0 + 1, .raised (some (path.asPosix ++ " is a directory".toList)),
      exec_isDir ?_, by simp [Facade.step, dir]⟩
    simp [dir, Facade.step, raisedAbout]

private theorem exec_completeUpload (bucket : Bucket) (path : PurePosixPath) :
    EndsAsStep bucket (.upload path) (callProg (.upload path)) := by
  cases file : Facade.isFile bucket path.parent
  · cases dir : Facade.isDir bucket path.parent
    · refine ⟨0 + 1 + 1, .raised (some (path.parent.asPosix ++ " does not exist".toList)),
        exec_isFile ?_, by simp [Facade.step, file, dir]⟩
      simp only [file, Bool.false_eq_true, if_false]
      refine exec_isDir ?_
      simp [file, dir, Facade.step, raisedAbout]
    · refine ⟨1 + 1 + 1, .returned, exec_isFile ?_, by simp [Facade.step, file, dir]⟩
      simp only [file, Bool.false_eq_true, if_false]
      refine exec_isDir ?_
      simp [file, dir, Facade.step, multipartUploadComplete, exec_send, serve, raiseForStatus]
  · refine ⟨0 + 1, .raised (some (path.parent.asPosix ++ " is not a directory".toList)),
      exec_isFile ?_, by simp [Facade.step, file]⟩
    simp [file, Facade.step, raisedAbout]

/-- The facade refined: run alone, S3 answering every request, the program of every call ends.
It returns exactly when `Facade.step` succeeds, and it leaves the bucket `Facade.step` leaves, or
the bucket as it was when it raises. -/
theorem exec_callProg (bucket : Bucket) (action : FacadeAction) :
    ∃ fuel outcome, exec fuel bucket (callProg action) =
        some (outcome, (Facade.step bucket action).getD bucket) ∧
      (outcome = .returned ↔ (Facade.step bucket action).isSome) := by
  cases action with
  | mkdir path => exact exec_mkdir bucket path
  | rmdir path => exact exec_rmdir bucket path
  | unlink path => exact exec_unlink bucket path
  | upload path => exact exec_completeUpload bucket path

/-- A log the call followed to its end, S3 answering every request of it, is the call run alone
on the bucket the log was served from. -/
theorem exec_of_follow {prog : Prog} {log : List (Request × Response)} {outcome : Outcome}
    {bucket bucket' : Bucket} (followed : prog.follow log = some (.done outcome))
    (answered : ∀ exchange ∈ log, exchange.2 ≠ .failed)
    (replayed : replay bucket log = some bucket') :
    exec log.length bucket prog = some (outcome, bucket') := by
  induction log generalizing prog bucket with
  | nil =>
    obtain rfl := Option.some.inj followed
    obtain rfl := Option.some.inj replayed
    exact exec_done _ _ _
  | cons exchange log ih =>
    obtain ⟨request, response⟩ := exchange
    simp only [Prog.follow] at followed
    split at followed
    · rename_i sends
      have notFailed : response ≠ .failed := answered _ (List.mem_cons_self _ _)
      simp only [replay_cons, replayOne, notFailed, if_false] at replayed
      split at replayed
      · rename_i served
        rw [List.length_cons, exec_step sends, served]
        exact ih followed (fun exchange mem => answered exchange (List.mem_cons_of_mem _ mem))
          replayed
      · cases replayed
    · cases followed

end Exec

end AioftpS3.Bucket.Exec

import AioftpS3.Bucket.Facade

/-!
`S3PathIO`'s calls as programs of S3 requests: `mkdir`, `rmdir`, `unlink` and the locked part of
a write session's `end` check their path with HEADs, then PUT a marker, DELETE keys or complete
the upload, and their task may be suspended between any two requests. A call touches only its
own key and marker, the keys under its marker and its parent's, so the requests of calls on paths
apart may be served in either order; and every call checks before it changes.
-/

set_option autoImplicit false
set_option relaxedAutoImplicit false

namespace AioftpS3.Bucket.Requests

open AioftpS3.PosixPath AioftpS3.Bucket.S3
open AioftpS3.Bucket.Listing (maxKeys parseListResponse mem_parseListResponse_keys)
open AioftpS3.Bucket.Facade (FacadeAction)

deriving instance DecidableEq for ListRequest
deriving instance DecidableEq for ListResponse

/-! ## Requests -/

/-- A request to S3, by what it asks of the bucket. -/
inductive Request
  /-- A HEAD of a key. -/
  | head (key : Str)
  /-- A PUT of a key, or the `CompleteMultipartUpload` POST that makes it. -/
  | put (key : Str)
  /-- A DELETE of a key. -/
  | delete (key : Str)
  /-- A ListObjectsV2 page. -/
  | list (request : ListRequest)
deriving DecidableEq

/-- What S3 answers. -/
inductive Response
  /-- The status of a HEAD: 200 when the key is there, 404 when not. -/
  | head (found : Bool)
  /-- The success status of a PUT, POST or DELETE. -/
  | done
  /-- A ListObjectsV2 page. -/
  | page (response : ListResponse)
  /-- An error status, or no answer at all. -/
  | failed
deriving DecidableEq

/-- S3 answering a request, and the bucket it leaves. A DELETE of a key that is not there
succeeds. -/
def serve (bucket : Bucket) : Request → Response × Bucket
  | .head key => (.head (decide (key ∈ bucket.keys)), bucket)
  | .put key => (.done, bucket.put key)
  | .delete key => (.done, bucket.deleteAll [key])
  | .list request => (.page (listObjectsV2 bucket request), bucket)

/-- Serving a request of a log again: a request that failed changed nothing, and any other must
get the answer the log has for it. -/
def replayOne (bucket : Bucket) (exchange : Request × Response) : Option Bucket :=
  if exchange.2 = .failed then some bucket
  else if (serve bucket exchange.1).1 = exchange.2 then some (serve bucket exchange.1).2
  else none

/-- Serving the requests of a log one after another. -/
def replay (bucket : Bucket) : List (Request × Response) → Option Bucket
  | [] => some bucket
  | exchange :: log => (replayOne bucket exchange).bind (replay · log)

@[simp] theorem replay_nil (bucket : Bucket) : replay bucket [] = some bucket := rfl

@[simp] theorem replay_cons (bucket : Bucket) (exchange : Request × Response)
    (log : List (Request × Response)) :
    replay bucket (exchange :: log) = (replayOne bucket exchange).bind (replay · log) := rfl

theorem replay_append (bucket : Bucket) (first rest : List (Request × Response)) :
    replay bucket (first ++ rest) = (replay bucket first).bind (replay · rest) := by
  induction first generalizing bucket with
  | nil => rfl
  | cons exchange first ih => simp only [List.cons_append, replay_cons, ih, Option.bind_assoc]

/-! ## Independent requests -/

/-- Whether a ListObjectsV2 request selects a key: the key begins with the prefix and comes
after the position of the continuation token. -/
def selects (request : ListRequest) (key : Str) : Bool :=
  decide (request.keyPrefix <+: key) && request.continuation.all (·.precedes key)

/-- Whether a request reads a key: a HEAD's key, and the keys a page selects. -/
def Request.reads : Request → Str → Bool
  | .head key, other => decide (other = key)
  | .list request, other => selects request other
  | _, _ => false

/-- Whether a request writes a key. -/
def Request.writes : Request → Str → Bool
  | .put key, other | .delete key, other => decide (other = key)
  | _, _ => false

/-- Neither request writes a key that the other reads or writes. -/
def Independent (first second : Request) : Prop :=
  ∀ key, (first.writes key → second.reads key = false ∧ second.writes key = false) ∧
    (second.writes key → first.reads key = false ∧ first.writes key = false)

private theorem writes_iff {request : Request} {key : Str} :
    request.writes key = true ↔ request = .put key ∨ request = .delete key := by
  cases request <;> simp [Request.writes, eq_comm]

private theorem mem_serve {bucket : Bucket} {request : Request} {key : Str} :
    key ∈ (serve bucket request).2.keys ↔
      request = .put key ∨ key ∈ bucket.keys ∧ request ≠ .delete key := by
  cases request <;> simp [serve, eq_comm, and_comm]

private theorem listObjectsV2_congr {bucket bucket' : Bucket} {request : ListRequest}
    (same : selected bucket request = selected bucket' request) :
    listObjectsV2 bucket request = listObjectsV2 bucket' request := by
  simp only [listObjectsV2, listed, same]

private theorem serve_congr {bucket bucket' : Bucket} {request : Request}
    (same : ∀ key, request.reads key → (key ∈ bucket.keys ↔ key ∈ bucket'.keys)) :
    (serve bucket request).1 = (serve bucket' request).1 := by
  cases request with
  | head key => simp [serve, same key (by simp [Request.reads])]
  | list request =>
    -- the selected keys of both buckets: sorted, with the same members
    refine congrArg Response.page (listObjectsV2_congr (List.eq_of_perm_of_sorted
      ((List.perm_ext_iff_of_nodup (bucket.nodup.filter _) (bucket'.nodup.filter _)).mpr
        fun key => ?_) (bucket.sorted.filter _) (bucket'.sorted.filter _)))
    have mem : ∀ bucket : Bucket, key ∈ selected bucket request ↔
        key ∈ bucket.keys ∧ selects request key = true := fun _ => List.mem_filter
    refine (mem bucket).trans (Iff.trans ?_ (mem bucket').symm)
    by_cases read : selects request key
    · simpa [read] using same key read
    · simp [read]
  | put _ | delete _ => rfl

private theorem serve_after {first second : Request}
    (unread : ∀ key, first.writes key → second.reads key = false) (bucket : Bucket) :
    (serve (serve bucket first).2 second).1 = (serve bucket second).1 :=
  serve_congr fun key read => by
    have unwritten : ¬ (first = .put key ∨ first = .delete key) := fun written => by
      simp [unread key (writes_iff.mpr written)] at read
    rw [not_or] at unwritten
    simp [mem_serve, unwritten.1, unwritten.2]

private theorem serve_comm {first second : Request}
    (distinct : ∀ key, first.writes key → second.writes key = false) (bucket : Bucket) :
    (serve (serve bucket first).2 second).2 = (serve (serve bucket second).2 first).2 := by
  refine Bucket.ext_keys fun key => ?_
  have apart := distinct key
  simp only [mem_serve]
  by_cases firstWrites : first = .put key ∨ first = .delete key
  · have secondKeeps : second ≠ .put key ∧ second ≠ .delete key := not_or.mp fun writes =>
      absurd (apart (writes_iff.mpr firstWrites)) (by simp [writes_iff.mpr writes])
    rcases firstWrites with rfl | rfl <;> simp [secondKeeps.1, secondKeeps.2]
  · rw [not_or] at firstWrites
    simp only [firstWrites.1, firstWrites.2, false_or, ne_eq, not_false_eq_true, and_true]

private theorem replayOne_comm {first second : Request × Response}
    (independent : Independent first.1 second.1) (bucket : Bucket) :
    (replayOne bucket first).bind (replayOne · second) =
      (replayOne bucket second).bind (replayOne · first) := by
  obtain ⟨request, response⟩ := first
  obtain ⟨request', response'⟩ := second
  have answer' := serve_after (fun key written => ((independent key).1 written).1) bucket
  have answer := serve_after (fun key written => ((independent key).2 written).1) bucket
  have buckets := serve_comm (fun key written => ((independent key).1 written).2) bucket
  simp only [replayOne]
  by_cases failed : response = .failed <;> by_cases failed' : response' = .failed <;>
    simp only [failed, failed', if_true, if_false, Option.some_bind] <;>
    split_ifs <;> simp_all

private theorem replay_cons_comm {exchange : Request × Response} {log : List (Request × Response)}
    (independent : ∀ other ∈ log, Independent exchange.1 other.1) (bucket : Bucket) :
    replay bucket (exchange :: log) = replay bucket (log ++ [exchange]) := by
  induction log generalizing bucket with
  | nil => rfl
  | cons other log ih =>
    have swapped := replayOne_comm (independent other (List.mem_cons_self _ _)) bucket
    calc replay bucket (exchange :: other :: log)
        = ((replayOne bucket exchange).bind (replayOne · other)).bind (replay · log) := by
          simp only [replay_cons, Option.bind_assoc]
      _ = (replayOne bucket other).bind (replay · (exchange :: log)) := by
          rw [swapped]; simp only [replay_cons, Option.bind_assoc]
      _ = replay bucket (other :: log ++ [exchange]) := by
          simp only [List.cons_append, replay_cons,
            ih fun later mem => independent later (List.mem_cons_of_mem _ mem)]

/-- Two logs whose requests are independent of each other's may be served in either order. -/
theorem replay_comm {log log' : List (Request × Response)}
    (independent : ∀ first ∈ log, ∀ second ∈ log', Independent first.1 second.1)
    (bucket : Bucket) : replay bucket (log ++ log') = replay bucket (log' ++ log) := by
  induction log generalizing bucket with
  | nil => simp
  | cons exchange log ih =>
    calc replay bucket (exchange :: log ++ log')
        = (replay bucket (exchange :: log')).bind (replay · log) := by
          simp only [List.cons_append, replay_cons, Option.bind_assoc, replay_append,
            ih fun first mem => independent first (List.mem_cons_of_mem _ mem)]
      _ = replay bucket (log' ++ exchange :: log) := by
          rw [replay_cons_comm (independent exchange (List.mem_cons_self _ _)), replay_append,
            replay_append]
          simp only [Option.bind_assoc, replay_cons, replay_nil, Option.some_bind]

/-! ## The calls as programs -/

/-- How a call ends: it returns, or it raises, with the message of the adapter's own exception,
or with none for `raise_for_status`. -/
inductive Outcome
  | returned
  | raised (message : Option Str)
deriving DecidableEq

/-- A call between two requests. -/
inductive Prog
  /-- The call has ended. -/
  | done (outcome : Outcome)
  /-- The call sends `request` and goes on with the answer. -/
  | send (request : Request) (next : Response → Prog)
  /-- `_list_keys`'s `while token` loop, about to ask for the page after `token`, with the keys
  and common prefixes of the pages so far. -/
  | listLater (token : Entry) (keys prefixes : List Str) (next : List Str × List Str → Prog)

namespace Prog

/-- `response.raise_for_status()`, then `next`. -/
def raiseForStatus (next : Prog) : Response → Prog
  | .failed => .done (.raised none)
  | _ => next

/-- A page of `_list_keys` parsed: with a continuation token the loop asks for the page after
it, and without one the listing is over. -/
def afterPage (keys prefixes : List Str) (next : List Str × List Str → Prog) : Response → Prog
  | .page response =>
    match parseListResponse response with
    | (some token, keysPage, prefixesPage) =>
      .listLater token (keys ++ keysPage) (prefixes ++ prefixesPage) next
    | (none, keysPage, prefixesPage) => next (keys ++ keysPage, prefixes ++ prefixesPage)
  | _ => .done (.raised none)

/-- The request the call sends next; none once it has ended. `_list_later_page(token)` asks with
the token alone. -/
def request : Prog → Option Request
  | .done _ => none
  | .send request _ => some request
  | .listLater token _ _ _ => some (.list ⟨[], [], some token, maxKeys⟩)

/-- The call after the answer to its request. -/
def answer : Prog → Response → Prog
  | .done outcome, _ => .done outcome
  | .send _ next, response => next response
  | .listLater _ keys prefixes next, response => afterPage keys prefixes next response

/-- The call after the exchanges of a log, each request the one the call sends next; none when
the log strays from the call. -/
def follow (prog : Prog) : List (Request × Response) → Option Prog
  | [] => some prog
  | exchange :: log =>
    if prog.request = some exchange.1 then (prog.answer exchange.2).follow log else none

theorem follow_append (prog : Prog) (first rest : List (Request × Response)) :
    prog.follow (first ++ rest) = (prog.follow first).bind (·.follow rest) := by
  induction first generalizing prog with
  | nil => rfl
  | cons exchange first ih =>
    simp only [List.cons_append, follow]
    split_ifs
    · exact ih _
    · rfl

end Prog

open Prog

/-- `'{} ...'.format(path)` raised: the path's text and the rest of the message. -/
def raisedAbout (path : PurePosixPath) (rest : String) : Prog :=
  .done (.raised (some (path.asPosix ++ rest.toList)))

/-- `_file_exists`: a HEAD of `path.as_posix()`, true on status 200. -/
def fileExists (path : PurePosixPath) (next : Bool → Prog) : Prog :=
  .send (.head path.asPosix) fun response => next (response = .head true)

/-- `_dir_exists`: a HEAD of `path.as_posix() + S3_DIR_SUFFIX`, true on status 200. -/
def dirExists (path : PurePosixPath) (next : Bool → Prog) : Prog :=
  .send (.head (path.asPosix ++ Listing.s3DirSuffix)) fun response => next (response = .head true)

/-- `_is_file` on a path the frontend passes: never for `'.'`. -/
def isFile (path : PurePosixPath) (next : Bool → Prog) : Prog :=
  if path = PurePosixPath.root then next false else fileExists path next

/-- `_is_dir` on a path the frontend passes: always for `'.'`. -/
def isDir (path : PurePosixPath) (next : Bool → Prog) : Prog :=
  if path = PurePosixPath.root then next true else dirExists path next

/-- `_exists`: `_is_file`, and `_is_dir` only when that is false. -/
def pathExists (path : PurePosixPath) (next : Bool → Prog) : Prog :=
  isFile path fun file => if file then next true else isDir path next

/-- `_mkdir`: a PUT of `path.as_posix() + '/'`. -/
def mkdir (path : PurePosixPath) : Prog :=
  .send (.put (path.asPosix ++ ['/'])) (raiseForStatus (.done .returned))

/-- `_list_keys(context, key_prefix, delimeter)`, going on with the keys and the common
prefixes of every page. -/
def listKeys (keyPrefix delimiter : Str) (next : List Str × List Str → Prog) : Prog :=
  .send (.list ⟨keyPrefix, delimiter, none, maxKeys⟩) (afterPage [] [] next)

/-- `_list_descendant_keys(context, key_prefix)`. -/
def listDescendantKeys (keyPrefix : Str) (next : List Str → Prog) : Prog :=
  listKeys keyPrefix [] fun listing => next listing.1

/-- The DELETE loop of `_rmdir`, stopped by the first `raise_for_status` that raises. -/
def deleteKeys : List Str → Prog
  | [] => .done .returned
  | key :: keys => .send (.delete key) (raiseForStatus (deleteKeys keys))

/-- `_rmdir`: every key under `path.as_posix() + '/'`, deleted deepest first. -/
def rmdir (path : PurePosixPath) : Prog :=
  listDescendantKeys (path.asPosix ++ ['/']) fun keys => deleteKeys (Rmdir.deleteOrder keys)

/-- `_unlink`: a DELETE of `path.as_posix()`. -/
def unlink (path : PurePosixPath) : Prog :=
  .send (.delete path.asPosix) (raiseForStatus (.done .returned))

/-- `_multipart_upload_complete`: the POST that makes the key `path.as_posix()`. -/
def multipartUploadComplete (path : PurePosixPath) : Prog :=
  .send (.put path.asPosix) (raiseForStatus (.done .returned))

namespace S3PathIO

/-- `S3PathIO.mkdir(path)` inside its lock. -/
def mkdir (path : PurePosixPath) : Prog :=
  pathExists path fun present =>
    if present then raisedAbout path " already exists" else Requests.mkdir path

/-- `S3PathIO.rmdir(path)` inside its lock. -/
def rmdir (path : PurePosixPath) : Prog :=
  isFile path fun file =>
    if file then raisedAbout path " is not a directory" else
      isDir path fun dir =>
        if !dir then raisedAbout path " does not exist" else Requests.rmdir path

/-- `S3PathIO.unlink(path)` inside its lock. -/
def unlink (path : PurePosixPath) : Prog :=
  isDir path fun dir =>
    if dir then raisedAbout path " is a directory" else
      isFile path fun file =>
        if !file then raisedAbout path " does not exist" else Requests.unlink path

end S3PathIO

/-- The part of `_open_wb`'s `end` inside `lock(write_to=[path], read_from=[])`: the parent
must be a directory, and `CompleteMultipartUpload` makes the file. -/
def completeUpload (path : PurePosixPath) : Prog :=
  isFile path.parent fun file =>
    if file then raisedAbout path.parent " is not a directory" else
      isDir path.parent fun dir =>
        if !dir then raisedAbout path.parent " does not exist" else multipartUploadComplete path

/-- The path a call locks for writing. -/
def callPath : FacadeAction → PurePosixPath
  | .mkdir path | .rmdir path | .unlink path | .upload path => path

/-- The program of a call. -/
def callProg : FacadeAction → Prog
  | .mkdir path => S3PathIO.mkdir path
  | .rmdir path => S3PathIO.rmdir path
  | .unlink path => S3PathIO.unlink path
  | .upload path => completeUpload path

/-! ## What a call touches -/

/-- An answer S3 may give to a request: a page lists only keys that begin with its prefix. -/
def Fits : Request → Response → Prop
  | .list request, .page response =>
    ∀ key ∈ (parseListResponse response).2.1, request.keyPrefix <+: key
  | _, _ => True

private theorem key_of_entryOf {keyPrefix delimiter key other : Str}
    (found : entryOf keyPrefix delimiter key = .contents other) : key = other := by
  unfold entryOf at found
  split at found
  · exact Entry.contents.inj found
  · split at found
    · cases found
    · exact Entry.contents.inj found

/-- S3 answers as it may. -/
theorem fits_serve (bucket : Bucket) (request : Request) :
    Fits request (serve bucket request).1 := by
  cases request with
  | list request =>
    intro key mem
    have listedKey : Entry.contents key ∈ listed bucket request :=
      List.mem_of_mem_take (mem_parseListResponse_keys.mp mem)
    obtain ⟨other, selectedOther, found⟩ := List.mem_map.mp (List.mem_dedup.mp listedKey)
    obtain rfl := key_of_entryOf found
    exact of_decide_eq_true (Bool.and_eq_true_iff.mp (List.mem_filter.mp selectedOther).2).1
  | _ => trivial

/-- A request that asks for no page after a continuation token. -/
def Request.FirstPage : Request → Prop
  | .list request => request.continuation = none
  | _ => True

instance : DecidablePred Request.FirstPage
  | .list request => inferInstanceAs (Decidable (request.continuation = none))
  | .head _ | .put _ | .delete _ => isTrue trivial

/-- The keys a call on `path` may read: its text, the keys under its marker (the marker among
them), and its parent's text and marker. -/
def Touches (path : PurePosixPath) (key : Str) : Prop :=
  key = path.asPosix ∨ path.asPosix ++ ['/'] <+: key ∨ key = path.parent.asPosix ∨
    key = path.parent.asPosix ++ ['/']

/-- The keys a call on `path` may change: its text, and the keys under its marker. -/
def Changes (path : PurePosixPath) (key : Str) : Prop :=
  key = path.asPosix ∨ path.asPosix ++ ['/'] <+: key

private theorem touches_of_changes {path : PurePosixPath} {key : Str} (changed : Changes path key) :
    Touches path key :=
  changed.elim .inl (.inr ∘ .inl)

/-- A request that a call on `path` may send: it reads only keys the call touches and writes
only keys it changes. -/
def Request.Within (path : PurePosixPath) (request : Request) : Prop :=
  (∀ key, request.reads key → Touches path key) ∧ (∀ key, request.writes key → Changes path key)

/-- Paths neither of which is the other or an ancestor of the other: no lock that a call on one
takes is taken by a call on the other with either of them writing it. -/
def Apart (path other : PurePosixPath) : Prop :=
  ¬ (path = other ∨ path ∈ other.parents ∨ other ∈ path.parents)

theorem Apart.symm {path other : PurePosixPath} (apart : Apart path other) : Apart other path := by
  rintro (same | ancestor | ancestor)
  · exact apart (.inl same.symm)
  · exact apart (.inr (.inr ancestor))
  · exact apart (.inr (.inl ancestor))

private theorem covers_parent {path other : PurePosixPath} (same : path = other.parent) :
    path = other ∨ path ∈ other.parents ∨ other ∈ path.parents := by
  by_cases root : other = PurePosixPath.root
  · subst root
    exact .inl same
  · exact .inr (.inl (same ▸ PurePosixPath.parent_mem_parents root))

private theorem covers_of_changes_touches {path other : PurePosixPath} {key : Str}
    (changed : Changes path key) (touched : Touches other key) :
    path = other ∨ path ∈ other.parents ∨ other ∈ path.parents := by
  rcases changed with rfl | below <;> rcases touched with same | under | parent | marker
  · exact .inl (asPosix_injective same)
  · exact .inr (.inr (mem_parents_of_isPrefix under))
  · exact covers_parent (asPosix_injective parent)
  · exact absurd (by simp [marker]) (getLast_asPosix path)
  · exact .inr (.inl (mem_parents_of_isPrefix (same ▸ below)))
  · rcases List.prefix_or_prefix_of_prefix below under with first | second
    · exact (mem_parents_of_marker_isPrefix first).elim .inl (.inr ∘ .inl)
    · exact (mem_parents_of_marker_isPrefix second).elim (.inl ∘ Eq.symm) (.inr ∘ .inr)
  · exact .inr (.inl (PurePosixPath.mem_parents_of_mem_parent
      (mem_parents_of_isPrefix (parent ▸ below))))
  · rcases mem_parents_of_marker_isPrefix (marker ▸ below) with same | ancestor
    · exact covers_parent same
    · exact .inr (.inl (PurePosixPath.mem_parents_of_mem_parent ancestor))

/-- Requests of calls on paths apart are independent. -/
theorem independent_of_apart {path other : PurePosixPath} (apart : Apart path other)
    {first second : Request} (withinFirst : first.Within path)
    (withinSecond : second.Within other) : Independent first second := by
  have untouched : ∀ {path other : PurePosixPath} {first second : Request}, Apart path other →
      first.Within path → second.Within other → ∀ key, first.writes key →
        second.reads key = false ∧ second.writes key = false := by
    intro path other first second apart withinFirst withinSecond key written
    have changed := withinFirst.2 key written
    exact ⟨Bool.eq_false_iff.mpr fun read =>
        apart (covers_of_changes_touches changed (withinSecond.1 key read)),
      Bool.eq_false_iff.mpr fun wrote =>
        apart (covers_of_changes_touches changed (touches_of_changes (withinSecond.2 key wrote)))⟩
  exact fun key => ⟨untouched apart withinFirst withinSecond key,
    untouched apart.symm withinSecond withinFirst key⟩

/-- Every request the call may still send is one a call on `path` may send, as long as S3
answers as it may and the listing asks for no page after a continuation token. -/
inductive Prog.Within (path : PurePosixPath) : Prog → Prop
  | done (outcome : Outcome) : Prog.Within path (.done outcome)
  | send {request : Request} {next : Response → Prog} (within : request.Within path)
      (answered : ∀ response, Fits request response → Prog.Within path (next response)) :
      Prog.Within path (.send request next)
  | listLater (token : Entry) (keys prefixes : List Str) (next : List Str × List Str → Prog) :
      Prog.Within path (.listLater token keys prefixes next)

namespace Prog.Within

variable {path : PurePosixPath} {prog : Prog} {request : Request}

theorem request_within (within : prog.Within path) (sends : prog.request = some request)
    (first : request.FirstPage) : request.Within path := by
  cases within with
  | done => cases sends
  | send requestWithin _ => exact Option.some.inj sends ▸ requestWithin
  | listLater =>
    cases sends
    exact absurd first (by simp [Request.FirstPage])

theorem answer (within : prog.Within path) (sends : prog.request = some request)
    (first : request.FirstPage) {response : Response} (fits : Fits request response) :
    (prog.answer response).Within path := by
  cases within with
  | done => cases sends
  | send _ answered =>
    cases sends
    exact answered response fits
  | listLater =>
    cases sends
    exact absurd first (by simp [Request.FirstPage])

end Prog.Within

section CallsWithin

variable {path : PurePosixPath}

private theorem touches_self : Touches path path.asPosix := .inl rfl

private theorem touches_marker : Touches path (path.asPosix ++ ['/']) := .inr (.inl (List.prefix_refl _))

private theorem within_raiseForStatus {next : Prog} (within : next.Within path) (response : Response) :
    (raiseForStatus next response).Within path := by
  cases response <;> first | exact within | exact .done _

private theorem within_head {key : Str} (touched : Touches path key) {next : Response → Prog}
    (answered : ∀ response, (next response).Within path) :
    (Prog.send (.head key) next).Within path :=
  .send ⟨fun _ read => (of_decide_eq_true read).symm ▸ touched,
    fun _ wrote => by simp [Request.writes] at wrote⟩ fun response _ => answered response

private theorem within_write {request : Request} (read : ∀ key, request.reads key = false)
    (changed : ∀ key, request.writes key → Changes path key) :
    (Prog.send request (raiseForStatus (.done .returned))).Within path :=
  .send ⟨fun key reads => by simp [read key] at reads, changed⟩
    fun response _ => within_raiseForStatus (.done _) response

private theorem within_isFile {file : PurePosixPath} (touched : Touches path file.asPosix)
    {next : Bool → Prog} (answered : ∀ found, (next found).Within path) :
    (isFile file next).Within path := by
  unfold isFile
  split
  · exact answered false
  · exact within_head touched fun _ => answered _

private theorem within_isDir {dir : PurePosixPath} (touched : Touches path (dir.asPosix ++ ['/']))
    {next : Bool → Prog} (answered : ∀ found, (next found).Within path) :
    (isDir dir next).Within path := by
  unfold isDir
  split
  · exact answered true
  · exact within_head touched fun _ => answered _

private theorem within_deleteKeys {keys : List Str} (under : ∀ key ∈ keys, Changes path key) :
    (deleteKeys keys).Within path := by
  induction keys with
  | nil => exact .done _
  | cons key keys ih =>
    refine .send ⟨fun _ read => by simp [Request.reads] at read, fun other wrote =>
      (of_decide_eq_true wrote).symm ▸ under key (List.mem_cons_self _ _)⟩ fun response _ => ?_
    exact within_raiseForStatus (ih fun other mem => under other (List.mem_cons_of_mem _ mem)) _

private theorem within_rmdir : (rmdir path).Within path := by
  refine .send ⟨fun key read => .inr (.inl ?_), fun _ wrote => by simp [Request.writes] at wrote⟩
    fun response fits => ?_
  · simpa [Request.reads, selects] using read
  · cases response with
    | page page =>
      simp only [afterPage]
      split
      · exact .listLater _ _ _ _
      · rename_i keysPage prefixesPage parsed
        refine within_deleteKeys fun key mem => .inr (fits key ?_)
        rw [parsed]
        simpa using (Rmdir.perm_deleteOrder _).mem_iff.mp mem
    | _ => exact .done _

end CallsWithin

/-- Every request a call may send reads only what the call touches and writes only what it
changes, as long as its listing asks for no page after a continuation token. -/
theorem within_callProg (action : FacadeAction) : (callProg action).Within (callPath action) := by
  cases action with
  | mkdir path =>
    refine within_isFile touches_self fun file => ?_
    split
    · exact .done _
    · refine within_isDir touches_marker fun dir => ?_
      split
      · exact .done _
      · exact within_write (fun _ => rfl) fun key wrote =>
          .inr ((of_decide_eq_true wrote).symm ▸ List.prefix_refl _)
  | rmdir path =>
    refine within_isFile touches_self fun file => ?_
    split
    · exact .done _
    · refine within_isDir touches_marker fun dir => ?_
      split
      · exact .done _
      · exact within_rmdir
  | unlink path =>
    refine within_isDir touches_marker fun dir => ?_
    split
    · exact .done _
    · refine within_isFile touches_self fun file => ?_
      split
      · exact .done _
      · exact within_write (fun _ => rfl) fun key wrote => .inl (by simpa [Request.writes] using wrote)
  | upload path =>
    refine within_isFile (.inr (.inr (.inl rfl))) fun file => ?_
    split
    · exact .done _
    · refine within_isDir (.inr (.inr (.inr rfl))) fun dir => ?_
      split
      · exact .done _
      · exact within_write (fun _ => rfl) fun key wrote => .inl (by simpa [Request.writes] using wrote)

/-! ## Checks before changes -/

/-- From here on the call never raises one of the adapter's own exceptions, whatever S3
answers. -/
inductive Prog.Silent : Prog → Prop
  | done {outcome : Outcome} (quiet : ∀ message, outcome ≠ .raised (some message)) :
      Prog.Silent (.done outcome)
  | send {request : Request} {next : Response → Prog}
      (answered : ∀ response, Prog.Silent (next response)) : Prog.Silent (.send request next)
  | listLater {token : Entry} {keys prefixes : List Str} {next : List Str × List Str → Prog}
      (listed : ∀ listing, Prog.Silent (next listing)) :
      Prog.Silent (.listLater token keys prefixes next)

/-- From here on the call raises one of the adapter's own exceptions only before it sends a
request that writes, whatever S3 answers. -/
inductive Prog.ChecksFirst : Prog → Prop
  | done (outcome : Outcome) : Prog.ChecksFirst (.done outcome)
  | read {request : Request} {next : Response → Prog} (reads : ∀ key, request.writes key = false)
      (answered : ∀ response, Prog.ChecksFirst (next response)) :
      Prog.ChecksFirst (.send request next)
  | write {request : Request} {next : Response → Prog}
      (answered : ∀ response, Prog.Silent (next response)) : Prog.ChecksFirst (.send request next)
  | listLater {token : Entry} {keys prefixes : List Str} {next : List Str × List Str → Prog}
      (listed : ∀ listing, Prog.ChecksFirst (next listing)) :
      Prog.ChecksFirst (.listLater token keys prefixes next)

section ChecksFirst

variable {keys prefixes : List Str} {next : List Str × List Str → Prog}

private theorem silent_raiseForStatus {prog : Prog} (silent : prog.Silent) (response : Response) :
    (raiseForStatus prog response).Silent := by
  cases response <;> first | exact silent | exact .done nofun

private theorem silent_afterPage (listed : ∀ listing, (next listing).Silent) (response : Response) :
    (afterPage keys prefixes next response).Silent := by
  cases response with
  | page page =>
    simp only [afterPage]
    split
    · exact .listLater listed
    · exact listed _
  | _ => exact .done nofun

private theorem checksFirst_afterPage (listed : ∀ listing, (next listing).ChecksFirst)
    (response : Response) : (afterPage keys prefixes next response).ChecksFirst := by
  cases response with
  | page page =>
    simp only [afterPage]
    split
    · exact .listLater listed
    · exact listed _
  | _ => exact .done _

private theorem Prog.Silent.answer {prog : Prog} (silent : prog.Silent) (response : Response) :
    (prog.answer response).Silent := by
  cases silent with
  | done quiet => exact .done quiet
  | send answered => exact answered response
  | listLater listed => exact silent_afterPage listed response

private theorem Prog.Silent.follow {prog : Prog} (silent : prog.Silent) {log : List (Request × Response)}
    {message : Str} (followed : prog.follow log = some (.done (.raised (some message)))) : False := by
  induction log generalizing prog with
  | nil =>
    cases Option.some.inj followed
    cases silent with
    | done quiet => exact quiet message rfl
  | cons exchange log ih =>
    simp only [Prog.follow] at followed
    split at followed
    · exact ih (silent.answer exchange.2) followed
    · cases followed

private theorem Prog.ChecksFirst.follow {prog : Prog} (checks : prog.ChecksFirst)
    {log : List (Request × Response)} {message : Str}
    (followed : prog.follow log = some (.done (.raised (some message)))) :
    ∀ exchange ∈ log, ∀ key, exchange.1.writes key = false := by
  induction log generalizing prog with
  | nil => exact fun _ mem => nomatch mem
  | cons exchange log ih =>
    simp only [Prog.follow] at followed
    split at followed
    · rename_i sends
      intro other mem key
      cases checks with
      | done => cases sends
      | read reads answered =>
        rcases List.mem_cons.mp mem with rfl | later
        · exact Option.some.inj sends ▸ reads key
        · exact ih (answered exchange.2) followed other later key
      | write answered => exact ((answered exchange.2).follow followed).elim
      | listLater listed =>
        rcases List.mem_cons.mp mem with rfl | later
        · rw [← Option.some.inj sends]
          rfl
        · exact ih (checksFirst_afterPage listed exchange.2) followed other later key
    · cases followed

variable {path : PurePosixPath}

private theorem checksFirst_head {key : Str} {next : Response → Prog}
    (answered : ∀ response, (next response).ChecksFirst) : (Prog.send (.head key) next).ChecksFirst :=
  .read (fun _ => rfl) answered

private theorem checksFirst_isFile {next : Bool → Prog} (answered : ∀ found, (next found).ChecksFirst) :
    (isFile path next).ChecksFirst := by
  unfold isFile
  split
  · exact answered false
  · exact checksFirst_head fun _ => answered _

private theorem checksFirst_isDir {next : Bool → Prog} (answered : ∀ found, (next found).ChecksFirst) :
    (isDir path next).ChecksFirst := by
  unfold isDir
  split
  · exact answered true
  · exact checksFirst_head fun _ => answered _

private theorem checksFirst_write (request : Request) :
    (Prog.send request (raiseForStatus (.done .returned))).ChecksFirst :=
  .write (silent_raiseForStatus (.done nofun))

private theorem silent_deleteKeys (keys : List Str) : (deleteKeys keys).Silent := by
  induction keys with
  | nil => exact .done nofun
  | cons key keys ih => exact .send (silent_raiseForStatus ih)

private theorem checksFirst_deleteKeys : (keys : List Str) → (deleteKeys keys).ChecksFirst
  | [] => .done _
  | _ :: keys => .write (silent_raiseForStatus (silent_deleteKeys keys))

private theorem checksFirst_rmdir : (rmdir path).ChecksFirst :=
  .read (fun _ => rfl) (checksFirst_afterPage fun _ => checksFirst_deleteKeys _)

end ChecksFirst

private theorem checksFirst_callProg (action : FacadeAction) : (callProg action).ChecksFirst := by
  cases action with
  | mkdir path =>
    refine checksFirst_isFile fun file => ?_
    split
    · exact .done _
    · refine checksFirst_isDir fun dir => ?_
      split
      · exact .done _
      · exact checksFirst_write _
  | rmdir path =>
    refine checksFirst_isFile fun file => ?_
    split
    · exact .done _
    · refine checksFirst_isDir fun dir => ?_
      split
      · exact .done _
      · exact checksFirst_rmdir
  | unlink path =>
    refine checksFirst_isDir fun dir => ?_
    split
    · exact .done _
    · refine checksFirst_isFile fun file => ?_
      split
      · exact .done _
      · exact checksFirst_write _
  | upload path =>
    refine checksFirst_isFile fun file => ?_
    split
    · exact .done _
    · refine checksFirst_isDir fun dir => ?_
      split
      · exact .done _
      · exact checksFirst_write _

/-- The checks come before the changes: whatever S3 answers, a call that raises one of the
adapter's own exceptions (`already exists`, `is not a directory`, `does not exist`, `is a
directory`) has sent no request that writes. Only `raise_for_status` may raise after a write. -/
theorem checks_before_changes {action : FacadeAction} {log : List (Request × Response)}
    {message : Str} (followed : (callProg action).follow log = some (.done (.raised (some message)))) :
    ∀ exchange ∈ log, ∀ key, exchange.1.writes key = false :=
  (checksFirst_callProg action).follow followed

/-- `mkdir a` when S3 answers that the key `a` is there: it raises `a already exists`, having
written nothing. -/
theorem mkdir_existing_checks_first :
    (callProg (.mkdir Rmdir.aPath)).follow [(.head ['a'], .head true)] =
        some (.done (.raised (some (Rmdir.aPath.asPosix ++ " already exists".toList)))) ∧
      ∀ exchange ∈ [(Request.head ['a'], Response.head true)], ∀ key,
        exchange.1.writes key = false :=
  ⟨rfl, @checks_before_changes (.mkdir Rmdir.aPath) _ _ rfl⟩

end AioftpS3.Bucket.Requests
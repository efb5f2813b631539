import Mathlib.Data.List.Basic

/-!
`_open_wb`: a write session that streams a file to S3 as a multipart upload. `write` starts an
`UploadPart` task once the current part holds `MULTIPART_UPLOAD_MIN_BYTES`, first sleeping and
then raising when too many parts are unfinished; `end` uploads what is left, gathers the parts,
and under the path lock checks the parent before `CompleteMultipartUpload`. A part may finish
between any two steps of the session. The hash object is modelled by the bytes it was fed.
-/

set_option autoImplicit false
set_option relaxedAutoImplicit false

namespace AioftpS3.Upload.Session

/-- The bytes of one `write` call. -/
abbrev Chunk := List UInt8

/-- `MULTIPART_UPLOAD_MIN_BYTES`. -/
def multipartUploadMinBytes : Nat := 1024 * 1024 * 25

/-- `MULTIPART_UPLOAD_MAX_CONCURRENT_UPLOADS_PER_FILE`. -/
def multipartUploadMaxConcurrentUploadsPerFile : Nat := 3

/-- The SHA-256 digest of `message`. -/
structure Digest where
  message : Chunk
deriving DecidableEq

/-- A `hashlib.sha256()` object, by the bytes fed to it so far. -/
structure Sha256 where
  fed : Chunk
deriving DecidableEq

/-- `hashlib.sha256()`. -/
def Sha256.init : Sha256 := ⟨[]⟩

/-- `update(chunk)`. -/
def Sha256.update (hash : Sha256) (chunk : Chunk) : Sha256 := ⟨hash.fed ++ chunk⟩

/-- `hexdigest()`. -/
def Sha256.hexdigest (hash : Sha256) : Digest := ⟨hash.fed⟩

/-- Where a part upload task is: running, or done with the part's ETag, or done by raising. -/
inductive PartStatus
  | running
  | succeeded (etag : String)
  | failed
deriving DecidableEq, Repr

/-- How a part task ends: with the ETag it returns, or by raising. -/
def PartStatus.ofResult : Option String → PartStatus
  | some etag => .succeeded etag
  | none => .failed

/-- `Task.done()`. -/
def PartStatus.done : PartStatus → Bool
  | .running => false
  | _ => true

/-- A started `_multipart_upload_part(context, key, upload_id, part_number, part_length,
part_chunks, part_payload_hash)` task. -/
structure PartUpload where
  uploadId : String
  partNumber : Nat
  partLength : Nat
  partChunks : List Chunk
  partPayloadHash : Digest
  status : PartStatus
deriving DecidableEq

/-- The bytes the part's `UploadPart` request sends. -/
def PartUpload.payload (part : PartUpload) : Chunk := part.partChunks.flatten

/-- Where the session's own task is. -/
inductive Phase
  /-- Before `__aenter__` has started the multipart upload. -/
  | opening
  /-- The body runs and may call `write`. -/
  | writing
  /-- A `write` of `chunk` sleeps in `asyncio.sleep` before counting the unfinished parts. -/
  | sleeping (chunk : Chunk)
  /-- `end` waits in `asyncio.gather` for every part. -/
  | gathering
  /-- `end` holds the path lock with the parts' numbers and ETags. -/
  | locked (partNumbersAndEtags : List (Nat × String))
  /-- `CompleteMultipartUpload` was sent. -/
  | completed
  /-- An exception left the session. -/
  | failed
deriving DecidableEq

/-- The body still runs: `end` has not started. -/
def Phase.isOpen : Phase → Bool
  | .opening | .writing | .sleeping _ => true
  | _ => false

/-- `end` has uploaded the last part. -/
def Phase.ended : Phase → Bool
  | .gathering | .locked _ | .completed => true
  | _ => false

/-- The chunk a sleeping `write` still holds. -/
def Phase.pending : Phase → List Chunk
  | .sleeping chunk => [chunk]
  | _ => []

/-- The session: the closure's variables, with where its task is. `completions` records the
`CompleteMultipartUpload` requests sent, and `accepted` the chunks of the body's `write` calls
that returned; the code keeps neither, they say what it sent and what it was given. -/
structure WriteSession where
  uploadId : String
  partUploads : List PartUpload
  partLength : Nat
  partChunks : List Chunk
  partPayloadHash : Sha256
  phase : Phase
  completions : List (String × List (Nat × String))
  accepted : List Chunk

/-- The steps of a session and of its part tasks. -/
inductive SessionAction
  /-- `__aenter__`: `_multipart_upload_start` returns an upload id, or raises. -/
  | start (uploadId : Option String)
  /-- The body calls `write(chunk)`. -/
  | write (chunk : Chunk)
  /-- A sleeping `write` wakes. -/
  | wake
  /-- Part task number `index` (from zero) returns its ETag, or raises. -/
  | finish (index : Nat) (etag : Option String)
  /-- The body exits without an exception: `end` runs up to `asyncio.gather`. -/
  | exit
  /-- The body exits by an exception: `__aexit__` does nothing. -/
  | raise
  /-- `asyncio.gather` returns every part's number and ETag, or raises with a failed part. -/
  | gathered
  /-- Under the path lock, `_is_file(path.parent)` and `_is_dir(path.parent)` answer, and
  `CompleteMultipartUpload` is sent if the parent is a directory (its response is not
  modelled: nothing is sent after it). -/
  | complete (parentIsFile parentIsDir : Bool)
deriving DecidableEq

/-- The chunks the body passed to `write`, in order. -/
def writtenChunks (actions : List SessionAction) : List Chunk :=
  actions.filterMap fun
    | .write chunk => some chunk
    | _ => none

namespace WriteSession

/-- `_open_wb(context, lock, path)`: nothing started yet. -/
def init : WriteSession := ⟨"", [], 0, [], Sha256.init, .opening, [], []⟩

/-- `new_part_init`. -/
def newPartInit (s : WriteSession) : WriteSession :=
  { s with partLength := 0, partChunks := [], partPayloadHash := Sha256.init }

/-- `upload_part`: start the task that uploads the current part, numbered after the others. -/
def uploadPart (s : WriteSession) : WriteSession :=
  newPartInit { s with
    partUploads := s.partUploads ++
      [⟨s.uploadId, s.partUploads.length + 1, s.partLength, s.partChunks,
        s.partPayloadHash.hexdigest, .running⟩] }

@[simp] theorem uploadPart_partUploads (s : WriteSession) :
    s.uploadPart.partUploads = s.partUploads ++
      [⟨s.uploadId, s.partUploads.length + 1, s.partLength, s.partChunks,
        s.partPayloadHash.hexdigest, .running⟩] := rfl

@[simp] theorem uploadPart_partChunks (s : WriteSession) : s.uploadPart.partChunks = [] := rfl

/-- The rest of `write(chunk)` once past the gate: add the chunk to the part, and upload the
part once it holds `MULTIPART_UPLOAD_MIN_BYTES`. -/
def append (s : WriteSession) (chunk : Chunk) : WriteSession :=
  let added := { s with
    partLength := s.partLength + chunk.length
    partChunks := s.partChunks ++ [chunk]
    partPayloadHash := s.partPayloadHash.update chunk }
  if multipartUploadMinBytes ≤ added.partLength then added.uploadPart else added

@[simp] theorem append_accepted (s : WriteSession) (chunk : Chunk) :
    (s.append chunk).accepted = s.accepted := by
  simp only [append]
  split_ifs <;> rfl

/-- `write` past the gate either keeps the chunk in the current part, or uploads the part and
leaves the current one empty. -/
theorem append_parts (s : WriteSession) (chunk : Chunk) :
    ((s.append chunk).partUploads = s.partUploads ∧ (s.append chunk).partChunks ≠ []) ∨
      ∃ part, (s.append chunk).partUploads = s.partUploads ++ [part] ∧
        (s.append chunk).partChunks = [] := by
  simp only [append]
  split
  · exact .inr ⟨_, rfl, rfl⟩
  · exact .inl ⟨rfl, by simp⟩

/-- A chunk of `MULTIPART_UPLOAD_MIN_BYTES` written to an empty part is uploaded as a part of
its own. -/
theorem append_full {s : WriteSession} {chunk : Chunk} (noChunks : s.partChunks = [])
    (noLength : s.partLength = 0) (noHash : s.partPayloadHash = Sha256.init)
    (full : chunk.length = multipartUploadMinBytes) :
    s.append chunk = { s with partUploads := s.partUploads ++
      [⟨s.uploadId, s.partUploads.length + 1, chunk.length, [chunk], ⟨chunk⟩, .running⟩] } := by
  cases s
  simp_all [append, uploadPart, newPartInit, Sha256.update, Sha256.hexdigest, Sha256.init]

/-- The gate of `write`: more than two parts, and `part_uploads[-2]` not done. -/
def slow (s : WriteSession) : Bool :=
  match s.partUploads.reverse with
  | _ :: beforeLast :: _ :: _ => !beforeLast.status.done
  | _ => false

/-- The parts not done. -/
def inProgress (s : WriteSession) : Nat := s.partUploads.countP (!·.status.done)

/-- A started part is unfinished. -/
@[simp] theorem inProgress_uploadPart (s : WriteSession) :
    s.uploadPart.inProgress = s.inProgress + 1 := by
  simp [inProgress, PartStatus.done]

/-- `end` up to `asyncio.gather`: an empty file gets `write(b'')`, which passes the gate with
no parts, and what the current part holds is uploaded. -/
def endSession (s : WriteSession) : WriteSession :=
  let written := if s.partUploads = [] then s.append [] else s
  let flushed := if written.partChunks = [] then written else written.uploadPart
  { flushed with phase := .gathering }

@[simp] theorem endSession_phase (s : WriteSession) : s.endSession.phase = .gathering := rfl

@[simp] theorem endSession_accepted (s : WriteSession) : s.endSession.accepted = s.accepted := by
  simp only [endSession]
  split_ifs <;> simp [uploadPart, newPartInit]

/-- What `asyncio.gather` returns: every part's number and ETag, once all succeeded. -/
def partNumbersAndEtags : List PartUpload → Option (List (Nat × String))
  | [] => some []
  | part :: parts =>
    match part.status with
    | .succeeded etag => (partNumbersAndEtags parts).map ((part.partNumber, etag) :: ·)
    | _ => none

/-- One step; `none` when the action is not possible. -/
def step (s : WriteSession) : SessionAction → Option WriteSession
  | .start uploadId =>
    match s.phase, uploadId with
    | .opening, some uploadId => some { s.newPartInit with uploadId, phase := .writing }
    | .opening, none => some { s.newPartInit with phase := .failed }
    | _, _ => none
  | .write chunk =>
    match s.phase with
    | .writing =>
      some (if s.slow then { s with phase := .sleeping chunk }
        else { s.append chunk with phase := .writing, accepted := s.accepted ++ [chunk] })
    | _ => none
  | .wake =>
    match s.phase with
    | .sleeping chunk =>
      some (if multipartUploadMaxConcurrentUploadsPerFile < s.inProgress
        then { s with phase := .writing }
        else { s.append chunk with phase := .writing, accepted := s.accepted ++ [chunk] })
    | _ => none
  | .finish index etag =>
    match s.partUploads[index]? with
    | some part =>
      if part.status = .running then
        some { s with
          partUploads := s.partUploads.set index { part with status := .ofResult etag } }
      else none
    | none => none
  | .exit =>
    match s.phase with
    | .writing => some s.endSession
    | _ => none
  | .raise =>
    match s.phase with
    | .writing => some { s with phase := .failed }
    | _ => none
  | .gathered =>
    match s.phase with
    | .gathering =>
      if s.partUploads.any (·.status = .failed) then some { s with phase := .failed }
      else (partNumbersAndEtags s.partUploads).map fun results => { s with phase := .locked results }
    | _ => none
  | .complete parentIsFile parentIsDir =>
    match s.phase with
    | .locked results =>
      some (if parentIsFile || !parentIsDir then { s with phase := .failed }
        else { s.newPartInit with
          phase := .completed, completions := s.completions ++ [(s.uploadId, results)] })
    | _ => none

/-- A run of actions from `s`. -/
def run (s : WriteSession) : List SessionAction → Option WriteSession
  | [] => some s
  | action :: actions => (s.step action).bind (·.run actions)

theorem run_cons (s : WriteSession) (action : SessionAction) (actions : List SessionAction) :
    s.run (action :: actions) = (s.step action).bind (·.run actions) := rfl

theorem run_append (s : WriteSession) (first rest : List SessionAction) :
    s.run (first ++ rest) = (s.run first).bind (·.run rest) := by
  induction first generalizing s with
  | nil => rfl
  | cons action first ih => simp only [List.cons_append, run_cons, ih, Option.bind_assoc]

/-- Some interleaving of the session and its parts leads from `_open_wb` to `s`. -/
def Reachable (s : WriteSession) : Prop := ∃ actions, init.run actions = some s

/-! ## What a step can do -/

/-- Every step, with the guard it passed and the state it leaves. -/
theorem step_cases {s t : WriteSession} {action : SessionAction}
    (stepped : s.step action = some t) :
    (∃ uploadId, action = .start (some uploadId) ∧ s.phase = .opening ∧
      t = { s.newPartInit with uploadId, phase := .writing }) ∨
    (action = .start none ∧ s.phase = .opening ∧ t = { s.newPartInit with phase := .failed }) ∨
    (∃ chunk, action = .write chunk ∧ s.phase = .writing ∧ s.slow = true ∧
      t = { s with phase := .sleeping chunk }) ∨
    (∃ chunk, (action = .write chunk ∧ s.phase = .writing ∧ s.slow = false ∨
        action = .wake ∧ s.phase = .sleeping chunk ∧
          s.inProgress ≤ multipartUploadMaxConcurrentUploadsPerFile) ∧
      t = { s.append chunk with phase := .writing, accepted := s.accepted ++ [chunk] }) ∨
    (action = .wake ∧ (∃ chunk, s.phase = .sleeping chunk) ∧
      multipartUploadMaxConcurrentUploadsPerFile < s.inProgress ∧ t = { s with phase := .writing }) ∨
    (∃ index etag part, action = .finish index etag ∧ s.partUploads[index]? = some part ∧
      part.status = .running ∧
      t = { s with partUploads := s.partUploads.set index { part with status := .ofResult etag } }) ∨
    (action = .exit ∧ s.phase = .writing ∧ t = s.endSession) ∨
    (action = .raise ∧ s.phase = .writing ∧ t = { s with phase := .failed }) ∨
    (action = .gathered ∧ s.phase = .gathering ∧ s.partUploads.any (·.status = .failed) = true ∧
      t = { s with phase := .failed }) ∨
    (∃ results, action = .gathered ∧ s.phase = .gathering ∧
      s.partUploads.any (·.status = .failed) = false ∧
      partNumbersAndEtags s.partUploads = some results ∧ t = { s with phase := .locked results }) ∨
    (∃ parentIsFile parentIsDir results, action = .complete parentIsFile parentIsDir ∧
      s.phase = .locked results ∧ (parentIsFile || !parentIsDir) = true ∧
      t = { s with phase := .failed }) ∨
    ∃ results, action = .complete false true ∧ s.phase = .locked results ∧
      t = { s.newPartInit with
        phase := .completed, completions := s.completions ++ [(s.uploadId, results)] } := by
  cases action <;> simp only [step] at stepped
  case start uploadId =>
    split at stepped <;> cases stepped
    · exact .inl ⟨_, rfl, ‹_›, rfl⟩
    · exact .inr (.inl ⟨rfl, ‹_›, rfl⟩)
  case write chunk =>
    split at stepped <;> cases stepped
    split
    · exact .inr (.inr (.inl ⟨chunk, rfl, ‹_›, ‹_›, rfl⟩))
    · exact .inr (.inr (.inr (.inl ⟨chunk, .inl ⟨rfl, ‹_›, Bool.eq_false_iff.mpr ‹_›⟩, rfl⟩)))
  case wake =>
    split at stepped <;> cases stepped
    split
    · exact .inr (.inr (.inr (.inr (.inl ⟨rfl, ⟨_, ‹_›⟩, ‹_›, rfl⟩))))
    · exact .inr (.inr (.inr (.inl ⟨_, .inr ⟨rfl, ‹_›, Nat.le_of_not_lt ‹_›⟩, rfl⟩)))
  case finish index etag =>
    split at stepped
    · split at stepped <;> cases stepped
      exact .inr (.inr (.inr (.inr (.inr (.inl ⟨index, etag, _, rfl, ‹_›, ‹_›, rfl⟩)))))
    · cases stepped
  case exit =>
    split at stepped <;> cases stepped
    exact .inr (.inr (.inr (.inr (.inr (.inr (.inl ⟨rfl, ‹_›, rfl⟩))))))
  case raise =>
    split at stepped <;> cases stepped
    exact .inr (.inr (.inr (.inr (.inr (.inr (.inr (.inl ⟨rfl, ‹_›, rfl⟩)))))))
  case gathered =>
    split at stepped
    · split at stepped
      · cases stepped
        exact .inr (.inr (.inr (.inr (.inr (.inr (.inr (.inr (.inl ⟨rfl, ‹_›, ‹_›, rfl⟩))))))))
      · obtain ⟨results, found, rfl⟩ := Option.map_eq_some'.mp stepped
        exact .inr (.inr (.inr (.inr (.inr (.inr (.inr (.inr (.inr (.inl
          ⟨results, rfl, ‹_›, Bool.eq_false_iff.mpr ‹_›, found, rfl⟩)))))))))
    · cases stepped
  case complete parentIsFile parentIsDir =>
    split at stepped <;> cases stepped
    split
    · exact .inr (.inr (.inr (.inr (.inr (.inr (.inr (.inr (.inr (.inr (.inl
        ⟨_, _, _, rfl, ‹_›, ‹_›, rfl⟩))))))))))
    · rename_i isDir
      obtain ⟨rfl, rfl⟩ : parentIsFile = false ∧ parentIsDir = true := by
        cases parentIsFile <;> cases parentIsDir <;> simp at isDir ⊢
      exact .inr (.inr (.inr (.inr (.inr (.inr (.inr (.inr (.inr (.inr (.inr
        ⟨_, rfl, ‹_›, rfl⟩))))))))))

/-! ## Phases -/

private theorem phase_step {s t : WriteSession} {action : SessionAction}
    (stepped : s.step action = some t) :
    ((∃ index etag, action = .finish index etag) ∧ t.phase = s.phase) ∨
      (∃ uploadId, action = .start uploadId ∧ s.phase = .opening ∧
        (t.phase = .writing ∨ t.phase = .failed)) ∨
      (∃ chunk, action = .write chunk ∧ s.phase = .writing ∧
        (t.phase = .sleeping chunk ∨ t.phase = .writing)) ∨
      (action = .wake ∧ (∃ chunk, s.phase = .sleeping chunk) ∧ t.phase = .writing) ∨
      (action = .exit ∧ s.phase = .writing ∧ t.phase = .gathering) ∨
      (action = .raise ∧ s.phase = .writing ∧ t.phase = .failed) ∨
      (action = .gathered ∧ s.phase = .gathering ∧
        (t.phase = .failed ∨ ∃ results, t.phase = .locked results)) ∨
      ∃ parentIsFile parentIsDir, action = .complete parentIsFile parentIsDir ∧
        (∃ results, s.phase = .locked results) ∧
        (t.phase = .failed ∨ parentIsFile = false ∧ parentIsDir = true ∧ t.phase = .completed) := by
  rcases step_cases stepped with ⟨_, rfl, opening, rfl⟩ | ⟨rfl, opening, rfl⟩ |
    ⟨_, rfl, writing, -, rfl⟩ | ⟨_, ⟨rfl, writing, -⟩ | ⟨rfl, sleeping, -⟩, rfl⟩ |
    ⟨rfl, ⟨_, sleeping⟩, -, rfl⟩ | ⟨_, _, _, rfl, -, -, rfl⟩ | ⟨rfl, writing, rfl⟩ |
    ⟨rfl, writing, rfl⟩ | ⟨rfl, gathering, -, rfl⟩ | ⟨_, rfl, gathering, -, -, rfl⟩ |
    ⟨_, _, _, rfl, locked, -, rfl⟩ | ⟨_, rfl, locked, rfl⟩ <;>
    simp [*]

section PhaseSteps

variable {s t : WriteSession} {action : SessionAction}

private theorem step_failed (stepped : s.step action = some t) (failed : s.phase = .failed) :
    t.phase = .failed := by
  rcases phase_step stepped with ⟨-, same⟩ | ⟨_, -, moved, -⟩ | ⟨_, -, moved, -⟩ |
    ⟨-, ⟨_, moved⟩, -⟩ | ⟨-, moved, -⟩ | ⟨-, moved, -⟩ | ⟨-, moved, -⟩ |
    ⟨_, _, -, ⟨_, moved⟩, -⟩ <;> simp_all

private theorem step_raise (stepped : s.step .raise = some t) : t.phase = .failed := by
  rcases phase_step stepped with ⟨⟨_, _, ⟨⟩⟩, -⟩ | ⟨_, ⟨⟩, -⟩ | ⟨_, ⟨⟩, -⟩ | ⟨⟨⟩, -⟩ | ⟨⟨⟩, -⟩ |
    ⟨-, -, raised⟩ | ⟨⟨⟩, -⟩ | ⟨_, _, ⟨⟩, -⟩
  exact raised

private theorem step_ended (stepped : s.step action = some t) (ended : t.phase.ended) :
    s.phase.ended ∨ action = .exit := by
  rcases phase_step stepped with ⟨-, same⟩ | ⟨_, -, -, moved | moved⟩ |
    ⟨_, -, -, moved | moved⟩ | ⟨-, -, moved⟩ | ⟨exit, -⟩ | ⟨-, -, moved⟩ | ⟨-, gathering, -⟩ |
    ⟨_, _, -, ⟨_, locked⟩, -⟩ <;> simp_all [Phase.ended]

private theorem step_completed (stepped : s.step action = some t) (completed : t.phase = .completed) :
    s.phase = .completed ∨ action = .complete false true := by
  rcases phase_step stepped with ⟨-, same⟩ | ⟨_, -, -, moved | moved⟩ |
    ⟨_, -, -, moved | moved⟩ | ⟨-, -, moved⟩ | ⟨-, -, moved⟩ | ⟨-, -, moved⟩ |
    ⟨-, -, moved | ⟨_, moved⟩⟩ | ⟨_, _, rfl, -, moved | ⟨rfl, rfl, -⟩⟩ <;> simp_all

end PhaseSteps

/-- Along a run, a failed session stays failed, a session whose body raised has failed, the
phases after `end` are reached only through `exit`, and completion only through a `complete`
that found the parent a directory. -/
theorem run_phases {s t : WriteSession} {actions : List SessionAction}
    (ran : s.run actions = some t) :
    (s.phase = .failed → t.phase = .failed) ∧ (.raise ∈ actions → t.phase = .failed) ∧
      (t.phase.ended → s.phase.ended ∨ .exit ∈ actions) ∧
      (t.phase = .completed → s.phase = .completed ∨ .complete false true ∈ actions) := by
  induction actions generalizing s with
  | nil =>
    cases ran
    exact ⟨id, nofun, .inl, .inl⟩
  | cons action actions ih =>
    obtain ⟨next, stepped, rest⟩ := Option.bind_eq_some.mp ran
    obtain ⟨failed, raised, ended, completed⟩ := ih rest
    refine ⟨fun was => failed (step_failed stepped was), fun mem => ?_, fun isEnded => ?_,
      fun isCompleted => ?_⟩
    · rcases List.mem_cons.mp mem with rfl | later
      · exact failed (step_raise stepped)
      · exact raised later
    · rcases ended isEnded with wasEnded | exited
      · exact (step_ended stepped wasEnded).imp_right fun exit => by simp [exit]
      · exact .inr (List.mem_cons_of_mem _ exited)
    · rcases completed isCompleted with wasCompleted | sent
      · exact (step_completed stepped wasCompleted).imp_right fun complete => by simp [complete]
      · exact .inr (List.mem_cons_of_mem _ sent)

/-! ## Accepted chunks -/

private theorem accepted_step {s t : WriteSession} {action : SessionAction}
    (stepped : s.step action = some t) :
    (t.accepted ++ t.phase.pending).Sublist
      (s.accepted ++ s.phase.pending ++ writtenChunks [action]) := by
  rcases step_cases stepped with ⟨_, rfl, opening, rfl⟩ | ⟨rfl, opening, rfl⟩ |
    ⟨_, rfl, writing, -, rfl⟩ | ⟨_, ⟨rfl, writing, -⟩ | ⟨rfl, sleeping, -⟩, rfl⟩ |
    ⟨rfl, ⟨_, sleeping⟩, -, rfl⟩ | ⟨_, _, _, rfl, -, -, rfl⟩ | ⟨rfl, writing, rfl⟩ |
    ⟨rfl, writing, rfl⟩ | ⟨rfl, gathering, -, rfl⟩ | ⟨_, rfl, gathering, -, -, rfl⟩ |
    ⟨_, _, _, rfl, locked, -, rfl⟩ | ⟨_, rfl, locked, rfl⟩ <;>
    simp [*, newPartInit, Phase.pending, writtenChunks]

/-- Along a run, the accepted chunks, with the one a sleeping `write` holds, are among the
chunks given to `write`, in order. -/
theorem accepted_run {s t : WriteSession} {actions : List SessionAction}
    (ran : s.run actions = some t) :
    (t.accepted ++ t.phase.pending).Sublist
      (s.accepted ++ s.phase.pending ++ writtenChunks actions) := by
  induction actions generalizing s with
  | nil =>
    cases ran
    simp [writtenChunks]
  | cons action actions ih =>
    obtain ⟨next, stepped, rest⟩ := Option.bind_eq_some.mp ran
    have written : writtenChunks (action :: actions) =
        writtenChunks [action] ++ writtenChunks actions := by
      cases action <;> rfl
    rw [written, ← List.append_assoc]
    exact (ih rest).trans ((accepted_step stepped).append_right _)

end WriteSession

end AioftpS3.Upload.Session

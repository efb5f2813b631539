import AioftpS3.Upload.Session

/-!
What a write session sends when it completes: each part numbered by its position, with the
Content-Length and SHA-256 of its own payload, all but the last of at least
`MULTIPART_UPLOAD_MIN_BYTES`, the payloads adding up to the chunks of the `write` calls that
returned, and `CompleteMultipartUpload` at most once, with every part's number and ETag in order.
A `write` that raises does not end the session: the body may catch it and complete without that
chunk.
-/

set_option autoImplicit false
set_option relaxedAutoImplicit false

namespace AioftpS3.Upload.Completion

open AioftpS3.Upload.Session

/-- A part as `upload_part` built it at position `index`: the session's upload id, the number
after the parts before it, and the length and digest of its own payload. -/
def Built (part : PartUpload) (uploadId : String) (index : Nat) : Prop :=
  part.uploadId = uploadId ∧ part.partNumber = index + 1 ∧
    part.partLength = part.payload.length ∧ part.partPayloadHash = ⟨part.payload⟩

private theorem partNumbersAndEtags_spec {parts : List PartUpload} {results : List (Nat × String)}
    (gathered : WriteSession.partNumbersAndEtags parts = some results) :
    results.length = parts.length ∧ ∀ (i : Nat) (part : PartUpload), parts[i]? = some part →
      ∃ etag, part.status = .succeeded etag ∧ results[i]? = some (part.partNumber, etag) := by
  induction parts generalizing results with
  | nil =>
    cases gathered
    simp
  | cons part parts ih =>
    simp only [WriteSession.partNumbersAndEtags] at gathered
    split at gathered
    · rename_i etag status
      obtain ⟨rest, found, rfl⟩ := Option.map_eq_some'.mp gathered
      obtain ⟨length, listed⟩ := ih found
      refine ⟨by simp [length], fun i other foundOther => ?_⟩
      cases i with
      | zero =>
        obtain rfl : part = other := by simpa using foundOther
        exact ⟨etag, status, by simp⟩
      | succ i => simpa using listed i other (by simpa using foundOther)
    · cases gathered

/-! ## The invariant -/

/-- What every reachable session satisfies: the parts are built and sized as `end` needs them,
the current part follows its chunks, and parts and current part hold exactly the accepted chunks. -/
structure Invariant (s : WriteSession) : Prop where
  fresh : s.phase = .opening → s.partUploads = [] ∧ s.partChunks = []
  built : ∀ (i : Nat) (part : PartUpload), s.partUploads[i]? = some part →
    Built part s.uploadId i
  large : ∀ (i : Nat) (part : PartUpload), s.partUploads[i]? = some part →
    (i + 1 < s.partUploads.length ∨ s.phase.isOpen) → multipartUploadMinBytes ≤ part.partLength
  current : s.partLength = s.partChunks.flatten.length ∧ s.partPayloadHash.fed = s.partChunks.flatten
  content : (s.partUploads.map PartUpload.payload).flatten ++ s.partChunks.flatten =
    s.accepted.flatten
  ended : s.phase.ended → s.partChunks = [] ∧ s.partUploads ≠ []
  locked : ∀ results, s.phase = .locked results →
    WriteSession.partNumbersAndEtags s.partUploads = some results
  sent : s.phase = .completed → ∃ results,
    WriteSession.partNumbersAndEtags s.partUploads = some results ∧
      s.completions = [(s.uploadId, results)]
  unsent : s.phase ≠ .completed → s.completions = []

theorem invariant_init : Invariant WriteSession.init where
  fresh _ := ⟨rfl, rfl⟩
  built _ _ found := by simp [WriteSession.init] at found
  large _ _ found := by simp [WriteSession.init] at found
  current := ⟨rfl, rfl⟩
  content := rfl
  ended := nofun
  locked _ := nofun
  sent := nofun
  unsent _ := rfl

/-! ### `upload_part` and `write` -/

section Flush

variable {s : WriteSession}

private theorem built_uploadPart
    (built : ∀ (i : Nat) (part : PartUpload), s.partUploads[i]? = some part →
      Built part s.uploadId i)
    (current : s.partLength = s.partChunks.flatten.length ∧
      s.partPayloadHash.fed = s.partChunks.flatten) :
    ∀ (i : Nat) (part : PartUpload), s.uploadPart.partUploads[i]? = some part →
      Built part s.uploadId i := by
  intro i part found
  simp only [WriteSession.uploadPart, WriteSession.newPartInit] at found
  by_cases old : i < s.partUploads.length
  · exact built i part (by rwa [List.getElem?_append_left old] at found)
  · rw [List.getElem?_append_right (Nat.le_of_not_lt old)] at found
    obtain ⟨zero, rfl⟩ : i - s.partUploads.length = 0 ∧ _ = part := by
      simpa [List.getElem?_cons] using found
    exact ⟨rfl, by simp; omega, current.1, by simp [Sha256.hexdigest, PartUpload.payload, current.2]⟩

private theorem content_uploadPart :
    (s.uploadPart.partUploads.map PartUpload.payload).flatten ++ s.uploadPart.partChunks.flatten =
      (s.partUploads.map PartUpload.payload).flatten ++ s.partChunks.flatten := by
  simp [WriteSession.uploadPart, WriteSession.newPartInit, PartUpload.payload]

private theorem append_spec (chunk : Chunk)
    (built : ∀ (i : Nat) (part : PartUpload), s.partUploads[i]? = some part →
      Built part s.uploadId i)
    (large : ∀ part ∈ s.partUploads, multipartUploadMinBytes ≤ part.partLength)
    (current : s.partLength = s.partChunks.flatten.length ∧
      s.partPayloadHash.fed = s.partChunks.flatten) :
    (s.append chunk).uploadId = s.uploadId ∧ (s.append chunk).phase = s.phase ∧
      (s.append chunk).completions = s.completions ∧ (s.append chunk).accepted = s.accepted ∧
      (∀ (i : Nat) (part : PartUpload), (s.append chunk).partUploads[i]? = some part →
        Built part s.uploadId i) ∧
      (∀ part ∈ (s.append chunk).partUploads, multipartUploadMinBytes ≤ part.partLength) ∧
      ((s.append chunk).partLength = (s.append chunk).partChunks.flatten.length ∧
        (s.append chunk).partPayloadHash.fed = (s.append chunk).partChunks.flatten) ∧
      ((s.append chunk).partUploads.map PartUpload.payload).flatten ++
          (s.append chunk).partChunks.flatten =
        (s.partUploads.map PartUpload.payload).flatten ++ s.partChunks.flatten ++ chunk := by
  let added : WriteSession := { s with
    partLength := s.partLength + chunk.length
    partChunks := s.partChunks ++ [chunk]
    partPayloadHash := s.partPayloadHash.update chunk }
  have addedCurrent : added.partLength = added.partChunks.flatten.length ∧
      added.partPayloadHash.fed = added.partChunks.flatten := by
    simp [added, current.1, current.2, Sha256.update]
  have addedContent : (added.partUploads.map PartUpload.payload).flatten ++
      added.partChunks.flatten =
        (s.partUploads.map PartUpload.payload).flatten ++ s.partChunks.flatten ++ chunk := by
    simp [added]
  have unfolded : s.append chunk =
      if multipartUploadMinBytes ≤ added.partLength then added.uploadPart else added := rfl
  rw [unfolded]
  split
  · rename_i full
    refine ⟨rfl, rfl, rfl, rfl, built_uploadPart built addedCurrent, ?_, by
      simp [WriteSession.uploadPart, WriteSession.newPartInit, Sha256.init],
      content_uploadPart.trans addedContent⟩
    intro part mem
    simp only [WriteSession.uploadPart, WriteSession.newPartInit, List.mem_append,
      List.mem_singleton] at mem
    rcases mem with old | rfl
    · exact large part old
    · exact full
  · exact ⟨rfl, rfl, rfl, rfl, built, large, addedCurrent, addedContent⟩

end Flush

/-! ### Every step keeps the invariant -/

section Steps

variable {s : WriteSession}

private theorem large_of_isOpen (inv : Invariant s) (isOpen : s.phase.isOpen) :
    ∀ part ∈ s.partUploads, multipartUploadMinBytes ≤ part.partLength := fun part mem =>
  let ⟨i, found⟩ := List.mem_iff_getElem?.mp mem
  inv.large i part found (.inr isOpen)

private theorem Invariant.newPartInit (inv : Invariant s) (empty : s.partChunks = []) :
    Invariant s.newPartInit where
  fresh opening := ⟨(inv.fresh opening).1, rfl⟩
  built := inv.built
  large := inv.large
  current := ⟨rfl, rfl⟩
  content := by simpa [WriteSession.newPartInit, empty] using inv.content
  ended ended := ⟨rfl, (inv.ended ended).2⟩
  locked := inv.locked
  sent := inv.sent
  unsent := inv.unsent

private theorem Invariant.toPhase (inv : Invariant s) {phase : Phase} (notOpening : phase ≠ .opening)
    (isOpen : phase.isOpen → s.phase.isOpen) (notEnded : phase.ended = false)
    (notCompleted : s.phase ≠ .completed) : Invariant { s with phase } where
  fresh opening := absurd opening notOpening
  built := inv.built
  large i part found bound := inv.large i part found (bound.imp_right isOpen)
  current := inv.current
  content := inv.content
  ended ended := by simp [notEnded] at ended
  locked results locked := by
    cases (show phase = .locked results from locked)
    cases notEnded
  sent completed := by
    cases (show phase = .completed from completed)
    cases notEnded
  unsent _ := inv.unsent notCompleted

private theorem Invariant.append (inv : Invariant s) (isOpen : s.phase.isOpen)
    (notCompleted : s.phase ≠ .completed) (chunk : Chunk) :
    Invariant { s.append chunk with phase := .writing, accepted := s.accepted ++ [chunk] } := by
  obtain ⟨uploadId, -, completions, -, built, large, current, content⟩ :=
    append_spec chunk inv.built (large_of_isOpen inv isOpen) inv.current
  refine ⟨nofun, by simpa [uploadId] using built, fun i part found _ => ?_, current, ?_, nofun,
    nofun, nofun, fun _ => by simpa [completions] using inv.unsent notCompleted⟩
  · exact large part (List.mem_iff_getElem?.mpr ⟨i, found⟩)
  · simp [content, inv.content]

private theorem Invariant.finish (inv : Invariant s) {index : Nat} {part : PartUpload}
    (found : s.partUploads[index]? = some part) (running : part.status = .running)
    (status : PartStatus) :
    Invariant { s with partUploads := s.partUploads.set index { part with status } } := by
  have unchanged : ∀ (i : Nat) (other : PartUpload),
      (s.partUploads.set index { part with status })[i]? = some other →
        ∃ old, s.partUploads[i]? = some old ∧ old.uploadId = other.uploadId ∧
          old.partNumber = other.partNumber ∧ old.partLength = other.partLength ∧
          old.partChunks = other.partChunks ∧ old.partPayloadHash = other.partPayloadHash := by
    intro i other foundOther
    rw [List.getElem?_set] at foundOther
    by_cases same : index = i
    · subst same
      rw [if_pos rfl, if_pos (List.getElem?_eq_some_iff.mp found).1] at foundOther
      cases foundOther
      exact ⟨part, found, rfl, rfl, rfl, rfl, rfl⟩
    · rw [if_neg same] at foundOther
      exact ⟨other, foundOther, rfl, rfl, rfl, rfl, rfl⟩
  have notGathered : ∀ results, WriteSession.partNumbersAndEtags s.partUploads ≠ some results :=
    fun results gathered => by
      obtain ⟨etag, succeeded, -⟩ := (partNumbersAndEtags_spec gathered).2 index part found
      rw [running] at succeeded
      cases succeeded
  refine ⟨fun opening => ?_, fun i other foundOther => ?_, fun i other foundOther bound => ?_,
    inv.current, ?_, fun ended => ?_, fun results locked => ?_, fun completed => ?_,
    inv.unsent⟩
  · simp [(inv.fresh opening).1] at found
  · obtain ⟨old, foundOld, uploadId, number, length, chunks, hash⟩ := unchanged i other foundOther
    obtain ⟨sameId, sameNumber, sameLength, sameHash⟩ := inv.built i old foundOld
    exact ⟨uploadId ▸ sameId, number ▸ sameNumber, by
      simpa [length, PartUpload.payload, chunks] using sameLength, by
      simpa [hash, PartUpload.payload, chunks] using sameHash⟩
  · obtain ⟨old, foundOld, -, -, length, -, -⟩ := unchanged i other foundOther
    exact length ▸ inv.large i old foundOld (by simpa using bound)
  · have payloads : (s.partUploads.set index { part with status }).map PartUpload.payload =
        s.partUploads.map PartUpload.payload := by
      apply List.ext_getElem?
      intro i
      simp only [List.getElem?_map]
      cases foundSet : (s.partUploads.set index { part with status })[i]? with
      | none =>
        have beyond : s.partUploads.length ≤ i := by simpa using foundSet
        simp [List.getElem?_eq_none_iff.mpr beyond]
      | some other =>
        obtain ⟨old, foundOld, -, -, -, chunks, -⟩ := unchanged i other foundSet
        simp [foundOld, PartUpload.payload, chunks]
    simpa [payloads] using inv.content
  · simpa using inv.ended ended
  · exact absurd (inv.locked results locked) (notGathered results)
  · obtain ⟨results, gathered, -⟩ := inv.sent completed
    exact absurd gathered (notGathered results)

private theorem Invariant.endSession (inv : Invariant s) (writing : s.phase = .writing) :
    Invariant s.endSession := by
  have isOpen : s.phase.isOpen := by simp [writing, Phase.isOpen]
  have unsent : s.completions = [] := inv.unsent (by simp [writing])
  -- `write(b'')` for an empty file
  generalize writtenEq : (if s.partUploads = [] then s.append [] else s) = written
  obtain ⟨uploadId, completions, accepted, built, large, current, content, nonempty⟩ :
      written.uploadId = s.uploadId ∧ written.completions = s.completions ∧
        written.accepted = s.accepted ∧
        (∀ (i : Nat) (part : PartUpload), written.partUploads[i]? = some part →
          Built part written.uploadId i) ∧
        (∀ part ∈ written.partUploads, multipartUploadMinBytes ≤ part.partLength) ∧
        (written.partLength = written.partChunks.flatten.length ∧
          written.partPayloadHash.fed = written.partChunks.flatten) ∧
        (written.partUploads.map PartUpload.payload).flatten ++ written.partChunks.flatten =
          s.accepted.flatten ∧
        (written.partChunks = [] → written.partUploads ≠ []) := by
    subst writtenEq
    split
    · rename_i empty
      obtain ⟨uploadId, -, completions, accepted, built, large, current, content⟩ :=
        append_spec [] inv.built (large_of_isOpen inv isOpen) inv.current
      refine ⟨uploadId, completions, accepted, uploadId ▸ built, large, current, by
        simpa [inv.content] using content, ?_⟩
      simp only [WriteSession.append]
      split
      · simp [WriteSession.uploadPart, WriteSession.newPartInit]
      · simp
    · exact ⟨rfl, rfl, rfl, inv.built, large_of_isOpen inv isOpen, inv.current, inv.content,
        fun _ => ‹_›⟩
  have ended : WriteSession.endSession s =
      { (if written.partChunks = [] then written else written.uploadPart) with
        phase := .gathering } := by
    rw [← writtenEq]
    rfl
  rw [ended]
  split
  · rename_i flushed
    exact ⟨nofun, by simpa using built, fun i part found _ => large part
      (List.mem_iff_getElem?.mpr ⟨i, found⟩), current, by simpa [accepted] using content,
      fun _ => ⟨flushed, nonempty flushed⟩, nofun, nofun, fun _ => completions.trans unsent⟩
  · refine ⟨nofun, by simpa using built_uploadPart built current, fun i part found bound => ?_,
      by simp [WriteSession.uploadPart, WriteSession.newPartInit, Sha256.init], ?_,
      fun _ => by simp [WriteSession.uploadPart, WriteSession.newPartInit], nofun, nofun,
      fun _ => completions.trans unsent⟩
    · simp only [WriteSession.uploadPart, WriteSession.newPartInit, List.length_append,
        List.length_singleton] at found bound
      rcases bound with bound | isOpen
      · rw [List.getElem?_append_left (by omega)] at found
        exact large part (List.mem_iff_getElem?.mpr ⟨i, found⟩)
      · simp [Phase.isOpen] at isOpen
    · rw [show written.uploadPart.accepted = s.accepted from accepted]
      exact content_uploadPart.trans content

end Steps

/-- Every step keeps the invariant. -/
theorem Invariant.step {s t : WriteSession} (inv : Invariant s) {action : SessionAction}
    (stepped : s.step action = some t) : Invariant t := by
  rcases WriteSession.step_cases stepped with ⟨_, -, opening, rfl⟩ | ⟨-, opening, rfl⟩ |
    ⟨_, -, writing, -, rfl⟩ | ⟨chunk, ⟨-, writing, -⟩ | ⟨-, sleeping, -⟩, rfl⟩ |
    ⟨-, ⟨_, sleeping⟩, -, rfl⟩ | ⟨_, _, _, -, found, running, rfl⟩ | ⟨-, writing, rfl⟩ |
    ⟨-, writing, rfl⟩ | ⟨-, gathering, -, rfl⟩ | ⟨results, -, gathering, -, found, rfl⟩ |
    ⟨_, _, _, -, locked, -, rfl⟩ | ⟨results, -, locked, rfl⟩
  · obtain ⟨noParts, noChunks⟩ := inv.fresh opening
    refine ⟨nofun, by simp [WriteSession.newPartInit, noParts],
      by simp [WriteSession.newPartInit, noParts],
      by simp [WriteSession.newPartInit, Sha256.init], ?_, nofun, nofun, nofun,
      fun _ => inv.unsent (by simp [opening])⟩
    simpa [WriteSession.newPartInit, noParts, noChunks] using inv.content
  · exact (inv.newPartInit (inv.fresh opening).2).toPhase nofun nofun rfl
      (by simp [WriteSession.newPartInit, opening])
  · exact inv.toPhase nofun (fun _ => by simp [writing, Phase.isOpen]) rfl (by simp [writing])
  · exact inv.append (by simp [writing, Phase.isOpen]) (by simp [writing]) chunk
  · exact inv.append (by simp [sleeping, Phase.isOpen]) (by simp [sleeping]) chunk
  · exact inv.toPhase nofun (fun _ => by simp [sleeping, Phase.isOpen]) rfl (by simp [sleeping])
  · exact inv.finish found running _
  · exact inv.endSession writing
  · exact inv.toPhase nofun nofun rfl (by simp [writing])
  · exact inv.toPhase nofun nofun rfl (by simp [gathering])
  · refine ⟨nofun, inv.built, fun i part foundPart bound => inv.large i part foundPart
        (bound.imp_right nofun), inv.current, inv.content,
      fun _ => inv.ended (by simp [gathering, Phase.ended]), fun other locked => ?_, nofun,
      fun _ => inv.unsent (by simp [gathering])⟩
    cases locked
    exact found
  · exact inv.toPhase nofun nofun rfl (by simp [locked])
  · have ended := inv.ended (by simp [locked, Phase.ended])
    have reset := inv.newPartInit ended.1
    refine ⟨nofun, reset.built, fun i part foundPart bound => reset.large i part foundPart
        (bound.imp_right nofun), reset.current, reset.content, fun _ => ⟨rfl, ended.2⟩, nofun,
      fun _ => ⟨results, inv.locked results locked, ?_⟩, fun notCompleted => absurd rfl notCompleted⟩
    simp [WriteSession.newPartInit, inv.unsent (by simp [locked])]

theorem Invariant.run {s t : WriteSession} (inv : Invariant s) {actions : List SessionAction}
    (ran : s.run actions = some t) : Invariant t := by
  induction actions generalizing s with
  | nil => exact Option.some.inj ran ▸ inv
  | cons action actions ih =>
    obtain ⟨next, stepped, rest⟩ := Option.bind_eq_some.mp ran
    exact ih (inv.step stepped) rest

/-! ## What a session sends -/

/-- `CompleteMultipartUpload` goes out at most once, after a normal exit with every part done and
the parent a directory, listing each part in order; the parts carry their own length and hash,
all but the last are large, and their payloads are the chunks of the `write` calls that returned. -/
theorem completes_exactly {actions : List SessionAction} {s : WriteSession}
    (ran : WriteSession.init.run actions = some s) :
    s.completions.length ≤ 1 ∧ s.accepted.Sublist (writtenChunks actions) ∧
      ∀ sent ∈ s.completions,
        SessionAction.exit ∈ actions ∧ SessionAction.raise ∉ actions ∧
        SessionAction.complete false true ∈ actions ∧
        sent.1 = s.uploadId ∧ 0 < s.partUploads.length ∧ sent.2.length = s.partUploads.length ∧
        (s.partUploads.map PartUpload.payload).flatten = s.accepted.flatten ∧
        ∀ (i : Nat) (part : PartUpload), s.partUploads[i]? = some part →
          (∃ etag, part.status = .succeeded etag ∧ sent.2[i]? = some (i + 1, etag)) ∧
          part.uploadId = s.uploadId ∧ part.partNumber = i + 1 ∧
          part.partLength = part.payload.length ∧ part.partPayloadHash = ⟨part.payload⟩ ∧
          (i + 1 < s.partUploads.length → multipartUploadMinBytes ≤ part.payload.length) := by
  have inv := invariant_init.run ran
  have accepted : s.accepted.Sublist (writtenChunks actions) :=
    (List.sublist_append_left _ _).trans (by simpa using WriteSession.accepted_run ran)
  by_cases done : s.phase = .completed
  · obtain ⟨-, raised, ended, completed⟩ := WriteSession.run_phases ran
    obtain ⟨results, gathered, only⟩ := inv.sent done
    obtain ⟨flushed, nonempty⟩ := inv.ended (by simp [done, Phase.ended])
    obtain ⟨length, listed⟩ := partNumbersAndEtags_spec gathered
    refine ⟨by simp [only], accepted, ?_⟩
    rintro sent sentMem
    obtain rfl := List.mem_singleton.mp (only ▸ sentMem)
    refine ⟨(ended (by simp [done, Phase.ended])).resolve_left (by decide),
      fun raise => by simp [raised raise] at done, (completed done).resolve_left (by decide), rfl,
      List.length_pos.mpr nonempty, length, by simpa [flushed] using inv.content,
      fun i part found => ?_⟩
    obtain ⟨uploadId, number, partLength, hash⟩ := inv.built i part found
    obtain ⟨etag, succeeded, listedPart⟩ := listed i part found
    exact ⟨⟨etag, succeeded, number ▸ listedPart⟩, uploadId, number, partLength, hash,
      fun notLast => partLength ▸ inv.large i part found (.inl notLast)⟩
  · simp [inv.unsent done, accepted]

/-- One chunk, its part uploaded by `end`. -/
def oneChunk : List SessionAction :=
  [.start (some "upload"), .write [1, 2], .exit, .finish 0 (some "etag"), .gathered,
    .complete false true]

theorem oneChunk_sends :
    ∃ s, WriteSession.init.run oneChunk = some s ∧ s.completions = [("upload", [(1, "etag")])] ∧
      s.completions.length ≤ 1 ∧ s.accepted.Sublist (writtenChunks oneChunk) ∧
      ∀ sent ∈ s.completions,
        SessionAction.exit ∈ oneChunk ∧ SessionAction.raise ∉ oneChunk ∧
        SessionAction.complete false true ∈ oneChunk ∧
        sent.1 = s.uploadId ∧ 0 < s.partUploads.length ∧ sent.2.length = s.partUploads.length ∧
        (s.partUploads.map PartUpload.payload).flatten = s.accepted.flatten ∧
        ∀ (i : Nat) (part : PartUpload), s.partUploads[i]? = some part →
          (∃ etag, part.status = .succeeded etag ∧ sent.2[i]? = some (i + 1, etag)) ∧
          part.uploadId = s.uploadId ∧ part.partNumber = i + 1 ∧
          part.partLength = part.payload.length ∧ part.partPayloadHash = ⟨part.payload⟩ ∧
          (i + 1 < s.partUploads.length → multipartUploadMinBytes ≤ part.payload.length) :=
  ⟨_, rfl, rfl, completes_exactly rfl⟩

/-- Four full parts are started and the fifth `write` finds four unfinished, so it raises; the
body catches the exception and exits normally, and every part succeeds. -/
def swallowedWrite (chunk : Chunk) : List SessionAction :=
  [.start (some "upload"), .write chunk, .write chunk, .write chunk, .write chunk, .wake,
    .write [7], .wake, .finish 0 (some "etag"), .finish 1 (some "etag"),
    .finish 2 (some "etag"), .finish 3 (some "etag"), .exit, .gathered, .complete false true]

private theorem swallowedWrite_run {chunk : Chunk} (full : chunk.length = multipartUploadMinBytes) :
    ∃ s, WriteSession.init.run (swallowedWrite chunk) = some s ∧ s.completions ≠ [] ∧
      (s.partUploads.map PartUpload.payload).flatten ≠
        (writtenChunks (swallowedWrite chunk)).flatten := by
  -- the writes decide on the chunk's length; the rest runs on the state they leave
  rw [← List.take_append_drop 8 (swallowedWrite chunk), WriteSession.run_append]
  simp only [swallowedWrite, List.take, List.drop]
  iterate 8
    rw [WriteSession.run_cons]
    simp [WriteSession.step, WriteSession.init, WriteSession.append_full, full,
      WriteSession.newPartInit, WriteSession.slow, WriteSession.inProgress, Sha256.init,
      PartStatus.done, multipartUploadMaxConcurrentUploadsPerFile]
  refine ⟨_, rfl, by simp, fun same => ?_⟩
  simpa [PartUpload.payload, WriteSession.endSession, WriteSession.newPartInit, writtenChunks]
    using congrArg List.length same

/-- The session sends `CompleteMultipartUpload` although a `write` raised, and its parts hold
the chunks of the four writes that returned, not every chunk the body passed to `write`. -/
theorem swallowedWrite_completes :
    ∃ s, WriteSession.init.run (swallowedWrite (List.replicate multipartUploadMinBytes 0)) =
        some s ∧ s.completions ≠ [] ∧
      (s.partUploads.map PartUpload.payload).flatten ≠
        (writtenChunks (swallowedWrite (List.replicate multipartUploadMinBytes 0))).flatten :=
  swallowedWrite_run (List.length_replicate _ _)

end AioftpS3.Upload.Completion

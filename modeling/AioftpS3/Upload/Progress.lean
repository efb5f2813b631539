import AioftpS3.Upload.Completion

/-!
Every file can be uploaded. Whatever chunks the body writes, when each part upload succeeds as
soon as it starts the gate of `write` never sleeps, so no `write` is refused; `end` then uploads
the rest, `asyncio.gather` returns every part's number and ETag, and with the parent a directory
the session sends `CompleteMultipartUpload` for exactly the bytes written.
-/

set_option autoImplicit false
set_option relaxedAutoImplicit false

namespace AioftpS3.Upload.Progress

open AioftpS3.Upload.Session AioftpS3.Upload.Completion

/-- The body may go on writing, and every part started so far has succeeded. -/
structure KeptUp (s : WriteSession) : Prop where
  writing : s.phase = .writing
  succeeded : ∀ part ∈ s.partUploads, ∃ etag, part.status = .succeeded etag

/-! ## What the session's steps leave of the parts -/

section Parts

variable {s : WriteSession}

@[simp] theorem append_uploadId (s : WriteSession) (chunk : Chunk) :
    (s.append chunk).uploadId = s.uploadId := by
  simp only [WriteSession.append]
  split_ifs <;> rfl

@[simp] theorem endSession_uploadId (s : WriteSession) : s.endSession.uploadId = s.uploadId := by
  simp only [WriteSession.endSession]
  split_ifs <;> simp [WriteSession.uploadPart, WriteSession.newPartInit]

@[simp] theorem writtenChunks_append (first rest : List SessionAction) :
    writtenChunks (first ++ rest) = writtenChunks first ++ writtenChunks rest :=
  List.filterMap_append _ _ _

private theorem append_partUploads (s : WriteSession) (chunk : Chunk) :
    (s.append chunk).partUploads = s.partUploads ∨
      ∃ part, (s.append chunk).partUploads = s.partUploads ++ [part] ∧ part.status = .running := by
  simp only [WriteSession.append]
  split_ifs <;> simp

private theorem endSession_partUploads (s : WriteSession) :
    s.endSession.partUploads = s.partUploads ∨
      ∃ part, s.endSession.partUploads = s.partUploads ++ [part] ∧ part.status = .running := by
  simp only [WriteSession.endSession, WriteSession.append]
  split_ifs <;> simp_all

private theorem partNumbersAndEtags_isSome {parts : List PartUpload}
    (succeeded : ∀ part ∈ parts, ∃ etag, part.status = .succeeded etag) :
    ∃ results, WriteSession.partNumbersAndEtags parts = some results := by
  induction parts with
  | nil => exact ⟨[], rfl⟩
  | cons part parts ih =>
    obtain ⟨etag, status⟩ := succeeded part (List.mem_cons_self _ _)
    obtain ⟨results, gathered⟩ := ih fun other mem => succeeded other (List.mem_cons_of_mem _ mem)
    exact ⟨(part.partNumber, etag) :: results,
      by simp [WriteSession.partNumbersAndEtags, status, gathered]⟩

private theorem slow_of_succeeded
    (succeeded : ∀ part ∈ s.partUploads, ∃ etag, part.status = .succeeded etag) :
    s.slow = false := by
  unfold WriteSession.slow
  split
  · rename_i beforeLast _ _ reversed
    have mem : beforeLast ∈ s.partUploads := by
      rw [← List.mem_reverse, reversed]
      simp
    obtain ⟨etag, status⟩ := succeeded beforeLast mem
    simp [status, PartStatus.done]
  · rfl

private theorem step_finish_last {parts : List PartUpload} {part : PartUpload}
    (added : s.partUploads = parts ++ [part]) (running : part.status = .running) (etag : String) :
    s.step (.finish parts.length (some etag)) =
      some { s with partUploads := parts ++ [{ part with status := .succeeded etag }] } := by
  simp [WriteSession.step, added, running, PartStatus.ofResult]

end Parts

/-! ## Writing while the parts keep up -/

section Writing

variable {s : WriteSession}

private theorem KeptUp.write (keptUp : KeptUp s) (etag : String) (chunk : Chunk) :
    ∃ actions t, writtenChunks actions = [chunk] ∧ s.run actions = some t ∧ KeptUp t ∧
      t.uploadId = s.uploadId ∧ t.accepted = s.accepted ++ [chunk] := by
  obtain ⟨w, wrote, writing, parts, sameId, accepted⟩ : ∃ w, s.step (.write chunk) = some w ∧
      w.phase = .writing ∧ w.partUploads = (s.append chunk).partUploads ∧ w.uploadId = s.uploadId ∧
      w.accepted = s.accepted ++ [chunk] :=
    ⟨{ s.append chunk with phase := .writing, accepted := s.accepted ++ [chunk] },
      by simp [WriteSession.step, keptUp.writing, slow_of_succeeded keptUp.succeeded], rfl, rfl,
      by simp, rfl⟩
  rcases append_partUploads s chunk with same | ⟨part, added, running⟩
  · -- the chunk stays in the current part
    refine ⟨[.write chunk], w, rfl, by rw [WriteSession.run_cons, wrote]; rfl, ⟨writing, ?_⟩,
      sameId, accepted⟩
    rw [parts, same]
    exact keptUp.succeeded
  · -- the chunk fills the part, which is uploaded and succeeds
    refine ⟨[.write chunk, .finish s.partUploads.length (some etag)],
      { w with partUploads := s.partUploads ++ [{ part with status := .succeeded etag }] }, rfl, ?_,
      ⟨writing, fun other mem => ?_⟩, sameId, accepted⟩
    · rw [WriteSession.run_cons, wrote, Option.some_bind, WriteSession.run_cons,
        step_finish_last (parts.trans added) running etag]
      rfl
    rcases List.mem_append.mp mem with old | new
    · exact keptUp.succeeded other old
    · exact ⟨etag, by simp [List.mem_singleton.mp new]⟩

private theorem KeptUp.writeAll (etag : String) : ∀ (chunks : List Chunk) {s : WriteSession}, KeptUp s →
    ∃ actions t, writtenChunks actions = chunks ∧ s.run actions = some t ∧ KeptUp t ∧
      t.uploadId = s.uploadId ∧ t.accepted = s.accepted ++ chunks
  | [], s, keptUp => ⟨[], s, rfl, rfl, keptUp, rfl, by simp⟩
  | chunk :: chunks, s, keptUp => by
    obtain ⟨first, next, written, ran, keptUpNext, sameId, accepted⟩ := keptUp.write etag chunk
    obtain ⟨rest, t, writtenRest, ranRest, keptUpT, sameIdT, acceptedT⟩ :=
      KeptUp.writeAll etag chunks keptUpNext
    refine ⟨first ++ rest, t, ?_, by rw [WriteSession.run_append, ran, Option.some_bind, ranRest],
      keptUpT, sameIdT.trans sameId, by simp [acceptedT, accepted]⟩
    rw [writtenChunks_append, written, writtenRest, List.singleton_append]

private theorem complete_of_succeeded (gathering : s.phase = .gathering)
    (succeeded : ∀ part ∈ s.partUploads, ∃ etag, part.status = .succeeded etag) :
    ∃ t, s.run [.gathered, .complete false true] = some t ∧ t.phase = .completed ∧
      t.uploadId = s.uploadId ∧ t.accepted = s.accepted := by
  obtain ⟨results, gathered⟩ := partNumbersAndEtags_isSome succeeded
  have noneFailed : s.partUploads.any (·.status = .failed) = false := by
    simp only [List.any_eq_false, decide_eq_true_eq]
    intro part mem failed
    obtain ⟨etag, status⟩ := succeeded part mem
    simp [status] at failed
  have ran : s.run [.gathered, .complete false true] =
      some { { s with phase := .locked results }.newPartInit with
        phase := .completed, completions := s.completions ++ [(s.uploadId, results)] } := by
    simp [WriteSession.run, WriteSession.step, gathering, noneFailed, gathered]
  exact ⟨_, ran, rfl, rfl, rfl⟩

private theorem KeptUp.exit (keptUp : KeptUp s) (etag : String) :
    ∃ actions t, writtenChunks actions = [] ∧ s.run actions = some t ∧ t.phase = .completed ∧
      t.uploadId = s.uploadId ∧ t.accepted = s.accepted := by
  have exited : s.step .exit = some s.endSession := by simp [WriteSession.step, keptUp.writing]
  rcases endSession_partUploads s with same | ⟨part, added, running⟩
  · -- nothing left to upload
    obtain ⟨t, ran, completed, sameId, accepted⟩ :=
      @complete_of_succeeded s.endSession rfl (same ▸ keptUp.succeeded)
    exact ⟨[.exit, .gathered, .complete false true], t, rfl,
      by rw [WriteSession.run_cons, exited, Option.some_bind, ran], completed, by simp [sameId],
      by simp [accepted]⟩
  · -- the last part is uploaded and succeeds
    obtain ⟨t, ran, completed, sameId, accepted⟩ :=
      @complete_of_succeeded
        { s.endSession with
          partUploads := s.partUploads ++ [{ part with status := .succeeded etag }] }
        rfl fun other mem => by
          rcases List.mem_append.mp mem with old | new
          · exact keptUp.succeeded other old
          · exact ⟨etag, by simp [List.mem_singleton.mp new]⟩
    refine ⟨[.exit, .finish s.partUploads.length (some etag), .gathered, .complete false true], t,
      rfl, ?_, completed, by simp [sameId], by simp [accepted]⟩
    rw [WriteSession.run_cons, exited, Option.some_bind, WriteSession.run_cons,
      step_finish_last added running etag, Option.some_bind, ran]

end Writing

/-- Every file can be uploaded: for every upload id and every sequence of chunks, some interleaving
completes the session once, under that id, with the chunks written as its parts' payloads. -/
theorem every_upload_completes (uploadId etag : String) (chunks : List Chunk) :
    ∃ actions, writtenChunks actions = chunks ∧ ∃ s, WriteSession.init.run actions = some s ∧
      s.phase = .completed ∧ s.accepted = chunks ∧
      (∃ results, s.completions = [(uploadId, results)]) ∧
      (s.partUploads.map PartUpload.payload).flatten = chunks.flatten := by
  obtain ⟨started, startedRun, keptUp, startedId, startedAccepted⟩ : ∃ started,
      WriteSession.init.step (.start (some uploadId)) = some started ∧ KeptUp started ∧
        started.uploadId = uploadId ∧ started.accepted = [] :=
    ⟨_, rfl, ⟨rfl, by simp [WriteSession.newPartInit, WriteSession.init]⟩, rfl, rfl⟩
  obtain ⟨writes, written, wrote, ranWrites, keptUpWritten, sameId, accepted⟩ :=
    keptUp.writeAll etag chunks
  obtain ⟨ends, s, noChunks, ranEnds, completed, sameIdEnd, acceptedEnd⟩ := keptUpWritten.exit etag
  have ran : WriteSession.init.run (.start (some uploadId) :: writes ++ ends) = some s := by
    rw [List.cons_append, WriteSession.run_cons, startedRun, Option.some_bind,
      WriteSession.run_append, ranWrites, Option.some_bind, ranEnds]
  have inv := invariant_init.run ran
  have sameAccepted : s.accepted = chunks := by simp [acceptedEnd, accepted, startedAccepted]
  obtain ⟨results, -, sent⟩ := inv.sent completed
  obtain ⟨flushed, -⟩ := inv.ended (by simp [completed, Phase.ended])
  refine ⟨_, ?_, s, ran, completed, sameAccepted, ⟨results, ?_⟩, ?_⟩
  · rw [writtenChunks_append,
      show writtenChunks (.start (some uploadId) :: writes) = writtenChunks writes from rfl, wrote,
      noChunks, List.append_nil]
  · rw [sent, sameIdEnd, sameId, startedId]
  · simpa [flushed, sameAccepted] using inv.content

theorem threeChunks_complete :
    ∃ actions, writtenChunks actions = [[1], [], [2, 3]] ∧
      ∃ s, WriteSession.init.run actions = some s ∧
      s.phase = .completed ∧ s.accepted = [[1], [], [2, 3]] ∧
      (∃ results, s.completions = [("upload", results)]) ∧
      (s.partUploads.map PartUpload.payload).flatten = [1, 2, 3] :=
  every_upload_completes "upload" "etag" [[1], [], [2, 3]]

end AioftpS3.Upload.Progress

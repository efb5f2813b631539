import AioftpS3.Upload.Session

/-!
How many part uploads of one write session run at once. `write` only looks at
`part_uploads[-2]` before it counts the unfinished parts, and `end` starts the last part without
looking, so the count is not kept to `MULTIPART_UPLOAD_MAX_CONCURRENT_UPLOADS_PER_FILE + 1`:
a write that finds the part before the last done uploads a new part while up to three older ones
still run. What the gate does keep is this: the parts older than the last two hold at most
`MULTIPART_UPLOAD_MAX_CONCURRENT_UPLOADS_PER_FILE` unfinished uploads while the body runs, so at
most two more than that run at any time.
-/

set_option autoImplicit false
set_option relaxedAutoImplicit false

namespace AioftpS3.Upload.InFlight

open AioftpS3.Upload.Session

/-- The part uploads before the last two that are not done. -/
def olderInProgress (parts : List PartUpload) : Nat :=
  (parts.take (parts.length - 2)).countP (!·.status.done)

/-! ## Counting unfinished parts -/

section Counting

variable {parts : List PartUpload}

/-- A part task that finishes is done, whatever it returned. -/
@[simp] theorem done_ofResult (etag : Option String) : (PartStatus.ofResult etag).done = true := by
  cases etag <;> rfl

private theorem countP_set_done (l : List PartUpload) (index : Nat) (part : PartUpload)
    (done : part.status.done = true) :
    (l.set index part).countP (!·.status.done) ≤ l.countP (!·.status.done) := by
  by_cases inside : index < l.length
  · rw [List.countP_set _ _ _ _ inside]
    simp [done]
  · rw [List.set_eq_of_length_le (Nat.le_of_not_lt inside)]

private theorem olderInProgress_set_done (index : Nat) (part : PartUpload)
    (done : part.status.done = true) :
    olderInProgress (parts.set index part) ≤ olderInProgress parts := by
  simpa [olderInProgress, List.set_take] using
    countP_set_done (parts.take (parts.length - 2)) index part done

private theorem olderInProgress_append (part : PartUpload) :
    olderInProgress (parts ++ [part]) ≤ parts.countP (!·.status.done) := by
  unfold olderInProgress
  rw [List.length_append, List.length_singleton, List.take_append_of_le_length (by omega)]
  exact (List.take_sublist _ _).countP_le _

@[simp] theorem olderInProgress_append_two (older : List PartUpload) (beforeLast last : PartUpload) :
    olderInProgress (older ++ [beforeLast, last]) = older.countP (!·.status.done) := by
  unfold olderInProgress
  rw [List.take_left' (by simp)]

end Counting

private theorem gate_open {s : WriteSession} (notSlow : s.slow = false) :
    s.partUploads.length ≤ 2 ∨
      s.inProgress ≤ olderInProgress s.partUploads + 1 ∧
        ∀ part, olderInProgress (s.partUploads ++ [part]) ≤ olderInProgress s.partUploads := by
  unfold WriteSession.slow at notSlow
  unfold WriteSession.inProgress
  generalize s.partUploads = parts at notSlow ⊢
  obtain ⟨reversed, rfl⟩ : ∃ reversed, parts = reversed.reverse :=
    ⟨parts.reverse, (List.reverse_reverse _).symm⟩
  rw [List.reverse_reverse] at notSlow
  rcases reversed with _ | ⟨last, _ | ⟨beforeLast, _ | ⟨older, rest⟩⟩⟩
  case cons.cons.cons =>
    have done : beforeLast.status.done = true := by simpa using notSlow
    right
    have parts : (last :: beforeLast :: older :: rest).reverse =
        (older :: rest).reverse ++ [beforeLast, last] := by simp
    refine ⟨?_, fun part => ?_⟩
    · rw [parts, olderInProgress_append_two]
      simp only [List.countP_append, List.countP_cons, List.countP_nil, done, Bool.not_true]
      split <;> simp
    · have added : (older :: rest).reverse ++ [beforeLast, last] ++ [part] =
          ((older :: rest).reverse ++ [beforeLast]) ++ [last, part] := by simp
      rw [parts, added, olderInProgress_append_two, olderInProgress_append_two]
      simp [List.countP_cons, done]
  all_goals exact .inl (by simp)

/-! ## The bound -/

/-- What the gate keeps: while the body runs, the parts older than the last two hold at most
`MULTIPART_UPLOAD_MAX_CONCURRENT_UPLOADS_PER_FILE` unfinished uploads, and at most one more than
that are unfinished while the current part holds chunks; at most two more run at any time. -/
structure Bounded (s : WriteSession) : Prop where
  older : s.phase.isOpen →
    olderInProgress s.partUploads ≤ multipartUploadMaxConcurrentUploadsPerFile
  pending : s.phase.isOpen → s.partChunks ≠ [] →
    s.inProgress ≤ multipartUploadMaxConcurrentUploadsPerFile + 1
  inFlight : s.inProgress ≤ multipartUploadMaxConcurrentUploadsPerFile + 2

private theorem bounded_init : Bounded WriteSession.init :=
  ⟨fun _ => Nat.zero_le _, fun _ _ => Nat.zero_le _, Nat.zero_le _⟩

section Steps

variable {s : WriteSession}

private theorem Bounded.keep {t : WriteSession} (bounded : Bounded s) (parts : t.partUploads = s.partUploads)
    (chunks : t.partChunks ≠ [] → t.partChunks = s.partChunks)
    (isOpen : t.phase.isOpen → s.phase.isOpen) : Bounded t where
  older opened := parts ▸ bounded.older (isOpen opened)
  pending opened nonempty := by
    unfold WriteSession.inProgress
    rw [parts]
    exact bounded.pending (isOpen opened) (chunks nonempty ▸ nonempty)
  inFlight := by
    unfold WriteSession.inProgress
    rw [parts]
    exact bounded.inFlight

private theorem Bounded.append (bounded : Bounded s) (isOpen : s.phase.isOpen)
    (passed : s.slow = false ∨ s.inProgress ≤ multipartUploadMaxConcurrentUploadsPerFile)
    (chunk : Chunk) :
    Bounded { s.append chunk with phase := .writing, accepted := s.accepted ++ [chunk] } := by
  have older := bounded.older isOpen
  have max : multipartUploadMaxConcurrentUploadsPerFile = 3 := rfl
  have few : s.inProgress ≤ s.partUploads.length := List.countP_le_length _
  -- past the gate, one part besides the older ones runs, and a new part keeps the older ones
  have gate : s.inProgress ≤ multipartUploadMaxConcurrentUploadsPerFile + 1 ∧
      ∀ part, olderInProgress (s.partUploads ++ [part]) ≤
        multipartUploadMaxConcurrentUploadsPerFile := by
    rcases passed with notSlow | checked
    · rcases gate_open notSlow with short | ⟨running, kept⟩
      · exact ⟨by omega, fun part => (olderInProgress_append part).trans (by
          unfold WriteSession.inProgress at few
          omega)⟩
      · exact ⟨by omega, fun part => (kept part).trans older⟩
    · exact ⟨by omega, fun part => (olderInProgress_append part).trans checked⟩
  rcases WriteSession.append_parts s chunk with ⟨same, nonempty⟩ | ⟨part, added, empty⟩
  · refine ⟨fun _ => same ▸ older, fun _ _ => ?_, ?_⟩ <;>
    · unfold WriteSession.inProgress at gate ⊢
      simp only [same]
      omega
  · refine ⟨fun _ => by simpa [added] using gate.2 part, fun _ nonempty => absurd empty nonempty, ?_⟩
    have grown : (s.partUploads ++ [part]).countP (!·.status.done) ≤ s.inProgress + 1 := by
      simp only [List.countP_append, List.countP_singleton]
      unfold WriteSession.inProgress
      split <;> omega
    unfold WriteSession.inProgress at gate grown ⊢
    simp only [added]
    omega

private theorem Bounded.finish (bounded : Bounded s) {index : Nat} (part : PartUpload)
    (etag : Option String) :
    Bounded { s with partUploads := s.partUploads.set index { part with status := .ofResult etag } } where
  older opened := (olderInProgress_set_done index _ (done_ofResult etag)).trans (bounded.older opened)
  pending opened nonempty :=
    (countP_set_done s.partUploads index _ (done_ofResult etag)).trans (bounded.pending opened nonempty)
  inFlight := (countP_set_done s.partUploads index _ (done_ofResult etag)).trans bounded.inFlight

private theorem Bounded.endSession (bounded : Bounded s) (writing : s.phase = .writing) :
    Bounded s.endSession := by
  have max : multipartUploadMaxConcurrentUploadsPerFile = 3 := rfl
  refine ⟨nofun, nofun, ?_⟩
  have isOpen : s.phase.isOpen := by simp [writing, Phase.isOpen]
  have flushed : ∀ written : WriteSession, written.inProgress ≤ 4 →
      (if written.partChunks = [] then written else written.uploadPart).inProgress ≤ 5 := by
    intro written bound
    split
    · omega
    · rw [WriteSession.inProgress_uploadPart]
      omega
  show (if _ then _ else _ : WriteSession).inProgress ≤ _
  split
  · rename_i empty
    -- an empty file: `write(b'')` starts at most one part
    refine max ▸ flushed _ ?_
    have few : (s.append []).inProgress ≤ (s.append []).partUploads.length :=
      List.countP_le_length _
    have short : (s.append []).partUploads.length ≤ 1 := by
      rcases WriteSession.append_parts s [] with ⟨same, -⟩ | ⟨part, added, -⟩ <;> simp [*]
    omega
  · rename_i parts
    split
    · exact bounded.inFlight
    · rename_i chunks
      rw [WriteSession.inProgress_uploadPart]
      have := bounded.pending isOpen chunks
      omega

end Steps

/-- Every step keeps the bound. -/
theorem Bounded.step {s t : WriteSession} (bounded : Bounded s) {action : SessionAction}
    (stepped : s.step action = some t) : Bounded t := by
  rcases WriteSession.step_cases stepped with
    ⟨_, -, opening, rfl⟩ | ⟨-, opening, rfl⟩ | ⟨_, -, writing, -, rfl⟩ |
    ⟨chunk, ⟨-, writing, notSlow⟩ | ⟨-, sleeping, checked⟩, rfl⟩ | ⟨-, ⟨_, sleeping⟩, -, rfl⟩ |
    ⟨_, etag, part, -, -, -, rfl⟩ | ⟨-, writing, rfl⟩ | ⟨-, writing, rfl⟩ |
    ⟨-, gathering, -, rfl⟩ | ⟨_, -, gathering, -, -, rfl⟩ | ⟨_, _, _, -, locked, -, rfl⟩ |
    ⟨_, -, locked, rfl⟩
  · exact bounded.keep rfl (fun nonempty => absurd rfl nonempty) (fun _ => by simp [opening, Phase.isOpen])
  · exact bounded.keep rfl (fun nonempty => absurd rfl nonempty) nofun
  · exact bounded.keep rfl (fun _ => rfl) (fun _ => by simp [writing, Phase.isOpen])
  · exact bounded.append (by simp [writing, Phase.isOpen]) (.inl notSlow) chunk
  · exact bounded.append (by simp [sleeping, Phase.isOpen]) (.inr checked) chunk
  · exact bounded.keep rfl (fun _ => rfl) (fun _ => by simp [sleeping, Phase.isOpen])
  · exact bounded.finish part etag
  · exact bounded.endSession writing
  · exact bounded.keep rfl (fun _ => rfl) nofun
  · exact bounded.keep rfl (fun _ => rfl) nofun
  · exact bounded.keep rfl (fun _ => rfl) nofun
  · exact bounded.keep rfl (fun _ => rfl) nofun
  · exact bounded.keep rfl (fun nonempty => absurd rfl nonempty) nofun

private theorem Bounded.run {s t : WriteSession} (bounded : Bounded s) {actions : List SessionAction}
    (ran : s.run actions = some t) : Bounded t := by
  induction actions generalizing s with
  | nil => exact Option.some.inj ran ▸ bounded
  | cons action actions ih =>
    obtain ⟨next, stepped, rest⟩ := Option.bind_eq_some.mp ran
    exact ih (bounded.step stepped) rest

/-- At most `MULTIPART_UPLOAD_MAX_CONCURRENT_UPLOADS_PER_FILE + 2` part uploads of a session run
at once. -/
theorem inProgress_le {s : WriteSession} (reachable : s.Reachable) :
    s.inProgress ≤ multipartUploadMaxConcurrentUploadsPerFile + 2 :=
  let ⟨_, ran⟩ := reachable
  (bounded_init.run ran).inFlight

/-! ## Five parts in flight -/

/-- Four full parts, the fourth after the gate's sleep; the fourth part finishes, so the next
`write` sleeps and finds three unfinished, and the one after it finds `part_uploads[-2]` done and
starts a sixth part while five of them run. -/
def overlappingWrites (chunk : Chunk) : List SessionAction :=
  [.start (some "upload"), .write chunk, .write chunk, .write chunk, .write chunk, .wake,
    .finish 3 (some "etag"), .write chunk, .wake, .write chunk]

private theorem overlappingWrites_run {chunk : Chunk} (full : chunk.length = multipartUploadMinBytes) :
    ∃ s, WriteSession.init.run (overlappingWrites chunk) = some s ∧
      s.inProgress = multipartUploadMaxConcurrentUploadsPerFile + 2 ∧
      s.accepted = writtenChunks (overlappingWrites chunk) := by
  simp only [overlappingWrites]
  iterate 10
    rw [WriteSession.run_cons]
    simp [WriteSession.step, WriteSession.init, WriteSession.append_full, full,
      WriteSession.newPartInit, WriteSession.slow, WriteSession.inProgress, Sha256.init,
      PartStatus.done, PartStatus.ofResult, multipartUploadMaxConcurrentUploadsPerFile]
  exact ⟨_, rfl, rfl, rfl⟩

/-- No `write` raises, and five part uploads run at once. -/
theorem overlappingWrites_exceeds :
    ∃ s, WriteSession.init.run (overlappingWrites (List.replicate multipartUploadMinBytes 0)) =
        some s ∧
      s.inProgress = multipartUploadMaxConcurrentUploadsPerFile + 2 ∧
      s.accepted = writtenChunks (overlappingWrites (List.replicate multipartUploadMinBytes 0)) :=
  overlappingWrites_run (List.length_replicate _ _)

theorem overlappingWrites_inProgress_le :
    ∃ s, WriteSession.init.run (overlappingWrites (List.replicate multipartUploadMinBytes 0)) =
        some s ∧
      s.inProgress = multipartUploadMaxConcurrentUploadsPerFile + 2 ∧
      s.inProgress ≤ multipartUploadMaxConcurrentUploadsPerFile + 2 :=
  let ⟨s, ran, five, _⟩ := overlappingWrites_run (List.length_replicate _ _)
  ⟨s, ran, five, inProgress_le ⟨_, ran⟩⟩

end AioftpS3.Upload.InFlight

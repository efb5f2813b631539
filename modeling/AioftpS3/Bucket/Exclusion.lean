import AioftpS3.Bucket.Concurrent

/-!
The requests of calls on related paths never interleave: a call sends its requests from the body
of its scope and never comes back to it, and two calls on one path, or on paths one of which is
an ancestor of the other, are never in their bodies together. So the log of every run holds the
requests of two such calls in two blocks, one before the other; this is the lock alone, with no
bound on the listings.
-/

set_option autoImplicit false
set_option relaxedAutoImplicit false

namespace AioftpS3.Bucket.Exclusion

open AioftpS3.PosixPath AioftpS3.Bucket.S3 AioftpS3.Bucket.Requests AioftpS3.Bucket.Concurrent
  AioftpS3.Lock.Scopes
open AioftpS3.Lock.Queue (TaskId)
open AioftpS3.Bucket.Facade (FacadeAction)

private theorem sublist_concat {α : Type} {xs l : List α} {last : α} (sub : List.Sublist xs (l ++ [last])) :
    List.Sublist xs l ∨ ∃ init, xs = init ++ [last] ∧ List.Sublist init l := by
  obtain ⟨front, back, rfl, subFront, subBack⟩ := List.sublist_append_iff.mp sub
  cases subBack with
  | cons _ skipped => exact .inl (by simpa [List.sublist_nil.mp skipped] using subFront)
  | cons₂ _ kept => exact .inr ⟨front, by rw [List.sublist_nil.mp kept], subFront⟩

/-- The calls of the two tasks are on one path, or on paths one of which is an ancestor of the
other. -/
def Related (s : System) (task other : TaskId) : Prop :=
  ∃ path path', s.pathOf task = some path ∧ s.pathOf other = some path' ∧ ¬ Apart path path'

/-- The task has left the body of its scope, and never comes back to it. -/
def Left (s : System) (task : TaskId) : Prop :=
  ∃ scope, s.lock.scopes[task]? = some scope ∧ reachedBody scope.stage ∧ scope.stage ≠ .body

private theorem not_related {s : System} (locked : Locked s) {task other : TaskId} (distinct : task ≠ other)
    (inTask : s.InBody task) (inOther : s.InBody other) : ¬ Related s task other := by
  rintro ⟨path, path', found, found', related⟩
  obtain ⟨_, _, foundApart, foundApart', apart⟩ := locked.tasksApart distinct inTask inOther
  rw [found, Option.some.injEq] at foundApart
  rw [found', Option.some.injEq] at foundApart'
  subst foundApart foundApart'
  exact related apart

/-- What every run keeps: each task that has sent a request has reached its body; a task that
sent a request before one of a task related to it has left its body; and no request of a task
related to another stands between two requests of that other. -/
structure Blocks (s : System) : Prop where
  locked : Locked s
  entered : ∀ sent ∈ s.sent,
    ∃ scope, s.lock.scopes[sent.task]? = some scope ∧ reachedBody scope.stage
  left : ∀ first second : Sent, List.Sublist [first, second] s.sent → first.task ≠ second.task →
    Related s first.task second.task → Left s first.task
  blocks : ∀ first second third : Sent, List.Sublist [first, second, third] s.sent →
    first.task = third.task → Related s first.task second.task → first.task = second.task

theorem blocks_start (bucket : Bucket) : Blocks (System.start bucket) where
  locked := locked_start bucket
  entered _ mem := nomatch mem
  left _ _ sub := nomatch List.sublist_nil.mp sub
  blocks _ _ _ sub := nomatch List.sublist_nil.mp sub

namespace Blocks

variable {s s' : System}

private theorem lt_of_mem (blocks : Blocks s) {sent : Sent} (mem : sent ∈ s.sent) :
    sent.task < s.calls.length :=
  let ⟨_, found, _⟩ := blocks.entered sent mem
  blocks.locked.lt_of_scope found

private theorem call (blocks : Blocks s) {action : FacadeAction}
    (stepped : s.step (.call action) = some s') : Blocks s' := by
  have locked := blocks.locked.call stepped
  obtain ⟨lock, lockStepped, rfl⟩ := System.step_call stepped
  have oldScope := fun {sent} (mem : sent ∈ s.sent) =>
    blocks.locked.scope_call lockStepped (blocks.lt_of_mem mem)
  have oldPath := fun {sent} (mem : sent ∈ s.sent) =>
    System.pathOf_call lock ⟨action, callProg action⟩ (blocks.lt_of_mem mem)
  -- tasks that have sent are related as they were
  have related : ∀ {first second : Sent}, first ∈ s.sent → second ∈ s.sent →
      Related { s with lock, calls := s.calls ++ [⟨action, callProg action⟩] }
        first.task second.task → Related s first.task second.task := by
    intro first second mem mem'
    simp only [Related, oldPath mem, oldPath mem', imp_self]
  refine ⟨locked, fun sent mem => ?_, fun first second sub distinct related' => ?_,
    fun first second third sub same related' => ?_⟩
  · obtain ⟨scope, found, reached⟩ := blocks.entered sent mem
    exact ⟨scope, (oldScope mem).trans found, reached⟩
  · have mem : first ∈ s.sent := sub.subset (List.mem_cons_self _ _)
    have mem' : second ∈ s.sent := sub.subset (by simp)
    obtain ⟨scope, found, left⟩ := blocks.left first second sub distinct (related mem mem' related')
    exact ⟨scope, (oldScope mem).trans found, left⟩
  · exact blocks.blocks first second third sub same (related (sub.subset (List.mem_cons_self _ _))
      (sub.subset (by simp)) related')

private theorem lockStep (blocks : Blocks s) {action : PathAction}
    (stepped : s.step (.lock action) = some s') : Blocks s' := by
  have locked := blocks.locked.lockStep stepped
  obtain ⟨-, lock, lockStepped, rfl⟩ := System.step_lock stepped
  refine { blocks with locked, entered := fun sent mem => ?_, left := fun first second sub
    distinct related => ?_ }
  · obtain ⟨scope, found, reached⟩ := blocks.entered sent mem
    obtain ⟨scope', found', -, -, moves⟩ := scope_step lockStepped found
    exact ⟨scope', found', moves.2 reached⟩
  · obtain ⟨scope, found, reached, notBody⟩ := blocks.left first second sub distinct related
    obtain ⟨scope', found', -, -, moves⟩ := scope_step lockStepped found
    refine ⟨scope', found', moves.2 reached, fun body => ?_⟩
    rcases moves.1 body with body | ⟨_, entering⟩
    · exact notBody body
    · simp [entering, reachedBody] at reached

private theorem request (blocks : Blocks s) {task : TaskId} {answered : Bool}
    (stepped : s.step (.request task answered) = some s') : Blocks s' := by
  have locked := blocks.locked.request stepped
  obtain ⟨scope, call, request, foundScope, body, found, -, rfl⟩ := System.step_request stepped
  have pathOf := System.pathOf_send request answered found
  have related : ∀ {task' other}, Related (s.send task call request answered) task' other →
      Related s task' other := by
    intro task' other
    simp only [Related, pathOf, imp_self]
  -- a task that sent before, related to this one, is out of its body
  have leftOf : ∀ sent ∈ s.sent, sent.task ≠ task → Related s sent.task task → Left s sent.task := by
    intro sent mem distinct relatedTask
    obtain ⟨scope', found', reached⟩ := blocks.entered sent mem
    refine ⟨scope', found', reached, fun body' => ?_⟩
    exact not_related blocks.locked distinct ⟨scope', found', body'⟩ ⟨scope, foundScope, body⟩
      relatedTask
  refine ⟨locked, fun sent mem => ?_, fun first second sub distinct related' => ?_,
    fun first second third sub same related' => ?_⟩
  · rcases List.mem_append.mp mem with old | new
    · exact blocks.entered sent old
    · obtain rfl := List.mem_singleton.mp new
      exact ⟨scope, foundScope, by simp [body, reachedBody]⟩
  · rcases sublist_concat sub with old | ⟨init, split, sub'⟩
    · exact blocks.left first second old distinct (related related')
    · have split : init ++ _ = [first] ++ [second] := split.symm
      obtain ⟨rfl, last⟩ := List.append_inj' split rfl
      obtain rfl := (List.singleton_inj.mp last).symm
      exact leftOf first (List.singleton_sublist.mp sub') distinct (related related')
  · rcases sublist_concat sub with old | ⟨init, split, sub'⟩
    · exact blocks.blocks first second third old same (related related')
    · have split : init ++ _ = [first, second] ++ [third] := split.symm
      obtain ⟨rfl, last⟩ := List.append_inj' split rfl
      obtain rfl := (List.singleton_inj.mp last).symm
      by_contra distinct
      obtain ⟨scope', found', -, notBody⟩ := blocks.left first second sub' distinct
        (related related')
      rw [same, foundScope, Option.some.injEq] at found'
      exact notBody (found' ▸ body)

private theorem land (blocks : Blocks s) {index : Nat} (stepped : s.step (.land index) = some s') :
    Blocks s' := by
  obtain ⟨_, _, rfl⟩ := System.step_land stepped
  exact ⟨blocks.locked.land stepped, blocks.entered, blocks.left, blocks.blocks⟩

theorem step (blocks : Blocks s) {action : SystemAction} (stepped : s.step action = some s') :
    Blocks s' := by
  cases action with
  | call => exact blocks.call stepped
  | lock => exact blocks.lockStep stepped
  | request => exact blocks.request stepped
  | land => exact blocks.land stepped

theorem run (blocks : Blocks s) {actions : List SystemAction} (ran : s.run actions = some s') :
    Blocks s' := by
  induction actions generalizing s with
  | nil => exact Option.some.inj ran ▸ blocks
  | cons action actions ih =>
    obtain ⟨next, stepped, rest⟩ := Option.bind_eq_some.mp ran
    exact ih (blocks.step stepped) rest

end Blocks

/-- Calls on related paths do not interleave: in the log of every run from a bucket, a request
that stands between two requests of one call, sent by a call on the same path, on an ancestor of
its path, or on a path under it, is a request of that same call. -/
theorem related_not_interleaved {bucket : Bucket} {actions : List SystemAction} {s : System}
    (ran : (System.start bucket).run actions = some s) {first second third : Sent}
    (ordered : List.Sublist [first, second, third] s.sent) (same : first.task = third.task)
    (related : Related s first.task second.task) : first.task = second.task :=
  ((blocks_start bucket).run ran).blocks first second third ordered same related

/-- `mkdir a`, then `mkdir a/b` on the empty bucket: the second call waits at the lock of `a`
until the first has left its body and released its locks. -/
def nestedMkdirs : List SystemAction :=
  [.call (.mkdir Rmdir.aPath), .call (.mkdir Facade.abPath), .lock (.enter 0), .lock (.enter 0),
    .lock (.enter 0), .lock (.enter 1), .lock (.enter 1), .request 0 true, .request 0 true,
    .request 0 true, .lock (.exit 0), .lock (.release 0), .lock (.release 0), .lock (.resume 1),
    .lock (.enter 1), .lock (.enter 1), .request 1 true, .request 1 true, .request 1 true]

theorem nestedMkdirs_not_interleaved :
    ∃ s, (System.start Bucket.empty).run nestedMkdirs = some s ∧
      List.Sublist [⟨0, .head ['a'], .head false⟩, ⟨0, .head ['a', '/'], .head false⟩,
        ⟨0, .put ['a', '/'], .done⟩] s.sent ∧ Related s 0 0 ∧ (0 : TaskId) = 0 :=
  ⟨_, rfl, by decide, ⟨Rmdir.aPath, Rmdir.aPath, rfl, rfl, fun apart => apart (.inl rfl)⟩,
    @related_not_interleaved Bucket.empty nestedMkdirs _ rfl ⟨0, .head ['a'], .head false⟩
      ⟨0, .head ['a', '/'], .head false⟩ ⟨0, .put ['a', '/'], .done⟩ (by decide) rfl
      ⟨Rmdir.aPath, Rmdir.aPath, rfl, rfl, fun apart => apart (.inl rfl)⟩⟩

end AioftpS3.Bucket.Exclusion

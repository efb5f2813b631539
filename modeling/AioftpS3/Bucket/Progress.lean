import AioftpS3.Bucket.Exclusion

/-!
The calls under the path lock never hang: over every run without cancellation, the tasks already
there can finish by their own steps alone, each entering its locks, running its call to the end,
leaving its body and releasing its locks. It rests on two facts: the path lock of a run is one
its own steps reach, where some unfinished task can always move (`drain_calm`), and a call run
alone ends from any point of its program (`exec_ends`).
-/

set_option autoImplicit false
set_option relaxedAutoImplicit false

namespace AioftpS3.Bucket.Progress

open AioftpS3.Bucket.S3 AioftpS3.Bucket.Requests AioftpS3.Bucket.Exec AioftpS3.Bucket.Concurrent
  AioftpS3.Bucket.Exclusion AioftpS3.Lock.Queue AioftpS3.Lock.Acquire AioftpS3.Lock.Scopes
  AioftpS3.Lock.PathLock AioftpS3.Lock.Safety

/-! ## The path lock of a run -/

/-- The step an action takes on the path lock: a new call's scope, or a step of the tasks on the
lock; a request, and S3 serving one in flight, take none. -/
def lockAction : SystemAction → Option PathAction
  | .call action => some (.call [callPath action] [])
  | .lock action => some action
  | .request _ _ | .land _ => none

private theorem run_lock {s s' : System} {actions : List SystemAction} (ran : s.run actions = some s') :
    s.lock.run (actions.filterMap lockAction) = some s'.lock := by
  induction actions generalizing s with
  | nil =>
    obtain rfl := Option.some.inj ran
    rfl
  | cons action actions ih =>
    obtain ⟨next, stepped, rest⟩ := Option.bind_eq_some.mp ran
    cases action with
    | call action =>
      obtain ⟨lock, lockStepped, rfl⟩ := System.step_call stepped
      simpa [lockAction, PathLockState.run, lockStepped] using ih rest
    | lock action =>
      obtain ⟨-, lock, lockStepped, rfl⟩ := System.step_lock stepped
      simpa [lockAction, PathLockState.run, lockStepped] using ih rest
    | request task answered =>
      obtain ⟨_, _, _, _, _, _, _, rfl⟩ := System.step_request stepped
      have lockRun := ih rest
      exact lockRun
    | land index =>
      obtain ⟨_, _, rfl⟩ := System.step_land stepped
      have lockRun := ih rest
      exact lockRun

private theorem uncancelled_lock {bucket : Bucket} {actions : List SystemAction} {s : System}
    (ran : (System.start bucket).run actions = some s)
    (uncancelled : ∀ task, SystemAction.lock (.cancel task) ∉ actions) :
    s.lock.ReachableUncancelled := by
  refine ⟨actions.filterMap lockAction, fun action mem task cancel => ?_, run_lock ran⟩
  obtain ⟨original, memOriginal, mapped⟩ := List.mem_filterMap.mp mem
  subst cancel
  cases original with
  | lock action =>
    simp only [lockAction, Option.some.injEq] at mapped
    exact uncancelled task (mapped ▸ memOriginal)
  | _ => simp [lockAction] at mapped

/-! ## A call run to its end -/

private theorem set_of_getElem? {α : Type} {l : List α} {i : Nat} {a : α} (found : l[i]? = some a) :
    l.set i a = l := by
  refine List.ext_getElem? fun j => ?_
  by_cases same : i = j
  · subst same
    rw [List.getElem?_set_self (List.getElem?_eq_some_iff.mp found).1, found]
  · exact List.getElem?_set_ne same

private theorem calls_of_done {task : TaskId} {s : System} {call : Call} {outcome : Outcome} {fuel : Nat}
    {result : Outcome × Bucket} (foundCall : s.calls[task]? = some call)
    (prog : call.prog = .done outcome) (ran : exec fuel s.bucket call.prog = some result) :
    s.calls = s.calls.set task { call with prog := .done result.1 } := by
  rw [prog, exec_done, Option.some.injEq] at ran
  subst ran
  show s.calls = s.calls.set task { call with prog := .done outcome }
  rw [← prog]
  exact (set_of_getElem? foundCall).symm

private theorem run_requests {task : TaskId} {scope : Scope} (fuel : Nat) {s : System} {call : Call}
    {result : Outcome × Bucket} (foundScope : s.lock.scopes[task]? = some scope)
    (body : scope.stage = .body) (foundCall : s.calls[task]? = some call)
    (ran : exec fuel s.bucket call.prog = some result) :
    ∃ n s', s.run (List.replicate n (.request task true)) = some s' ∧ s'.lock = s.lock ∧
      s'.calls = s.calls.set task { call with prog := .done result.1 } := by
  induction fuel generalizing s call with
  | zero =>
    cases prog : call.prog with
    | done => exact ⟨0, s, rfl, rfl, calls_of_done foundCall prog ran⟩
    | send | listLater => simp [prog, exec] at ran
  | succ fuel ih =>
    cases sends : call.prog.request with
    | none =>
      cases prog : call.prog with
      | done => exact ⟨0, s, rfl, rfl, calls_of_done foundCall prog ran⟩
      | send | listLater => simp [prog, Prog.request] at sends
    | some request =>
      rw [exec_step sends] at ran
      have stepped : s.step (.request task true) = some (s.send task call request true) := by
        simp [System.step, foundScope, body, foundCall, sends]
      obtain ⟨n, s', rest, lock, calls⟩ := @ih (s.send task call request true)
        { call with prog := call.prog.answer (serve s.bucket request).1 } foundScope
        (by simpa [respond] using System.calls_send request true foundCall task) ran
      refine ⟨n + 1, s', ?_, lock, ?_⟩
      · rw [List.replicate_succ, System.run, stepped]
        exact rest
      · rw [calls]
        exact List.set_set _ _ _ _

/-! ## A call that has left its body -/

private theorem left_step {s s' : System} (locked : Locked s) {action : SystemAction}
    (stepped : s.step action = some s') {task : TaskId} (left : Left s task) :
    Left s' task ∧ s'.calls[task]? = s.calls[task]? := by
  obtain ⟨scope, found, reached, notBody⟩ := left
  cases action with
  | call action =>
    obtain ⟨lock, lockStepped, rfl⟩ := System.step_call stepped
    have lt := locked.lt_of_scope found
    refine ⟨⟨scope, ?_, reached, notBody⟩, List.getElem?_append_left lt⟩
    rw [System.scopes_call lockStepped, List.getElem?_append_left (locked.length ▸ lt), found]
  | lock action =>
    obtain ⟨-, lock, lockStepped, rfl⟩ := System.step_lock stepped
    obtain ⟨scope', found', -, -, moves⟩ := scope_step lockStepped found
    refine ⟨⟨scope', found', moves.2 reached, fun body => ?_⟩, rfl⟩
    rcases moves.1 body with body | ⟨_, entering⟩
    · exact notBody body
    · simp [entering, reachedBody] at reached
  | request other answered =>
    obtain ⟨scope', call, request, foundScope, body, foundCall, -, rfl⟩ :=
      System.step_request stepped
    have distinct : task ≠ other := fun same => by
      subst same
      rw [Option.some.inj (found.symm.trans foundScope)] at notBody
      exact notBody body
    exact ⟨⟨scope, found, reached, notBody⟩,
      by simp [System.calls_send request answered foundCall, distinct]⟩
  | land index =>
    obtain ⟨_, _, rfl⟩ := System.step_land stepped
    exact ⟨⟨scope, found, reached, notBody⟩, rfl⟩

private theorem left_run {s s' : System} (blocks : Blocks s) {actions : List SystemAction}
    (ran : s.run actions = some s') {task : TaskId} (left : Left s task) :
    s'.calls[task]? = s.calls[task]? := by
  induction actions generalizing s with
  | nil =>
    obtain rfl := Option.some.inj ran
    rfl
  | cons action actions ih =>
    obtain ⟨next, stepped, rest⟩ := Option.bind_eq_some.mp ran
    obtain ⟨left', calls⟩ := left_step blocks.locked stepped left
    exact (ih (blocks.step stepped) rest left').trans calls

private theorem left_iff_of_set {s s' : System} {task other : TaskId} {scope : Scope}
    (scopes : s'.lock.scopes = s.lock.scopes.set task scope) (distinct : other ≠ task) :
    Left s' other ↔ Left s other := by
  simp only [Left, scopes, List.getElem?_set_ne (Ne.symm distinct)]

private theorem not_left_of_before {s s' : PathLockState} {task : TaskId} {action : PathAction}
    {scope : Scope} (own : action ∈ [PathAction.enter task, .resume task, .exit task, .release task])
    (found : s.scopes[task]? = some scope) (before : reachedBody scope.stage = false)
    (stepped : s.step action = some s') :
    ∃ scope', s'.scopes[task]? = some scope' ∧
      (scope'.stage = .body ∨ reachedBody scope'.stage = false) := by
  obtain ⟨writeTo, readFrom, stage⟩ := scope
  simp only [List.mem_cons, List.mem_singleton, List.not_mem_nil, or_false] at own
  cases stage <;> simp only [reachedBody, Bool.true_eq_false] at before <;>
    rcases own with rfl | rfl | rfl | rfl <;> simp only [PathLockState.step, found] at stepped
  -- entering its next lock, or its body
  case entering.inl k =>
    split at stepped
    · cases stepped
      exact ⟨_, PathLockState.getElem?_withStage found _ task |>.trans (if_pos rfl), .inl rfl⟩
    · obtain ⟨next, lockStepped, rfl⟩ := Option.map_eq_some'.mp stepped
      obtain ⟨_, _, rfl⟩ := PathLockState.onLock_eq_some lockStepped
      refine ⟨_, (PathLockState.getElem?_withStage found _ task).trans (if_pos rfl), .inr ?_⟩
      split <;> rfl
  -- waking with the lock granted
  case acquiring.inr.inl k =>
    split at stepped
    · obtain ⟨next, lockStepped, rfl⟩ := Option.map_eq_some'.mp stepped
      obtain ⟨_, _, rfl⟩ := PathLockState.onLock_eq_some lockStepped
      exact ⟨_, (PathLockState.getElem?_withStage found _ task).trans (if_pos rfl), .inr rfl⟩
    · cases stepped
  all_goals cases stepped

/-! ## Every run can be completed -/

/-- The steps the tasks take to finish: S3 answers a request of a task, or a task enters a lock,
wakes with it, leaves its body or releases a lock. -/
def ownSteps (task : TaskId) : List SystemAction :=
  [.request task true, .lock (.enter task), .lock (.resume task), .lock (.exit task),
    .lock (.release task)]

/-- From a calm path lock, the tasks' own steps finish every scope and every call not yet out of
its body: a task in its body first runs its call to the end. -/
theorem drain_system : ∀ (left : Nat) {s : System}, work s.lock.scopes = left → Blocks s →
    (∀ path, (s.lock.locks path).Calm) →
    ∃ more : List SystemAction, (∀ action ∈ more, ∃ task, action ∈ ownSteps task) ∧
      ∃ s', s.run more = some s' ∧ (∀ scope ∈ s'.lock.scopes, scope.stage = .done) ∧
        ∀ task, task < s.calls.length → ¬ Left s task →
          ∃ call, s'.calls[task]? = some call ∧ ended call.prog := by
  intro left
  induction left using Nat.strong_induction_on with
  | _ left ih =>
    intro s total blocks calm
    have locked := blocks.locked
    by_cases finished : ∀ scope ∈ s.lock.scopes, scope.stage = .done
    · -- every task has finished, so has left its body
      refine ⟨[], by simp, s, rfl, finished, fun task lt notLeft => absurd ?_ notLeft⟩
      have found := List.getElem?_eq_getElem (locked.length ▸ lt)
      have done := finished _ (List.getElem_mem (locked.length ▸ lt))
      exact ⟨_, found, by simp [done, reachedBody], by simp [done]⟩
    push_neg at finished
    obtain ⟨task, scope, found, unfinished, notWaiting⟩ := exists_not_waiting locked.lock calm finished
    by_cases body : scope.stage = .body
    · -- the task runs its call to the end, then leaves its body
      obtain ⟨call, foundCall⟩ : ∃ call, s.calls[task]? = some call :=
        ⟨_, List.getElem?_eq_getElem (locked.lt_of_scope found)⟩
      obtain ⟨fuel, result, ends⟩ := exec_ends s.bucket call.prog
      obtain ⟨n, s1, requests, lock1, calls1⟩ := run_requests fuel found body foundCall ends
      obtain ⟨writeTo, readFrom, stage⟩ := scope
      subst body
      generalize exiting : s.lock.withStage task ⟨writeTo, readFrom, .body⟩
        (.exiting (pathLockEntries writeTo readFrom).length) = lock'
      have lockStepped : s.lock.step (.exit task) = some lock' := by
        rw [← exiting]
        simp [PathLockState.step, found]
      obtain ⟨scope', stage', found', scopes, lower⟩ := remaining_step
        (show PathAction.exit task ∈ [.enter task, .resume task, .exit task, .release task] by simp)
        lockStepped
      have fewer : work lock'.scopes < left := by
        rw [← total, scopes]
        exact work_set_lt found' lower
      have exited : s1.step (.lock (.exit task)) = some { s1 with lock := lock' } := by
        simp only [System.step, lock1, lockStepped, Option.map_some']
      have blocks2 := (blocks.run requests).step exited
      obtain ⟨more, steps, s', ran, done, ended'⟩ :=
        ih _ fewer rfl blocks2 (calm_step calm lockStepped (by simp))
      refine ⟨List.replicate n (.request task true) ++ .lock (.exit task) :: more, ?_, s',
        by rw [System.run_append, requests]; simp [System.run, exited, ran], done,
        fun other lt notLeft => ?_⟩
      · intro action mem
        rcases List.mem_append.mp mem with request | rest
        · exact ⟨task, by simp [List.eq_of_mem_replicate request, ownSteps]⟩
        · rcases List.mem_cons.mp rest with rfl | later
          · exact ⟨task, by simp [ownSteps]⟩
          · exact steps action later
      · by_cases same : other = task
        · -- out of its body now, with its call ended
          subst same
          have foundNow : lock'.scopes[other]? =
              some ⟨writeTo, readFrom, .exiting (pathLockEntries writeTo readFrom).length⟩ := by
            rw [← exiting]
            exact (PathLockState.getElem?_withStage found _ other).trans (if_pos rfl)
          have leftNow : Left { s1 with lock := lock' } other := ⟨_, foundNow, rfl, nofun⟩
          refine ⟨{ call with prog := .done result.1 }, (left_run blocks2 ran leftNow).trans ?_, rfl⟩
          simp [calls1, List.getElem?_set_self (locked.lt_of_scope found)]
        · exact ended' other (by simpa [calls1] using lt)
            ((left_iff_of_set scopes same).not.mpr notLeft)
    · -- a step on the lock
      obtain ⟨action, own, lock', lockStepped⟩ := can_step locked.lock calm found unfinished notWaiting
      have stepped : s.step (.lock action) = some { s with lock := lock' } := by
        simp only [List.mem_cons, List.mem_singleton, List.not_mem_nil, or_false] at own
        rcases own with rfl | rfl | rfl | rfl <;> simp [System.step, lockStepped]
      obtain ⟨scope', stage', found', scopes, lower⟩ := remaining_step own lockStepped
      have uncancelled : ∀ task', action ≠ .cancel task' := by
        rintro task' rfl
        simp at own
      obtain ⟨more, steps, s', ran, done, ended'⟩ := ih _ (total ▸ scopes ▸ work_set_lt found' lower)
        rfl (blocks.step stepped) (calm_step calm lockStepped uncancelled)
      refine ⟨.lock action :: more, ?_, s', by simp [System.run, stepped, ran], done,
        fun other lt notLeft => ended' other lt fun leftNow => notLeft ?_⟩
      · rintro other (_ | ⟨_, later⟩)
        · simp only [List.mem_cons, List.mem_singleton, List.not_mem_nil, or_false] at own
          exact ⟨task, by rcases own with rfl | rfl | rfl | rfl <;> simp [ownSteps]⟩
        · exact steps other later
      · by_cases same : other = task
        · -- before its body, the task's own step keeps it short of leaving
          subst same
          by_contra notLeftBefore
          have before : reachedBody scope.stage = false := by
            cases reached : reachedBody scope.stage
            · rfl
            · exact absurd ⟨scope, found, reached, body⟩ notLeftBefore
          obtain ⟨scope'', found'', short⟩ := not_left_of_before own found before lockStepped
          obtain ⟨_, foundNow, reachedNow, notBodyNow⟩ := leftNow
          rw [found'', Option.some.injEq] at foundNow
          subst foundNow
          rcases short with bodyNow | notReached
          · exact notBodyNow bodyNow
          · simp [notReached] at reachedNow
        · exact (left_iff_of_set scopes same).mp leftNow

/-- The calls never hang: after every run without cancellation, the tasks' own steps alone finish
every scope, free every lock and end every call that had not left its body. -/
theorem calls_complete {bucket : Bucket} {actions : List SystemAction} {s : System}
    (ran : (System.start bucket).run actions = some s)
    (uncancelled : ∀ task, SystemAction.lock (.cancel task) ∉ actions) :
    ∃ more : List SystemAction, (∀ action ∈ more, ∃ task, action ∈ ownSteps task) ∧
      ∃ s', s.run more = some s' ∧ (∀ scope ∈ s'.lock.scopes, scope.stage = .done) ∧
        (∀ path, (s'.lock.locks path).lock.Free) ∧
        ∀ task, task < s.calls.length → ¬ Left s task →
          ∃ call, s'.calls[task]? = some call ∧ ended call.prog := by
  obtain ⟨-, calm⟩ := invariant_calm (uncancelled_lock ran uncancelled)
  obtain ⟨more, steps, s', ranMore, done, ended'⟩ :=
    drain_system _ rfl ((blocks_start bucket).run ran) calm
  have reachable : s'.lock.ReachableUncancelled := by
    refine uncancelled_lock (by rw [System.run_append, ran]; exact ranMore) fun task mem => ?_
    rcases List.mem_append.mp mem with old | new
    · exact uncancelled task old
    · obtain ⟨_, own⟩ := steps _ new
      simp [ownSteps] at own
  exact ⟨more, steps, s', ranMore, done, free_of_finished reachable done, ended'⟩

/-- `mkdir a` in its body with one request answered, and `mkdir a/b` waiting at the lock of
`a`. -/
def midNestedMkdirs : List SystemAction := Exclusion.nestedMkdirs.take 8

theorem midNestedMkdirs_complete :
    ∃ s, (System.start Bucket.empty).run midNestedMkdirs = some s ∧
      (∀ task, SystemAction.lock (.cancel task) ∉ midNestedMkdirs) ∧
      ∃ more : List SystemAction, (∀ action ∈ more, ∃ task, action ∈ ownSteps task) ∧
        ∃ s', s.run more = some s' ∧ (∀ scope ∈ s'.lock.scopes, scope.stage = .done) ∧
          (∀ path, (s'.lock.locks path).lock.Free) ∧
          ∀ task, task < s.calls.length → ¬ Left s task →
            ∃ call, s'.calls[task]? = some call ∧ ended call.prog :=
  ⟨_, rfl, by simp [midNestedMkdirs, Exclusion.nestedMkdirs],
    @calls_complete Bucket.empty midNestedMkdirs _ rfl
      (by simp [midNestedMkdirs, Exclusion.nestedMkdirs])⟩

end AioftpS3.Bucket.Progress

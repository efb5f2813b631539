import AioftpS3.Bucket.Exec
import AioftpS3.Lock.Safety

/-!
The calls the FTP frontend makes on one bucket at once, under one `_PathLock`: each call is a
task that sends the requests of its program from the body of `lock(write_to=[path],
read_from=[])`, and the tasks interleave at every step of the lock and between any two requests.
A task may leave its body at any point, by an exception or a cancellation. A request its task
got no answer to, by an error status or by an error or cancellation while it waited, stays in
flight: S3 may still serve it at any later step, after the task has released its locks. Over
the runs in which S3 serves no request so late, the path lock makes the calls serializable, and
when S3 answers every request and every call has ended, linearizable against `Facade.step`.
-/

set_option autoImplicit false
set_option relaxedAutoImplicit false

namespace AioftpS3.Bucket.Concurrent

open AioftpS3.PosixPath AioftpS3.Bucket.S3 AioftpS3.Bucket.Requests AioftpS3.Lock.Queue
  AioftpS3.Lock.Acquire AioftpS3.Lock.Scopes
open AioftpS3.Bucket.Facade (FacadeAction)

/-! ## What the lock does to a scope -/

/-- The scope has reached its body: it is in it, or has left it. -/
def reachedBody : ScopeStage → Bool
  | .body | .exiting _ | .done => true
  | _ => false

/-- How a lock step may move a scope: into its body only from entering its locks, and never
back from its body. -/
def Moves (stage stage' : ScopeStage) : Prop :=
  (stage' = .body → stage = .body ∨ ∃ entered, stage = .entering entered) ∧
    (reachedBody stage → reachedBody stage')

private theorem onLock_scopes {s s' : PathLockState} {path : PurePosixPath} {action : LockAction}
    (stepped : s.onLock path action = some s') : s'.scopes = s.scopes := by
  obtain ⟨_, _, rfl⟩ := PathLockState.onLock_eq_some stepped
  rfl

private theorem withStage_scopes (s : PathLockState) (task : TaskId) (scope : Scope) (stage : ScopeStage) :
    (s.withStage task scope stage).scopes = s.scopes.set task { scope with stage } := rfl

private theorem scopes_step {s s' : PathLockState} {action : PathAction}
    (stepped : s.step action = some s') :
    s'.scopes = s.scopes ∨
      (∃ writeTo readFrom, action = .call writeTo readFrom ∧
        s'.scopes = s.scopes ++ [⟨writeTo, readFrom, .entering 0⟩]) ∨
      ∃ task scope stage, s.scopes[task]? = some scope ∧
        s'.scopes = s.scopes.set task { scope with stage } ∧ Moves scope.stage stage := by
  have moved : ∀ {task scope stage} {next : PathLockState}, s.scopes[task]? = some scope →
      next.scopes = s.scopes → Moves scope.stage stage →
      (next.withStage task scope stage).scopes = s.scopes.set task { scope with stage } ∧
        Moves scope.stage stage := fun _ same moves => ⟨by rw [withStage_scopes, same], moves⟩
  cases action <;> simp only [PathLockState.step] at stepped
  case call writeTo readFrom =>
    cases stepped
    exact .inr (.inl ⟨_, _, rfl, rfl⟩)
  case collect path =>
    split at stepped <;> cases stepped
    exact .inl rfl
  case cancel task =>
    split at stepped
    · split at stepped
      · exact .inl (onLock_scopes stepped)
      · cases stepped
    · cases stepped
  case enter task =>
    split at stepped
    · rename_i found
      split at stepped
      · cases stepped
        exact .inr (.inr ⟨task, _, _, found, rfl, fun _ => .inr ⟨_, rfl⟩, by simp [reachedBody]⟩)
      · obtain ⟨next, lockStepped, rfl⟩ := Option.map_eq_some'.mp stepped
        exact .inr (.inr ⟨task, _, _, found, moved found (onLock_scopes lockStepped)
          ⟨by split <;> simp, by simp [reachedBody]⟩⟩)
    · cases stepped
  case resume task | unwind task =>
    split at stepped
    · rename_i found
      split at stepped
      · obtain ⟨next, lockStepped, rfl⟩ := Option.map_eq_some'.mp stepped
        exact .inr (.inr ⟨task, _, _, found, moved found (onLock_scopes lockStepped)
          ⟨by simp, by simp [reachedBody]⟩⟩)
      · cases stepped
    · cases stepped
  case exit task =>
    split at stepped
    · rename_i found
      cases stepped
      exact .inr (.inr ⟨task, _, _, found, rfl, by simp, by simp [reachedBody]⟩)
    · cases stepped
  case release task =>
    split at stepped
    · rename_i found
      cases stepped
      exact .inr (.inr ⟨task, _, _, found, rfl, by simp, by simp [reachedBody]⟩)
    · rename_i found
      split at stepped
      · obtain ⟨next, lockStepped, rfl⟩ := Option.map_eq_some'.mp stepped
        exact .inr (.inr ⟨task, _, _, found, moved found (onLock_scopes lockStepped)
          ⟨by simp, by simp [reachedBody]⟩⟩)
      · cases stepped
    · cases stepped

theorem Moves.refl (stage : ScopeStage) : Moves stage stage := ⟨.inl, id⟩

/-- What a lock step does to the scope of one task: it keeps its paths, moves it into its body
only from entering its locks, and never back from its body. -/
theorem scope_step {s s' : PathLockState} {action : PathAction}
    (stepped : s.step action = some s') {task : TaskId} {scope : Scope}
    (found : s.scopes[task]? = some scope) :
    ∃ scope', s'.scopes[task]? = some scope' ∧ scope'.writeTo = scope.writeTo ∧
      scope'.readFrom = scope.readFrom ∧ Moves scope.stage scope'.stage := by
  have lt := (List.getElem?_eq_some_iff.mp found).1
  rcases scopes_step stepped with same | ⟨_, _, -, added⟩ |
    ⟨moved, old, stage, foundOld, setScopes, moves⟩
  · exact ⟨scope, same ▸ found, rfl, rfl, .refl _⟩
  · exact ⟨scope, by rw [added, List.getElem?_append_left lt, found], rfl, rfl, .refl _⟩
  · by_cases same : moved = task
    · subst same
      obtain rfl := Option.some.inj (foundOld.symm.trans found)
      exact ⟨{ old with stage }, by rw [setScopes, List.getElem?_set_self lt], rfl, rfl, moves⟩
    · exact ⟨scope, by rw [setScopes, List.getElem?_set_ne same, found], rfl, rfl, .refl _⟩

private theorem length_scopes_step {s s' : PathLockState} {action : PathAction}
    (stepped : s.step action = some s') (notCall : ∀ writeTo readFrom, action ≠ .call writeTo readFrom) :
    s'.scopes.length = s.scopes.length := by
  rcases scopes_step stepped with same | ⟨writeTo, readFrom, call, -⟩ |
    ⟨_, _, _, _, setScopes, _⟩
  · rw [same]
  · exact absurd call (notCall writeTo readFrom)
  · rw [setScopes, List.length_set]

private theorem getElem?_concat_eq_some {α : Type} {l : List α} {a x : α} {i : Nat}
    (found : (l ++ [a])[i]? = some x) : l[i]? = some x ∨ i = l.length ∧ x = a := by
  by_cases lt : i < l.length
  · exact .inl (List.getElem?_append_left lt ▸ found)
  · rw [List.getElem?_append_right (Nat.le_of_not_lt lt)] at found
    obtain ⟨within, rfl⟩ := List.getElem?_eq_some_iff.mp found
    exact .inr ⟨by simp at within; omega, by simp⟩

/-! ## The calls on the bucket -/

/-- A call of the frontend: what it was called for, and where its program is. -/
structure Call where
  action : FacadeAction
  prog : Prog

/-- A request a task sent, with the answer it got. -/
structure Sent where
  task : TaskId
  request : Request
  response : Response
deriving DecidableEq

/-- The request and its answer. -/
def Sent.exchange (sent : Sent) : Request × Response := (sent.request, sent.response)

/-- The calls under one `_PathLock`: the lock with a scope for each task, the bucket, the call of
each task, the requests sent so far, in order, and the requests in flight, which S3 may still
serve. -/
structure System where
  lock : PathLockState
  bucket : Bucket
  calls : List Call
  sent : List Sent
  inFlight : List Request

/-- The steps of the tasks. -/
inductive SystemAction
  /-- A task calls `S3PathIO.mkdir`, `rmdir` or `unlink`, or a write session's `end` reaches
  `async with lock(write_to=[path], read_from=[])`. -/
  | call (action : FacadeAction)
  /-- A step of the tasks on the path lock, other than a new call. -/
  | lock (action : PathAction)
  /-- A task in the body of its scope sends the next request of its call; S3 answers it, or the
  task gets no answer and the request stays in flight. -/
  | request (task : TaskId) (answered : Bool)
  /-- S3 serves a request in flight, whose task has gone on without its answer. -/
  | land (index : Nat)

/-- S3's answer to a request and the bucket it leaves; with no answer, an error status to the task
and the bucket as it is. -/
def respond (bucket : Bucket) (request : Request) (answered : Bool) : Response × Bucket :=
  if answered then serve bucket request else (.failed, bucket)

namespace System

/-- No call yet, on a bucket as it is. -/
def start (bucket : Bucket) : System := ⟨PathLockState.init, bucket, [], [], []⟩

/-- The task of `call` sends `request` and gets S3's answer, or none, leaving the request in
flight. -/
def send (s : System) (task : TaskId) (call : Call) (request : Request) (answered : Bool) :
    System :=
  { s with
    bucket := (respond s.bucket request answered).2
    calls := s.calls.set task
      { call with prog := call.prog.answer (respond s.bucket request answered).1 }
    sent := s.sent ++ [⟨task, request, (respond s.bucket request answered).1⟩]
    inFlight := if answered then s.inFlight else s.inFlight ++ [request] }

/-- One step; `none` when the action is not possible. -/
def step (s : System) : SystemAction → Option System
  | .call action =>
    (s.lock.step (.call [callPath action] [])).map fun lock =>
      { s with lock, calls := s.calls ++ [⟨action, callProg action⟩] }
  | .lock action =>
    match action with
    | .call _ _ => none
    | action => (s.lock.step action).map fun lock => { s with lock }
  | .request task answered =>
    match s.lock.scopes[task]?, s.calls[task]? with
    | some scope, some call =>
      if scope.stage = .body then call.prog.request.map (s.send task call · answered) else none
    | _, _ => none
  | .land index =>
    s.inFlight[index]?.map fun request =>
      { s with bucket := (serve s.bucket request).2, inFlight := s.inFlight.eraseIdx index }

/-- A run of actions from `s`. -/
def run (s : System) : List SystemAction → Option System
  | [] => some s
  | action :: actions => (s.step action).bind (·.run actions)

theorem run_append (s : System) (first rest : List SystemAction) :
    s.run (first ++ rest) = (s.run first).bind (·.run rest) := by
  induction first generalizing s with
  | nil => rfl
  | cons action first ih =>
    simp only [List.cons_append, run]
    cases s.step action <;> simp [ih]

/-- The requests `task` sent, with their answers, in order. -/
def history (s : System) (task : TaskId) : List Sent := s.sent.filter (·.task = task)

/-- The log regrouped by task: the requests of each task of `order` in turn. -/
def regrouped (s : System) (order : List TaskId) : List Sent := order.flatMap s.history

/-- The path the call of `task` locks for writing. -/
def pathOf (s : System) (task : TaskId) : Option PurePosixPath :=
  s.calls[task]?.map (callPath ·.action)

/-- The task is in the body of its scope. -/
def InBody (s : System) (task : TaskId) : Prop :=
  ∃ scope, s.lock.scopes[task]? = some scope ∧ scope.stage = .body

/-- The calls of the two tasks are on paths apart. -/
def TasksApart (s : System) (task other : TaskId) : Prop :=
  ∃ path path', s.pathOf task = some path ∧ s.pathOf other = some path' ∧ Apart path path'

/-! ### What each step does -/

theorem step_call {s s' : System} {action : FacadeAction}
    (stepped : s.step (.call action) = some s') :
    ∃ lock, s.lock.step (.call [callPath action] []) = some lock ∧
      s' = { s with lock, calls := s.calls ++ [⟨action, callProg action⟩] } := by
  simp only [step] at stepped
  obtain ⟨lock, lockStepped, rfl⟩ := Option.map_eq_some'.mp stepped
  exact ⟨lock, lockStepped, rfl⟩

/-- A new call adds its scope after the others. -/
theorem scopes_call {s : System} {action : FacadeAction} {lock : PathLockState}
    (lockStepped : s.lock.step (.call [callPath action] []) = some lock) :
    lock.scopes = s.lock.scopes ++ [⟨[callPath action], [], .entering 0⟩] := by
  cases lockStepped
  rfl

theorem step_lock {s s' : System} {action : PathAction}
    (stepped : s.step (.lock action) = some s') :
    (∀ writeTo readFrom, action ≠ .call writeTo readFrom) ∧
      ∃ lock, s.lock.step action = some lock ∧ s' = { s with lock } := by
  cases action <;> simp only [step] at stepped <;> first
    | cases stepped
    | obtain ⟨lock, lockStepped, rfl⟩ := Option.map_eq_some'.mp stepped
      exact ⟨nofun, lock, lockStepped, rfl⟩

theorem step_request {s s' : System} {task : TaskId} {answered : Bool}
    (stepped : s.step (.request task answered) = some s') :
    ∃ scope call request, s.lock.scopes[task]? = some scope ∧ scope.stage = .body ∧
      s.calls[task]? = some call ∧ call.prog.request = some request ∧
      s' = s.send task call request answered := by
  simp only [step] at stepped
  split at stepped
  · rename_i scope call foundScope foundCall
    split at stepped
    · obtain ⟨request, sends, rfl⟩ := Option.map_eq_some'.mp stepped
      exact ⟨scope, call, request, foundScope, ‹_›, foundCall, sends, rfl⟩
    · cases stepped
  · cases stepped

theorem step_land {s s' : System} {index : Nat} (stepped : s.step (.land index) = some s') :
    ∃ request, s.inFlight[index]? = some request ∧
      s' = { s with bucket := (serve s.bucket request).2, inFlight := s.inFlight.eraseIdx index } :=
  let ⟨request, found, landed⟩ := Option.map_eq_some'.mp stepped
  ⟨request, found, landed.symm⟩

private theorem lt_of_pathOf {s : System} {task : TaskId} {path : PurePosixPath}
    (found : s.pathOf task = some path) : task < s.calls.length :=
  let ⟨_, foundCall, _⟩ := Option.map_eq_some'.mp found
  (List.getElem?_eq_some_iff.mp foundCall).1

/-- A new call keeps the call of every task there was. -/
theorem pathOf_call {s : System} {task : TaskId} (lock : PathLockState) (call : Call)
    (lt : task < s.calls.length) :
    ({ s with lock, calls := s.calls ++ [call] } : System).pathOf task = s.pathOf task :=
  congrArg (Option.map _) (List.getElem?_append_left lt)

/-! ### What a request changes -/

section Send

variable (s : System) {task : TaskId} {call : Call} (request : Request) (answered : Bool)

private theorem history_send_self :
    (s.send task call request answered).history task =
      s.history task ++ [⟨task, request, (respond s.bucket request answered).1⟩] := by
  simp [history, send, List.filter_append]

private theorem history_send_ne {other : TaskId} (distinct : other ≠ task) :
    (s.send task call request answered).history other = s.history other := by
  simp [history, send, List.filter_append, Ne.symm distinct]

variable {s}

theorem calls_send (found : s.calls[task]? = some call) (other : TaskId) :
    (s.send task call request answered).calls[other]? =
      if other = task
      then some { call with prog := call.prog.answer (respond s.bucket request answered).1 }
      else s.calls[other]? := by
  have lt := (List.getElem?_eq_some_iff.mp found).1
  by_cases same : other = task
  · subst same
    simp [send, List.getElem?_set_self lt]
  · simp [send, same, List.getElem?_set_ne (Ne.symm same)]

theorem pathOf_send (found : s.calls[task]? = some call) (other : TaskId) :
    (s.send task call request answered).pathOf other = s.pathOf other := by
  by_cases same : other = task
  · subst same
    simp [pathOf, calls_send request answered found, found]
  · simp [pathOf, calls_send request answered found, same]

end Send

private theorem sent_prefix_step {s s' : System} {action : SystemAction}
    (stepped : s.step action = some s') : s.sent <+: s'.sent := by
  cases action with
  | call action =>
    obtain ⟨_, _, rfl⟩ := step_call stepped
    exact List.prefix_refl _
  | lock action =>
    obtain ⟨_, _, _, rfl⟩ := step_lock stepped
    exact List.prefix_refl _
  | request task answered =>
    obtain ⟨_, _, _, _, _, _, _, rfl⟩ := step_request stepped
    exact List.prefix_append _ _
  | land index =>
    obtain ⟨_, _, rfl⟩ := step_land stepped
    exact List.prefix_refl _

private theorem sent_prefix_run {s s' : System} {actions : List SystemAction}
    (ran : s.run actions = some s') : s.sent <+: s'.sent := by
  induction actions generalizing s with
  | nil => exact Option.some.inj ran ▸ List.prefix_refl _
  | cons action actions ih =>
    obtain ⟨next, stepped, rest⟩ := Option.bind_eq_some.mp ran
    exact (sent_prefix_step stepped).trans (ih rest)

private theorem inFlight_step {s s' : System} {action : SystemAction} (stepped : s.step action = some s')
    (held : s.inFlight = [] ∨ ∃ sent ∈ s.sent, sent.response = .failed) :
    s'.inFlight = [] ∨ ∃ sent ∈ s'.sent, sent.response = .failed := by
  cases action with
  | call action =>
    obtain ⟨_, _, rfl⟩ := step_call stepped
    exact held
  | lock action =>
    obtain ⟨_, _, _, rfl⟩ := step_lock stepped
    exact held
  | request task answered =>
    obtain ⟨_, _, request, _, _, _, _, rfl⟩ := step_request stepped
    cases answered
    · exact .inr ⟨_, List.mem_append_right _ (List.mem_singleton_self _), rfl⟩
    · exact held.imp id fun ⟨sent, mem, failed⟩ => ⟨sent, List.mem_append_left _ mem, failed⟩
  | land index =>
    obtain ⟨_, found, rfl⟩ := step_land stepped
    exact .inr (held.resolve_left fun empty => by simp [empty] at found)

private theorem inFlight_run {s s' : System} {actions : List SystemAction} (ran : s.run actions = some s')
    (held : s.inFlight = [] ∨ ∃ sent ∈ s.sent, sent.response = .failed) :
    s'.inFlight = [] ∨ ∃ sent ∈ s'.sent, sent.response = .failed := by
  induction actions generalizing s with
  | nil => exact Option.some.inj ran ▸ held
  | cons action actions ih =>
    obtain ⟨next, stepped, rest⟩ := Option.bind_eq_some.mp ran
    exact ih rest (inFlight_step stepped held)

private theorem failed_of_land {bucket : Bucket} {actions : List SystemAction} {s : System}
    (ran : (start bucket).run actions = some s) {index : Nat} (mem : .land index ∈ actions) :
    ∃ sent ∈ s.sent, sent.response = .failed := by
  obtain ⟨before, after, rfl⟩ := List.append_of_mem mem
  rw [run_append] at ran
  obtain ⟨mid, ranBefore, ranAfter⟩ := Option.bind_eq_some.mp ran
  obtain ⟨next, stepped, rest⟩ := Option.bind_eq_some.mp ranAfter
  obtain ⟨_, found, -⟩ := step_land stepped
  obtain ⟨sent, logged, failed⟩ := (inFlight_run ranBefore (.inl rfl)).resolve_left
    fun empty => by simp [empty] at found
  exact ⟨sent, (sent_prefix_run ranAfter).subset logged, failed⟩

end System

private theorem replayOne_respond (bucket : Bucket) (request : Request) (answered : Bool) :
    replayOne bucket (request, (respond bucket request answered).1) =
      some (respond bucket request answered).2 := by
  cases answered
  · simp [replayOne, respond]
  · cases request <;> simp [replayOne, respond, serve]

private theorem fits_respond (bucket : Bucket) (request : Request) (answered : Bool) :
    Fits request (respond bucket request answered).1 := by
  cases answered
  · cases request <;> trivial
  · exact fits_serve bucket request

/-! ## What the lock keeps -/

/-- What the lock keeps of the calls over every run: its invariant, a scope for each call, and
each scope locking its call's path for writing. -/
structure Locked (s : System) : Prop where
  lock : s.lock.Invariant
  length : s.calls.length = s.lock.scopes.length
  scopes : ∀ (task : TaskId) (path : PurePosixPath), s.pathOf task = some path →
    ∃ scope, s.lock.scopes[task]? = some scope ∧ scope.writeTo = [path] ∧ scope.readFrom = []

theorem locked_start (bucket : Bucket) : Locked (System.start bucket) where
  lock := PathLockState.invariant_init
  length := rfl
  scopes _ _ found := by simp [System.start, System.pathOf] at found

namespace Locked

variable {s s' : System}

theorem lt_of_scope (locked : Locked s) {task : TaskId} {scope : Scope}
    (found : s.lock.scopes[task]? = some scope) : task < s.calls.length :=
  locked.length ▸ (List.getElem?_eq_some_iff.mp found).1

private theorem pathOf_of_scope (locked : Locked s) {task : TaskId} {scope : Scope}
    (found : s.lock.scopes[task]? = some scope) : ∃ path, s.pathOf task = some path := by
  have lt := locked.lt_of_scope found
  exact ⟨callPath s.calls[task].action, by simp [System.pathOf, List.getElem?_eq_getElem lt]⟩

/-- The path lock keeps tasks in their bodies apart. -/
theorem tasksApart (locked : Locked s) {task other : TaskId}
    (distinct : task ≠ other) (inTask : s.InBody task) (inOther : s.InBody other) :
    s.TasksApart task other := by
  obtain ⟨scope, foundScope, body⟩ := inTask
  obtain ⟨scope', foundScope', body'⟩ := inOther
  obtain ⟨path, pathFound⟩ := locked.pathOf_of_scope foundScope
  obtain ⟨path', pathFound'⟩ := locked.pathOf_of_scope foundScope'
  obtain ⟨_, found, writeTo, -⟩ := locked.scopes task path pathFound
  rw [foundScope, Option.some.injEq] at found
  subst found
  obtain ⟨_, found', writeTo', -⟩ := locked.scopes other path' pathFound'
  rw [foundScope', Option.some.injEq] at found'
  subst found'
  have written : path ∈ scope.writeTo := by simp [writeTo]
  have written' : path' ∈ scope'.writeTo := by simp [writeTo']
  refine ⟨path, path', pathFound, pathFound', fun covers => ?_⟩
  rcases covers with same | ancestor | ancestor
  · exact Lock.Safety.not_covered locked.lock distinct foundScope foundScope' body body' written
      (by simp [writeTo']) (.inl same)
  · exact Lock.Safety.not_covered locked.lock distinct foundScope foundScope' body body' written
      (by simp [writeTo']) (.inr ancestor)
  · exact Lock.Safety.not_covered locked.lock (Ne.symm distinct) foundScope' foundScope body' body
      written' (by simp [writeTo]) (.inr ancestor)

/-- A new call keeps the scope of every task there was. -/
theorem scope_call (locked : Locked s) {action : FacadeAction} {lock : PathLockState}
    (lockStepped : s.lock.step (.call [callPath action] []) = some lock) {task : TaskId}
    (lt : task < s.calls.length) : lock.scopes[task]? = s.lock.scopes[task]? := by
  rw [System.scopes_call lockStepped, List.getElem?_append_left (locked.length ▸ lt)]

theorem call (locked : Locked s) {action : FacadeAction}
    (stepped : s.step (.call action) = some s') : Locked s' := by
  obtain ⟨lock, lockStepped, rfl⟩ := System.step_call stepped
  refine ⟨locked.lock.step lockStepped, by simp [System.scopes_call lockStepped, locked.length],
    fun task path found => ?_⟩
  obtain ⟨call, foundCall, rfl⟩ := Option.map_eq_some'.mp found
  rcases getElem?_concat_eq_some foundCall with old | ⟨rfl, rfl⟩
  · obtain ⟨scope, foundScope, paths⟩ :=
      locked.scopes task (callPath call.action) (by simp [System.pathOf, old])
    exact ⟨scope, (locked.scope_call lockStepped (List.getElem?_eq_some_iff.mp old).1).trans
      foundScope, paths⟩
  · exact ⟨_, by rw [System.scopes_call lockStepped, locked.length, List.getElem?_concat_length],
      rfl, rfl⟩

theorem lockStep (locked : Locked s) {action : PathAction}
    (stepped : s.step (.lock action) = some s') : Locked s' := by
  obtain ⟨notCall, lock, lockStepped, rfl⟩ := System.step_lock stepped
  refine ⟨locked.lock.step lockStepped,
    by rw [length_scopes_step lockStepped notCall]; exact locked.length, fun task path found => ?_⟩
  obtain ⟨scope, foundScope, writeTo, readFrom⟩ := locked.scopes task path found
  obtain ⟨scope', found', writeTo', readFrom', -⟩ := scope_step lockStepped foundScope
  exact ⟨scope', found', writeTo'.trans writeTo, readFrom'.trans readFrom⟩

theorem request (locked : Locked s) {task : TaskId} {answered : Bool}
    (stepped : s.step (.request task answered) = some s') : Locked s' := by
  obtain ⟨_, call, request, -, -, found, -, rfl⟩ := System.step_request stepped
  exact ⟨locked.lock, by simp [System.send, locked.length], fun other path pathFound =>
    locked.scopes other path (System.pathOf_send request answered found other ▸ pathFound)⟩

theorem land (locked : Locked s) {index : Nat} (stepped : s.step (.land index) = some s') :
    Locked s' := by
  obtain ⟨_, _, rfl⟩ := System.step_land stepped
  exact ⟨locked.lock, locked.length, locked.scopes⟩

end Locked

/-! ## The serial order -/

/-- What every run without a late landing keeps, `order` being the tasks in the order of their
latest request: the log regrouped by task in that order is a permutation of it that, replayed
from `start`, ends in the bucket, and each call is where its own log leads it. -/
structure Serial (start : Bucket) (s : System) (order : List TaskId) : Prop where
  locked : Locked s
  within : ∀ (task : TaskId) (call : Call), s.calls[task]? = some call →
    call.prog.Within (callPath call.action)
  follows : ∀ (task : TaskId) (call : Call), s.calls[task]? = some call →
    (callProg call.action).follow ((s.history task).map Sent.exchange) = some call.prog
  sentWithin : ∀ sent ∈ s.sent, ∃ path, s.pathOf sent.task = some path ∧ sent.request.Within path
  nodup : order.Nodup
  logged : ∀ sent ∈ s.sent, sent.task ∈ order
  entered : ∀ task ∈ order, ∃ scope, s.lock.scopes[task]? = some scope ∧ reachedBody scope.stage
  apart : order.Pairwise fun task other => s.InBody task → s.TasksApart task other
  active : ∀ task ∈ order, ∃ sent ∈ s.sent, sent.task = task
  latest : order.Pairwise fun task other => ∃ before after, s.sent = before ++ after ∧
    (∀ sent ∈ after, sent.task ≠ task) ∧ ∃ sent ∈ after, sent.task = other
  perm : (s.regrouped order).Perm s.sent
  replays : replay start ((s.regrouped order).map Sent.exchange) = some s.bucket

private theorem serial_start (bucket : Bucket) : Serial bucket (System.start bucket) [] where
  locked := locked_start bucket
  within _ _ found := by simp [System.start] at found
  follows _ _ found := by simp [System.start] at found
  sentWithin _ mem := by simp [System.start] at mem
  nodup := List.nodup_nil
  logged _ mem := by simp [System.start] at mem
  entered _ mem := by simp at mem
  apart := List.Pairwise.nil
  active _ mem := nomatch mem
  latest := List.Pairwise.nil
  perm := List.Perm.nil
  replays := rfl

section Serial

variable {start : Bucket} {s : System} {order : List TaskId}

private theorem Serial.lt_of_mem (serial : Serial start s order) {task : TaskId} (mem : task ∈ order) :
    task < s.calls.length :=
  let ⟨_, found, _⟩ := serial.entered task mem
  serial.locked.lt_of_scope found

private theorem Serial.history_eq_nil (serial : Serial start s order) {task : TaskId}
    (notMem : task ∉ order) : s.history task = [] :=
  List.filter_eq_nil_iff.mpr fun sent logged same =>
    notMem ((of_decide_eq_true same) ▸ serial.logged sent logged)

private theorem Serial.moved (serial : Serial start s order) {task : TaskId} (inBody : s.InBody task) :
    ((order.erase task).flatMap s.history ++ s.history task).Perm (s.regrouped order) ∧
      replay start (((order.erase task).flatMap s.history ++ s.history task).map Sent.exchange) =
        some s.bucket := by
  by_cases mem : task ∈ order
  · obtain ⟨before, after, rfl⟩ := List.append_of_mem mem
    have notBefore : task ∉ before := fun found =>
      List.disjoint_of_nodup_append serial.nodup found (List.mem_cons_self _ _)
    have erased : (before ++ task :: after).erase task = before ++ after := by
      rw [List.erase_append_right _ notBefore, List.erase_cons_head]
    have later := (List.pairwise_cons.mp (List.pairwise_append.mp serial.apart).2.1).1
    -- the requests of the task and of the tasks after it are independent
    have independent : ∀ first ∈ (after.flatMap s.history).map Sent.exchange,
        ∀ second ∈ (s.history task).map Sent.exchange, Independent first.1 second.1 := by
      intro first memFirst second memSecond
      obtain ⟨sent, memSent, rfl⟩ := List.mem_map.mp memFirst
      obtain ⟨sent', memSent', rfl⟩ := List.mem_map.mp memSecond
      obtain ⟨other, memOther, logged⟩ := List.mem_flatMap.mp memSent
      obtain ⟨sentMem, sentTask⟩ := List.mem_filter.mp logged
      obtain ⟨sentMem', sentTask'⟩ := List.mem_filter.mp memSent'
      obtain ⟨path, pathFound, within⟩ := serial.sentWithin sent sentMem
      obtain ⟨path', pathFound', within'⟩ := serial.sentWithin sent' sentMem'
      obtain ⟨taskPath, otherPath, taskFound, otherFound, apart⟩ := later other memOther inBody
      rw [of_decide_eq_true sentTask] at pathFound
      rw [of_decide_eq_true sentTask'] at pathFound'
      obtain rfl := Option.some.inj (otherFound.symm.trans pathFound)
      obtain rfl := Option.some.inj (taskFound.symm.trans pathFound')
      exact independent_of_apart apart.symm within within'
    rw [erased]
    constructor
    · simp only [System.regrouped, List.flatMap_append, List.flatMap_cons, List.append_assoc]
      exact List.Perm.append_left _ List.perm_append_comm
    · have replayed := serial.replays
      simp only [System.regrouped, List.flatMap_append, List.flatMap_cons, List.map_append,
        List.append_assoc] at replayed ⊢
      rw [replay_append] at replayed ⊢
      rw [← replayed]
      congr 1
      funext bucket
      exact replay_comm independent bucket
  · rw [List.erase_of_not_mem mem, serial.history_eq_nil mem, List.append_nil]
    exact ⟨List.Perm.refl _, serial.replays⟩

private theorem Serial.call (serial : Serial start s order) {action : FacadeAction} {s' : System}
    (stepped : s.step (.call action) = some s') : Serial start s' order := by
  have locked := serial.locked.call stepped
  obtain ⟨lock, lockStepped, rfl⟩ := System.step_call stepped
  have oldScope : ∀ {task}, task < s.calls.length → lock.scopes[task]? = s.lock.scopes[task]? :=
    serial.locked.scope_call lockStepped
  have oldPath : ∀ {task path}, s.pathOf task = some path →
      ({ s with lock, calls := s.calls ++ [⟨action, callProg action⟩] } : System).pathOf task =
        some path :=
    fun found => (System.pathOf_call lock _ (System.lt_of_pathOf found)).trans found
  refine
    { locked
      within := fun task call found => ?within
      follows := fun task call found => ?follows
      sentWithin := fun sent mem => ?sentWithin
      nodup := serial.nodup
      logged := serial.logged
      entered := fun task mem => ?entered
      apart := serial.apart.imp_of_mem fun memTask memOther apart inBody => ?apart
      active := serial.active
      latest := serial.latest
      perm := serial.perm
      replays := serial.replays }
  case within =>
    rcases getElem?_concat_eq_some found with old | ⟨rfl, rfl⟩
    · exact serial.within task call old
    · exact within_callProg action
  case follows =>
    rcases getElem?_concat_eq_some found with old | ⟨rfl, rfl⟩
    · exact serial.follows task call old
    · have empty : s.history s.calls.length = [] :=
        List.filter_eq_nil_iff.mpr fun sent mem same => by
          obtain ⟨_, found, _⟩ := serial.sentWithin sent mem
          exact absurd (System.lt_of_pathOf found) (by simp [of_decide_eq_true same])
      show (callProg action).follow ((s.history s.calls.length).map Sent.exchange) = _
      rw [empty]
      rfl
  case sentWithin =>
    obtain ⟨path, found, within⟩ := serial.sentWithin sent mem
    exact ⟨path, oldPath found, within⟩
  case entered =>
    obtain ⟨scope, found, reached⟩ := serial.entered task mem
    exact ⟨scope, (oldScope (serial.lt_of_mem mem)).trans found, reached⟩
  case apart =>
    obtain ⟨scope, found, body⟩ := inBody
    obtain ⟨path, path', found, found', apart⟩ :=
      apart ⟨scope, (oldScope (serial.lt_of_mem memTask)).symm.trans found, body⟩
    exact ⟨path, path', oldPath found, oldPath found', apart⟩

private theorem Serial.lockStep (serial : Serial start s order) {action : PathAction} {s' : System}
    (stepped : s.step (.lock action) = some s') : Serial start s' order := by
  obtain ⟨-, lock, lockStepped, rfl⟩ := System.step_lock stepped
  refine
    { serial with
      locked := serial.locked.lockStep stepped
      entered := fun task mem => ?entered
      apart := serial.apart.imp_of_mem fun memTask _ apart inBody => apart ?inBody }
  case entered =>
    obtain ⟨scope, found, reached⟩ := serial.entered task mem
    obtain ⟨scope', found', -, -, moves⟩ := scope_step lockStepped found
    exact ⟨scope', found', moves.2 reached⟩
  case inBody =>
    obtain ⟨scope, found, reached⟩ := serial.entered _ memTask
    obtain ⟨scope', found', -, -, moves⟩ := scope_step lockStepped found
    obtain ⟨_, foundBody, body⟩ := inBody
    obtain rfl := Option.some.inj (found'.symm.trans foundBody)
    rcases moves.1 body with inBody | ⟨entered, entering⟩
    · exact ⟨scope, found, inBody⟩
    · simp [entering, reachedBody] at reached

private theorem Serial.request (serial : Serial start s order) {task : TaskId} {answered : Bool}
    {s' : System} (stepped : s.step (.request task answered) = some s')
    (onePage : ∀ sent ∈ s'.sent, sent.request.FirstPage) :
    Serial start s' (order.erase task ++ [task]) := by
  obtain ⟨scope, call, request, foundScope, body, found, sends, rfl⟩ :=
    System.step_request stepped
  have first : request.FirstPage := onePage _ (List.mem_append_right _ (List.mem_singleton_self _))
  have inBody : s.InBody task := ⟨scope, foundScope, body⟩
  have within := serial.within task call found
  obtain ⟨movedPerm, movedReplays⟩ := serial.moved inBody
  have pathOf := System.pathOf_send request answered found
  have tasksApart : ∀ {task' other}, s.TasksApart task' other →
      (s.send task call request answered).TasksApart task' other := by
    intro task' other apart
    simpa only [System.TasksApart, pathOf] using apart
  have regrouped : (s.send task call request answered).regrouped (order.erase task ++ [task]) =
      ((order.erase task).flatMap s.history ++ s.history task) ++
        [⟨task, request, (respond s.bucket request answered).1⟩] := by
    have kept : ∀ other ∈ order.erase task,
        (s.send task call request answered).history other = s.history other :=
      fun other mem => System.history_send_ne s request answered
        ((serial.nodup.mem_erase_iff.mp mem).1)
    simp only [System.regrouped, List.flatMap_append, List.flatMap_singleton,
      List.flatMap_congr kept, System.history_send_self, List.append_assoc]
  have sent : (s.send task call request answered).sent =
      s.sent ++ [⟨task, request, (respond s.bucket request answered).1⟩] := rfl
  refine
    { locked := serial.locked.request stepped
      within := fun other call' found' => ?within
      follows := fun other call' found' => ?follows
      sentWithin := fun sent mem => ?sentWithin
      nodup := (serial.nodup.erase task).append (List.nodup_singleton task)
        fun other mem same => serial.nodup.not_mem_erase (List.mem_singleton.mp same ▸ mem)
      logged := fun sent mem => ?logged
      entered := fun other mem => ?entered
      apart := List.pairwise_append.mpr ⟨(serial.apart.sublist (List.erase_sublist _ _)).imp
        fun apart inBody => tasksApart (apart inBody), List.pairwise_singleton _ _, ?apart⟩
      active := fun other mem => ?active
      latest := List.pairwise_append.mpr ⟨(serial.latest.sublist (List.erase_sublist _ _)).imp_of_mem
        fun mem _ ⟨before, after, split, done, later⟩ => ⟨before, after ++ [_],
          by rw [sent, split, List.append_assoc], fun sent mem' => ?latestOld, later.imp
            fun _ ⟨mem', same⟩ => ⟨List.mem_append_left _ mem', same⟩⟩,
        List.pairwise_singleton _ _, ?latestNew⟩
      perm := by
        rw [regrouped]
        exact (movedPerm.trans serial.perm).append_right _
      replays := by
        rw [regrouped, List.map_append, replay_append, movedReplays]
        simp [Sent.exchange, replayOne_respond, System.send] }
  case within =>
    rw [System.calls_send request answered found] at found'
    split at found'
    · cases found'
      exact within.answer sends first (fits_respond s.bucket request answered)
    · exact serial.within other call' found'
  case follows =>
    rw [System.calls_send request answered found] at found'
    split at found'
    · subst other
      cases found'
      dsimp only
      rw [System.history_send_self, List.map_append, Prog.follow_append,
        serial.follows task call found]
      simp [Prog.follow, sends, Sent.exchange]
    · rw [System.history_send_ne s request answered ‹_›]
      exact serial.follows other call' found'
  case sentWithin =>
    rcases List.mem_append.mp mem with old | new
    · obtain ⟨path, foundPath, requestWithin⟩ := serial.sentWithin sent old
      exact ⟨path, pathOf _ ▸ foundPath, requestWithin⟩
    · obtain rfl := List.mem_singleton.mp new
      exact ⟨callPath call.action, by rw [pathOf]; simp [System.pathOf, found],
        within.request_within sends first⟩
  case logged =>
    rcases List.mem_append.mp mem with old | new
    · by_cases same : sent.task = task
      · exact List.mem_append_right _ (same ▸ List.mem_singleton_self _)
      · exact List.mem_append_left _ ((List.mem_erase_of_ne same).mpr (serial.logged sent old))
    · obtain rfl := List.mem_singleton.mp new
      exact List.mem_append_right _ (List.mem_singleton_self _)
  case entered =>
    rcases List.mem_append.mp mem with old | new
    · exact serial.entered other (List.mem_of_mem_erase old)
    · obtain rfl := List.mem_singleton.mp new
      exact ⟨scope, foundScope, by simp [body, reachedBody]⟩
  case apart =>
    intro other mem last lastMem inOther
    obtain rfl := List.mem_singleton.mp lastMem
    exact tasksApart
      (serial.locked.tasksApart (serial.nodup.mem_erase_iff.mp mem).1 inOther inBody)
  case active =>
    rcases List.mem_append.mp mem with old | new
    · obtain ⟨sent, logged, same⟩ := serial.active other (List.mem_of_mem_erase old)
      exact ⟨sent, List.mem_append_left _ logged, same⟩
    · exact ⟨_, List.mem_append_right _ (List.mem_singleton_self _),
        (List.mem_singleton.mp new).symm⟩
  case latestOld =>
    rcases List.mem_append.mp mem' with old | new
    · exact done sent old
    · obtain rfl := List.mem_singleton.mp new
      exact Ne.symm (serial.nodup.mem_erase_iff.mp mem).1
  case latestNew =>
    intro other mem last lastMem
    obtain rfl := List.mem_singleton.mp lastMem
    refine ⟨s.sent, [_], sent, fun sent mem' => ?_, _, List.mem_singleton_self _, rfl⟩
    obtain rfl := List.mem_singleton.mp mem'
    exact Ne.symm (serial.nodup.mem_erase_iff.mp mem).1

private theorem Serial.precedes (serial : Serial start s order) {task other : TaskId}
    {before after : List Sent} (split : s.sent = before ++ after)
    (sentTask : ∃ sent ∈ before, sent.task = task) (doneTask : ∀ sent ∈ after, sent.task ≠ task)
    (notYet : ∀ sent ∈ before, sent.task ≠ other) (mem : other ∈ order) :
    List.Sublist [task, other] order := by
  obtain ⟨first, firstMem, rfl⟩ := sentTask
  obtain ⟨front, back, rfl⟩ :=
    List.append_of_mem (serial.logged first (split ▸ List.mem_append_left _ firstMem))
  rcases List.mem_append.mp mem with early | late
  · -- the task would have a request after the latest of the other, which has one after it
    obtain ⟨before', after', split', done', later, laterMem, laterTask⟩ :=
      (List.pairwise_append.mp serial.latest).2.2 other early first.task (List.mem_cons_self _ _)
    obtain ⟨sent, sentMem, sentTask⟩ := serial.active other mem
    rcases List.append_eq_append_iff.mp (split.symm.trans split') with
      ⟨middle, -, rfl⟩ | ⟨middle, -, rfl⟩
    · exact absurd laterTask (doneTask later (List.mem_append_right _ laterMem))
    · rw [split] at sentMem
      rcases List.mem_append.mp sentMem with inBefore | inAfter
      · exact absurd sentTask (notYet sent inBefore)
      · exact absurd sentTask (done' sent (List.mem_append_right _ inAfter))
  · rcases List.mem_cons.mp late with same | inBack
    · exact absurd same.symm (notYet first firstMem)
    · exact (List.Sublist.cons₂ _ (List.singleton_sublist.mpr inBack)).trans
        (List.sublist_append_right _ _)

/-- Every step but S3 serving a request in flight keeps an order of the tasks, as long as the
request it sends, if any, asks for no page after a continuation token. -/
theorem Serial.step (serial : Serial start s order) {action : SystemAction} {s' : System}
    (stepped : s.step action = some s') (notLand : ∀ index, action ≠ .land index)
    (onePage : ∀ sent ∈ s'.sent, sent.request.FirstPage) :
    ∃ order', Serial start s' order' := by
  cases action with
  | call action => exact ⟨order, serial.call stepped⟩
  | lock action => exact ⟨order, serial.lockStep stepped⟩
  | request task answered => exact ⟨_, serial.request stepped onePage⟩
  | land index => exact absurd rfl (notLand index)

private theorem Serial.run (serial : Serial start s order) {actions : List SystemAction} {s' : System}
    (ran : s.run actions = some s') (noLanding : ∀ index, SystemAction.land index ∉ actions)
    (onePage : ∀ sent ∈ s'.sent, sent.request.FirstPage) :
    ∃ order', Serial start s' order' := by
  induction actions generalizing s order with
  | nil => exact ⟨order, Option.some.inj ran ▸ serial⟩
  | cons action actions ih =>
    obtain ⟨next, stepped, rest⟩ := Option.bind_eq_some.mp ran
    obtain ⟨order', serial'⟩ := serial.step stepped
      (fun index same => noLanding index (same ▸ List.mem_cons_self _ _)) fun sent mem =>
        onePage sent ((System.sent_prefix_run rest).subset mem)
    exact ih serial' rest fun index mem => noLanding index (List.mem_cons_of_mem _ mem)

end Serial

/-- Serializability: over every run in which S3 serves no request late and no listing asks for a
later page, the log regrouped task by task in some order replays from the first bucket to the
last, and each call is where its own requests and answers lead it. -/
theorem serializable {bucket : Bucket} {actions : List SystemAction} {s : System}
    (ran : (System.start bucket).run actions = some s)
    (noLanding : ∀ index, SystemAction.land index ∉ actions)
    (onePage : ∀ sent ∈ s.sent, sent.request.FirstPage) :
    ∃ order : List TaskId, order.Nodup ∧ (s.regrouped order).Perm s.sent ∧
      replay bucket ((s.regrouped order).map Sent.exchange) = some s.bucket ∧
      ∀ task call, s.calls[task]? = some call →
        (callProg call.action).follow ((s.history task).map Sent.exchange) = some call.prog := by
  obtain ⟨order, serial⟩ := (serial_start bucket).run ran noLanding onePage
  exact ⟨order, serial.nodup, serial.perm, serial.replays, serial.follows⟩

/-- A directory `b`, beside `a`. -/
def bPath : PurePosixPath := ⟨[['b']], by decide⟩

/-- `mkdir a` and `mkdir b` on the empty bucket, their requests interleaved one by one once both
are in their bodies. -/
def twoMkdirs : List SystemAction :=
  [.call (.mkdir Rmdir.aPath), .call (.mkdir bPath), .lock (.enter 0), .lock (.enter 0),
    .lock (.enter 0), .lock (.enter 1), .lock (.enter 1), .lock (.enter 1), .request 0 true,
    .request 1 true, .request 0 true, .request 1 true, .request 0 true, .request 1 true]

theorem twoMkdirs_serializable :
    ∃ s, (System.start Bucket.empty).run twoMkdirs = some s ∧
      (∀ index, SystemAction.land index ∉ twoMkdirs) ∧ (∀ sent ∈ s.sent, sent.request.FirstPage) ∧
      ∃ order : List TaskId, order.Nodup ∧ (s.regrouped order).Perm s.sent ∧
        replay Bucket.empty ((s.regrouped order).map Sent.exchange) = some s.bucket ∧
        ∀ task call, s.calls[task]? = some call →
          (callProg call.action).follow ((s.history task).map Sent.exchange) = some call.prog :=
  ⟨_, rfl, by simp [twoMkdirs], by decide,
    @serializable Bucket.empty twoMkdirs _ rfl (by simp [twoMkdirs]) (by decide)⟩

/-! ## The facade, call after call -/

/-- The call has ended. -/
def ended : Prog → Bool
  | .done _ => true
  | _ => false

private theorem ended_iff {prog : Prog} : ended prog ↔ ∃ outcome, prog = .done outcome := by
  cases prog <;> simp [ended]

/-- The call has ended and returned. -/
def returned : Prog → Bool
  | .done .returned => true
  | _ => false

/-- Calls that have ended, taken one after another from `bucket` through the facade: each must
have returned exactly when `Facade.step` succeeds on the bucket the calls before it left, and one
that raised left that bucket as it was. The bucket they end in; none when a call ended otherwise. -/
def serially (bucket : Bucket) : List Call → Option Bucket
  | [] => some bucket
  | call :: calls =>
    if returned call.prog = (Facade.step bucket call.action).isSome then
      serially ((Facade.step bucket call.action).getD bucket) calls
    else none

private theorem facade_of_follow {call : Call} {outcome : Outcome} {log : List (Request × Response)}
    {bucket bucket' : Bucket} (ended : call.prog = .done outcome)
    (followed : (callProg call.action).follow log = some call.prog)
    (answered : ∀ exchange ∈ log, exchange.2 ≠ .failed) (replayed : replay bucket log = some bucket') :
    bucket' = (Facade.step bucket call.action).getD bucket ∧
      returned call.prog = (Facade.step bucket call.action).isSome := by
  have alone := Exec.exec_of_follow (ended ▸ followed) answered replayed
  obtain ⟨fuel, outcome', ends, returns⟩ := Exec.exec_callProg bucket call.action
  obtain ⟨rfl, rfl⟩ := Prod.mk.inj (Exec.exec_unique alone ends)
  refine ⟨rfl, ?_⟩
  rw [ended]
  cases outcome with
  | returned => exact (returns.mp rfl).symm
  | raised message =>
    exact (Bool.eq_false_iff.mpr fun succeeded => nomatch returns.mpr succeeded).symm

section Facade

variable {start : Bucket} {s : System} {order : List TaskId}

private theorem Serial.serially_calls (serial : Serial start s order)
    (answered : ∀ sent ∈ s.sent, sent.response ≠ .failed)
    (finished : ∀ call ∈ s.calls, ended call.prog) {tasks : List TaskId}
    (known : ∀ task ∈ tasks, task < s.calls.length) {bucket bucket' : Bucket}
    (replayed : replay bucket ((tasks.flatMap s.history).map Sent.exchange) = some bucket') :
    serially bucket (tasks.filterMap (s.calls[·]?)) = some bucket' := by
  induction tasks generalizing bucket with
  | nil => exact replayed
  | cons task tasks ih =>
    have lt := known task (List.mem_cons_self _ _)
    have found : s.calls[task]? = some s.calls[task] := List.getElem?_eq_getElem lt
    obtain ⟨outcome, ended⟩ := ended_iff.mp (finished _ (List.getElem_mem lt))
    rw [List.flatMap_cons, List.map_append, replay_append] at replayed
    obtain ⟨next, own, rest⟩ := Option.bind_eq_some.mp replayed
    obtain ⟨rfl, returns⟩ := facade_of_follow ended (serial.follows task _ found)
      (fun exchange mem => by
        obtain ⟨sent, logged, rfl⟩ := List.mem_map.mp mem
        exact answered sent (List.mem_filter.mp logged).1) own
    rw [List.filterMap_cons_some found, serially, if_pos returns]
    exact ih (fun task mem => known task (List.mem_cons_of_mem _ mem)) rest

end Facade

/-- Linearizability: when moreover S3 answers every request and every call has ended, the calls
taken one after another through `Facade.step`, in an order that keeps real-time precedence,
return as they returned and end in the bucket the run ends in. -/
theorem linearizable {bucket : Bucket} {actions : List SystemAction} {s : System}
    (ran : (System.start bucket).run actions = some s)
    (onePage : ∀ sent ∈ s.sent, sent.request.FirstPage)
    (answered : ∀ sent ∈ s.sent, sent.response ≠ .failed)
    (finished : ∀ call ∈ s.calls, ended call.prog) :
    ∃ tasks : List TaskId, tasks.Perm (List.range s.calls.length) ∧
      serially bucket (tasks.filterMap (s.calls[·]?)) = some s.bucket ∧
      ∀ (task other : TaskId) (before after : List Sent), s.sent = before ++ after →
        (∃ sent ∈ before, sent.task = task) → (∀ sent ∈ after, sent.task ≠ task) →
        (∀ sent ∈ before, sent.task ≠ other) → other < s.calls.length →
        List.Sublist [task, other] tasks := by
  obtain ⟨order, serial⟩ := (serial_start bucket).run ran (fun index mem => by
    obtain ⟨sent, mem', failed⟩ := System.failed_of_land ran mem
    exact answered sent mem' failed) onePage
  -- the tasks that sent nothing go last, in any order
  let idle := (List.range s.calls.length).filter (· ∉ order)
  have known : ∀ task ∈ order ++ idle, task < s.calls.length := by
    intro task mem
    rcases List.mem_append.mp mem with sent | idle
    · exact serial.lt_of_mem sent
    · exact List.mem_range.mp (List.mem_filter.mp idle).1
  have silent : idle.flatMap s.history = [] := List.flatMap_eq_nil_iff.mpr fun task mem =>
    serial.history_eq_nil (by simpa using (List.mem_filter.mp mem).2)
  refine ⟨order ++ idle, ?_, serial.serially_calls answered finished known ?_,
    fun task other before after split sentTask doneTask notYet called => ?_⟩
  · refine (List.perm_ext_iff_of_nodup (serial.nodup.append
      ((List.nodup_range _).filter _) fun task sent idle => ?_) (List.nodup_range _)).mpr
        fun task => ⟨fun mem => List.mem_range.mpr (known task mem), fun mem => ?_⟩
    · simpa [sent] using (List.mem_filter.mp idle).2
    · by_cases sent : task ∈ order
      · exact List.mem_append_left _ sent
      · exact List.mem_append_right _ (List.mem_filter.mpr ⟨mem, by simpa using sent⟩)
  · rw [List.flatMap_append, silent, List.append_nil]
    exact serial.replays
  · by_cases mem : other ∈ order
    · exact (serial.precedes split sentTask doneTask notYet mem).trans
        (List.sublist_append_left _ _)
    · obtain ⟨first, firstMem, rfl⟩ := sentTask
      exact List.Sublist.append
        (List.singleton_sublist.mpr (serial.logged first (split ▸ List.mem_append_left _ firstMem)))
        (List.singleton_sublist.mpr (List.mem_filter.mpr ⟨List.mem_range.mpr called, by simpa⟩))

theorem twoMkdirs_linearizable :
    ∃ s, (System.start Bucket.empty).run twoMkdirs = some s ∧
      (∀ sent ∈ s.sent, sent.request.FirstPage) ∧ (∀ sent ∈ s.sent, sent.response ≠ .failed) ∧
      (∀ call ∈ s.calls, ended call.prog) ∧
      ∃ tasks : List TaskId, tasks.Perm (List.range s.calls.length) ∧
        serially Bucket.empty (tasks.filterMap (s.calls[·]?)) = some s.bucket ∧
        ∀ (task other : TaskId) (before after : List Sent), s.sent = before ++ after →
          (∃ sent ∈ before, sent.task = task) → (∀ sent ∈ after, sent.task ≠ task) →
          (∀ sent ∈ before, sent.task ≠ other) → other < s.calls.length →
          List.Sublist [task, other] tasks :=
  ⟨_, rfl, by decide, by decide, by decide,
    @linearizable Bucket.empty twoMkdirs _ rfl (by decide) (by decide) (by decide)⟩

end AioftpS3.Bucket.Concurrent

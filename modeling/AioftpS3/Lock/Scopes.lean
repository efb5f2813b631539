import AioftpS3.Lock.Acquire
import AioftpS3.Lock.PathLock

/-!
`_PathLock` with the tasks in it: one `_ReadWriteLock` per path, with the `_acquire` frames on
it, and a scope for each `lock(write_to, read_from)` call, which enters its `sorted_locks` one
after another, runs its body, and on leaving releases the locks it entered, the last one first.
A lock nobody refers to may be dropped at any time. Each action is a stretch of one task between
two suspension points, or finer, so what holds of every run here holds of the program.
-/

set_option autoImplicit false
set_option relaxedAutoImplicit false

namespace AioftpS3.Lock.Scopes

open AioftpS3.PosixPath AioftpS3.Lock.Queue AioftpS3.Lock.Acquire AioftpS3.Lock.PathLock

/-- Where a task is in `_PathLock.__call__`. -/
inductive ScopeStage
  /-- `entered` locks are entered; next is lock number `entered`, or the body once all are. -/
  | entering (entered : Nat)
  /-- Inside `_acquire` on lock number `entered`. -/
  | acquiring (entered : Nat)
  | body
  /-- The exit stack still has `entered` locks to release, the last one first. -/
  | exiting (entered : Nat)
  | done
deriving DecidableEq, Repr

/-- One task's `async with lock(write_to=..., read_from=...)`. -/
structure Scope where
  writeTo : List PurePosixPath
  readFrom : List PurePosixPath
  stage : ScopeStage

namespace Scope

/-- `sorted_locks`. -/
def entries (scope : Scope) : List (PurePosixPath × WaiterType) :=
  pathLockEntries scope.writeTo scope.readFrom

/-- The locks entered and not yet released. -/
def entered (scope : Scope) : Nat :=
  match scope.stage with
  | .entering entered | .acquiring entered | .exiting entered => entered
  | .body => scope.entries.length
  | .done => 0

@[simp] theorem entries_stage (scope : Scope) (stage : ScopeStage) :
    ({ scope with stage } : Scope).entries = scope.entries := rfl

@[simp] theorem entries_mk (writeTo readFrom : List PurePosixPath) (stage : ScopeStage) :
    (Scope.mk writeTo readFrom stage).entries = pathLockEntries writeTo readFrom := rfl

/-- A scope locks each path once. -/
theorem index_eq {scope : Scope} {i j : Nat} {path : PurePosixPath} {a b : WaiterType}
    (first : scope.entries[i]? = some (path, a)) (second : scope.entries[j]? = some (path, b)) :
    i = j := by
  have paths : ∀ {k : Nat} {c : WaiterType}, scope.entries[k]? = some (path, c) →
      (scope.entries.map Prod.fst)[k]? = some path := by
    intro k c found
    simp [found]
  exact List.getElem?_inj (List.getElem?_eq_some_iff.mp (paths first)).1
    (nodup_pathLockEntries _ _) ((paths first).trans (paths second).symm)

theorem lt_of_entry {scope : Scope} {i : Nat} {entry : PurePosixPath × WaiterType}
    (found : scope.entries[i]? = some entry) : i < scope.entries.length :=
  (List.getElem?_eq_some_iff.mp found).1

/-- The position of a scope lies within its locks. -/
def Bounded (scope : Scope) : Prop :=
  match scope.stage with
  | .entering k | .exiting k => k ≤ scope.entries.length
  | .acquiring k => k < scope.entries.length
  | .body | .done => True

/-- The frame that lock number `i`, of class `type`, has of the scope's task: holding once
entered, still in `_acquire` while being acquired, none before it is asked for, and after the
scope has let go of it none or a frame that has left `_acquire`. -/
def Expects (scope : Scope) (task : TaskId) (i : Nat) (type : WaiterType)
    (found : Option Acquirer) : Prop :=
  if i < scope.entered then found = some ⟨task, type, .holding⟩
  else
    match scope.stage with
    | .entering _ => found = none
    | .acquiring k =>
      if i = k then ∃ stage, stage.pending ∧ found = some ⟨task, type, stage⟩ else found = none
    | _ => ∀ frame ∈ found, frame.stage.left

end Scope

/-- The lock map with its frames, and every scope by task. -/
structure PathLockState where
  locks : PurePosixPath → Acquisitions
  scopes : List Scope

/-- The steps of the tasks on a `_PathLock`. -/
inductive PathAction
  /-- A new task calls `lock(write_to, read_from)`. -/
  | call (writeTo readFrom : List PurePosixPath)
  /-- The next lock's `_acquire` up to `await waiter`, or the body once every lock is entered. -/
  | enter (task : TaskId)
  /-- The task wakes from `await waiter` with its result. -/
  | resume (task : TaskId)
  /-- The task is cancelled while suspended at `await waiter`. -/
  | cancel (task : TaskId)
  /-- The task wakes with `CancelledError` in `_acquire`, and its exit stack starts unwinding. -/
  | unwind (task : TaskId)
  /-- The body ends, by returning or raising. -/
  | exit (task : TaskId)
  /-- The exit stack releases its last lock, or the scope finishes when none is left. -/
  | release (task : TaskId)
  /-- The weak map drops the lock of a path that no unfinished scope refers to. -/
  | collect (path : PurePosixPath)

namespace PathLockState

/-- An empty `_PathLock()`: every path would get a fresh lock. -/
def init : PathLockState := ⟨fun _ => .init, []⟩

/-- A lock action on the lock of `path`. -/
def onLock (s : PathLockState) (path : PurePosixPath) (action : LockAction) :
    Option PathLockState :=
  ((s.locks path).step action).map fun acq => { s with locks := Function.update s.locks path acq }

/-- Move the scope of `task` to `stage`. -/
def withStage (s : PathLockState) (task : TaskId) (scope : Scope) (stage : ScopeStage) :
    PathLockState :=
  { s with scopes := s.scopes.set task { scope with stage } }

/-- Some unfinished scope refers to the lock of `path`, so the weak map keeps it. -/
def referenced (s : PathLockState) (path : PurePosixPath) : Prop :=
  ∃ scope ∈ s.scopes, scope.stage ≠ .done ∧ path ∈ scope.entries.map Prod.fst

instance (s : PathLockState) (path : PurePosixPath) : Decidable (s.referenced path) :=
  inferInstanceAs (Decidable (∃ scope ∈ s.scopes, _))

/-- One step; `none` when the action is not possible. -/
def step (s : PathLockState) : PathAction → Option PathLockState
  | .call writeTo readFrom =>
    some { s with scopes := s.scopes ++ [⟨writeTo, readFrom, .entering 0⟩] }
  | .enter task =>
    match s.scopes[task]? with
    | some scope@⟨_, _, .entering k⟩ =>
      match scope.entries[k]? with
      | none => some (s.withStage task scope .body)
      | some (path, type) =>
        (s.onLock path (.acquire task type)).map fun next =>
          next.withStage task scope
            (if stageOf (next.locks path).frames task = some .holding then .entering (k + 1)
              else .acquiring k)
    | _ => none
  | .resume task =>
    match s.scopes[task]? with
    | some scope@⟨_, _, .acquiring k⟩ =>
      match scope.entries[k]? with
      | some (path, _) =>
        (s.onLock path (.resume task)).map (·.withStage task scope (.entering (k + 1)))
      | none => none
    | _ => none
  | .cancel task =>
    match s.scopes[task]? with
    | some scope@⟨_, _, .acquiring k⟩ =>
      match scope.entries[k]? with
      | some (path, _) => s.onLock path (.cancel task)
      | none => none
    | _ => none
  | .unwind task =>
    match s.scopes[task]? with
    | some scope@⟨_, _, .acquiring k⟩ =>
      match scope.entries[k]? with
      | some (path, _) =>
        (s.onLock path (.unwind task)).map (·.withStage task scope (.exiting k))
      | none => none
    | _ => none
  | .exit task =>
    match s.scopes[task]? with
    | some scope@⟨_, _, .body⟩ => some (s.withStage task scope (.exiting scope.entries.length))
    | _ => none
  | .release task =>
    match s.scopes[task]? with
    | some scope@⟨_, _, .exiting 0⟩ => some (s.withStage task scope .done)
    | some scope@⟨_, _, .exiting (k + 1)⟩ =>
      match scope.entries[k]? with
      | some (path, _) =>
        (s.onLock path (.release task)).map (·.withStage task scope (.exiting k))
      | none => none
    | _ => none
  | .collect path =>
    if s.referenced path then none
    else some { s with locks := Function.update s.locks path .init }

/-- The path of the lock a task is acquiring. -/
def acquiringPath (s : PathLockState) (task : TaskId) : Option PurePosixPath :=
  match s.scopes[task]? with
  | some scope@⟨_, _, .acquiring k⟩ => scope.entries[k]?.map Prod.fst
  | _ => none

/-- The task is at `await waiter` on the lock of a path, and its waiter has no result yet. -/
def Waiting (s : PathLockState) (task : TaskId) : Prop :=
  ∃ path, s.acquiringPath task = some path ∧ stageOf (s.locks path).frames task = some .waiting

/-- A run of actions from `s`. -/
def run (s : PathLockState) : List PathAction → Option PathLockState
  | [] => some s
  | action :: actions => (s.step action).bind (·.run actions)

/-- Some interleaving of the tasks leads from an empty `_PathLock` to `s`. -/
def Reachable (s : PathLockState) : Prop := ∃ actions, init.run actions = some s

/-- Some interleaving in which no task is cancelled leads from an empty `_PathLock` to `s`. -/
def ReachableUncancelled (s : PathLockState) : Prop :=
  ∃ actions, (∀ action ∈ actions, ∀ task, action ≠ .cancel task) ∧ init.run actions = some s

end PathLockState

/-! ## The frames of a scope -/

/-- How the frames of one task on the path locks follow its scope: each lock of the scope has
the frame `Scope.Expects` says, every frame of the task is on a lock of its scope, and the
scope's position lies within its locks. -/
structure ScopeFrames (locks : PurePosixPath → Acquisitions) (task : TaskId) (scope : Scope) :
    Prop where
  expected : ∀ i path type, scope.entries[i]? = some (path, type) →
    scope.Expects task i type (frameOf (locks path).frames task)
  owned : ∀ path frame, frameOf (locks path).frames task = some frame →
    path ∈ scope.entries.map Prod.fst
  bounded : scope.Bounded

/-- The locks of `after` keep every frame of `task` that those of `before` have, or grant it. -/
def Kept (before after : PurePosixPath → Acquisitions) (task : TaskId) : Prop :=
  ∀ path, KeepsFrame (before path).frames (after path).frames task

private theorem Scope.expects_kept {scope : Scope} {task : TaskId} {i : Nat} {type : WaiterType}
    {before after : List Acquirer} (expects : scope.Expects task i type (frameOf before task))
    (kept : KeepsFrame before after task) : scope.Expects task i type (frameOf after task) := by
  rcases kept with same | ⟨frame, found, waiting, granted⟩
  · rwa [same]
  · rw [found] at expects
    rw [granted]
    unfold Scope.Expects at expects ⊢
    cases stage : scope.stage <;> simp only [stage] at expects ⊢ <;> split_ifs at expects ⊢ <;>
      simp_all [Stage.left]
    obtain ⟨_, -, rfl⟩ := expects
    exact ⟨.granted, rfl, rfl, rfl, rfl⟩

private theorem ScopeFrames.kept {before after : PurePosixPath → Acquisitions} {task : TaskId}
    {scope : Scope} (frames : ScopeFrames before task scope) (kept : Kept before after task) :
    ScopeFrames after task scope where
  expected i path type entry := Scope.expects_kept (frames.expected i path type entry) (kept path)
  owned path frame found := by
    rcases kept path with same | ⟨old, foundOld, -, -⟩
    · exact frames.owned path frame (same ▸ found)
    · exact frames.owned path old foundOld
  bounded := frames.bounded

private theorem ScopeFrames.restage {locks : PurePosixPath → Acquisitions} {task : TaskId}
    {scope : Scope} {stage : ScopeStage} (frames : ScopeFrames locks task scope)
    (bounded : ({ scope with stage } : Scope).Bounded)
    (expects : ∀ i type found, i < scope.entries.length → scope.Expects task i type found →
      ({ scope with stage } : Scope).Expects task i type found) :
    ScopeFrames locks task { scope with stage } where
  expected i path type entry :=
    expects i type _ (Scope.lt_of_entry entry) (frames.expected i path type entry)
  owned := frames.owned
  bounded := bounded

private theorem ScopeFrames.moveAt {locks locks' : PurePosixPath → Acquisitions} {task : TaskId}
    {scope : Scope} {stage : ScopeStage} {k : Nat} {path : PurePosixPath} {type : WaiterType}
    (frames : ScopeFrames locks task scope) (entry : scope.entries[k]? = some (path, type))
    (others : ∀ other, other ≠ path → locks' other = locks other)
    (bounded : ({ scope with stage } : Scope).Bounded)
    (expects : ∀ i type found, i ≠ k → i < scope.entries.length →
      scope.Expects task i type found → ({ scope with stage } : Scope).Expects task i type found)
    (here : ({ scope with stage } : Scope).Expects task k type (frameOf (locks' path).frames task)) :
    ScopeFrames locks' task { scope with stage } where
  expected i other otherType otherEntry := by
    by_cases same : i = k
    · subst same
      rw [Scope.entries_stage, entry] at otherEntry
      cases otherEntry
      exact here
    · have differ : other ≠ path := fun eq => same (Scope.index_eq (eq ▸ otherEntry) entry)
      rw [others other differ]
      exact expects i otherType _ same (Scope.lt_of_entry otherEntry)
        (frames.expected i other otherType otherEntry)
  owned other frame found := by
    by_cases same : other = path
    · subst same
      exact List.mem_map.mpr ⟨_, List.mem_iff_getElem?.mpr ⟨k, entry⟩, rfl⟩
    · exact frames.owned other frame (by rwa [others other same] at found)
  bounded := bounded

/-! ## The invariant -/

namespace PathLockState

/-- What every reachable state satisfies: each path's lock keeps the lock invariant, each task's
frames follow its scope, and a task that has not called the lock has no frame. -/
structure Invariant (s : PathLockState) : Prop where
  locks : ∀ path, (s.locks path).Invariant
  scopes : ∀ task scope, s.scopes[task]? = some scope → ScopeFrames s.locks task scope
  unknown : ∀ path task, s.scopes.length ≤ task → frameOf (s.locks path).frames task = none

theorem invariant_init : init.Invariant where
  locks _ := Acquisitions.invariant_init
  scopes _ _ found := by simp [init] at found
  unknown _ _ _ := rfl

private theorem Invariant.of_task {s s' : PathLockState} (inv : s.Invariant) {task : TaskId}
    {scope scope' : Scope} (found : s.scopes[task]? = some scope)
    (length : s'.scopes.length = s.scopes.length)
    (scopes : ∀ other, s'.scopes[other]? = if other = task then some scope' else s.scopes[other]?)
    (locks : ∀ path, (s'.locks path).Invariant)
    (kept : ∀ other, other ≠ task → Kept s.locks s'.locks other)
    (own : ScopeFrames s'.locks task scope') : s'.Invariant where
  locks := locks
  scopes other scopeOther found' := by
    rw [scopes] at found'
    split at found'
    · subst other
      cases found'
      exact own
    · exact (inv.scopes other scopeOther found').kept (kept other ‹_›)
  unknown path other beyond := by
    have ne : other ≠ task := by
      have := (List.getElem?_eq_some_iff.mp found).1
      omega
    rcases kept other ne path with same | ⟨frame, foundOld, -, -⟩
    · rw [same]
      exact inv.unknown path other (length ▸ beyond)
    · rw [inv.unknown path other (length ▸ beyond)] at foundOld
      cases foundOld

@[simp] theorem withStage_locks (s : PathLockState) (task : TaskId) (scope : Scope)
    (stage : ScopeStage) : (s.withStage task scope stage).locks = s.locks := rfl

theorem onLock_eq_some {s s' : PathLockState} {path : PurePosixPath} {action : LockAction}
    (stepped : s.onLock path action = some s') :
    ∃ acq, (s.locks path).step action = some acq ∧
      s' = { s with locks := Function.update s.locks path acq } := by
  obtain ⟨acq, lockStep, rfl⟩ := Option.map_eq_some'.mp stepped
  exact ⟨acq, lockStep, rfl⟩

theorem getElem?_withStage {s : PathLockState} {task : TaskId} {scope : Scope}
    (found : s.scopes[task]? = some scope) (stage : ScopeStage) (other : TaskId) :
    (s.withStage task scope stage).scopes[other]? =
      if other = task then some { scope with stage } else s.scopes[other]? := by
  have lt := (List.getElem?_eq_some_iff.mp found).1
  by_cases same : other = task
  · simp [withStage, List.getElem?_set, same, lt]
  · simp [withStage, List.getElem?_set, same, Ne.symm same]

private theorem Invariant.lockStep {s : PathLockState} (inv : s.Invariant) {path : PurePosixPath}
    {action : LockAction} {acq : Acquisitions} (lockStep : (s.locks path).step action = some acq) :
    (∀ other, (Function.update s.locks path acq other).Invariant) ∧
      ∀ task, task ≠ action.task → Kept s.locks (Function.update s.locks path acq) task := by
  refine ⟨fun other => ?_, fun task differ other => ?_⟩
  · by_cases same : other = path
    · subst same
      simpa using (inv.locks other).step lockStep
    · simpa [same] using inv.locks other
  · by_cases same : other = path
    · subst same
      simpa [KeepsFrame] using (inv.locks other).frameOf_step_other lockStep (Ne.symm differ)
    · exact .inl (by simp [same])

private theorem Invariant.enter {s s' : PathLockState} (inv : s.Invariant) {task : TaskId}
    (stepped : s.step (.enter task) = some s') : s'.Invariant := by
  simp only [step] at stepped
  split at stepped
  · rename_i writeTo readFrom k found
    have frames := inv.scopes task _ found
    have bounded : k ≤ (pathLockEntries writeTo readFrom).length := frames.bounded
    split at stepped
    · rename_i none
      cases stepped
      have ends := List.getElem?_eq_none_iff.mp none
      simp only [Scope.entries_mk] at ends
      refine inv.of_task found (by simp [withStage]) (getElem?_withStage found _) inv.locks
        (fun _ _ _ => .inl rfl) (frames.restage trivial fun i type found below expects => ?_)
      simp only [Scope.Expects, Scope.entered, Scope.entries_mk] at expects below ⊢
      rw [if_pos (by omega)] at expects ⊢
      exact expects
    · rename_i path type entry
      obtain ⟨next, lockStepped, rfl⟩ := Option.map_eq_some'.mp stepped
      obtain ⟨acq, lockStep, rfl⟩ := onLock_eq_some lockStepped
      obtain ⟨locks, kept⟩ := inv.lockStep lockStep
      obtain ⟨-, stage, waitingOrHolding, added⟩ := (inv.locks path).frameOf_acquire lockStep
      have here : frameOf (Function.update s.locks path acq path).frames task =
          some ⟨task, type, stage⟩ := by simpa using added
      have stageIs : stageOf (Function.update s.locks path acq path).frames task = some stage := by
        rw [stageOf, here]
        rfl
      have lt := Scope.lt_of_entry entry
      dsimp only
      rw [stageIs]
      refine inv.of_task found (by simp [withStage]) (getElem?_withStage found _) locks kept
        (frames.moveAt entry (fun other differ => Function.update_noteq differ _ _)
          ?bounded ?expects ?here) <;>
        rcases waitingOrHolding with rfl | rfl <;>
        simp only [withStage_locks, if_true, if_false, Option.some.injEq, reduceCtorEq]
      case bounded.inl | bounded.inr => exact lt
      case expects.inl | expects.inr =>
        intro i type found differ below expects
        simp only [Scope.Expects, Scope.entered, Scope.entries_mk] at below expects ⊢
        simpa only [Nat.lt_succ_iff_lt_or_eq, differ, or_false] using expects
      case here.inl | here.inr =>
        rw [here]
        simp [Scope.Expects, Scope.entered, Stage.pending]
  · cases stepped

private theorem Invariant.resume {s s' : PathLockState} (inv : s.Invariant) {task : TaskId}
    (stepped : s.step (.resume task) = some s') : s'.Invariant := by
  simp only [step] at stepped
  split at stepped
  · rename_i writeTo readFrom k found
    have frames := inv.scopes task _ found
    split at stepped
    · rename_i path type entry
      obtain ⟨next, lockStepped, rfl⟩ := Option.map_eq_some'.mp stepped
      obtain ⟨acq, lockStep, rfl⟩ := onLock_eq_some lockStepped
      obtain ⟨locks, kept⟩ := inv.lockStep lockStep
      obtain ⟨frame, before, -, after⟩ := Acquisitions.frameOf_resume lockStep
      have expected := frames.expected k path type entry
      simp only [Scope.Expects, Scope.entered, lt_irrefl, if_false, if_true] at expected
      obtain ⟨_, -, same⟩ := expected
      rw [before] at same
      cases same
      have lt := Scope.lt_of_entry entry
      refine inv.of_task found (by simp [withStage]) (getElem?_withStage found _) locks kept
        (frames.moveAt entry (fun other differ => Function.update_noteq differ _ _)
          ?bounded ?expects ?here)
      case bounded => exact lt
      case expects =>
        intro i type found differ below expects
        simp only [Scope.Expects, Scope.entered, Scope.entries_mk] at below expects ⊢
        simpa only [Nat.lt_succ_iff_lt_or_eq, differ, or_false] using expects
      case here => simp [Scope.Expects, Scope.entered, after]
    · cases stepped
  · cases stepped

private theorem Invariant.cancel {s s' : PathLockState} (inv : s.Invariant) {task : TaskId}
    (stepped : s.step (.cancel task) = some s') : s'.Invariant := by
  simp only [step] at stepped
  split at stepped
  · rename_i writeTo readFrom k found
    have frames := inv.scopes task _ found
    split at stepped
    · rename_i path type entry
      obtain ⟨acq, lockStep, rfl⟩ := onLock_eq_some stepped
      obtain ⟨locks, kept⟩ := inv.lockStep lockStep
      obtain ⟨frame, granted, before, -, after⟩ := Acquisitions.frameOf_cancel lockStep
      have expected := frames.expected k path type entry
      simp only [Scope.Expects, Scope.entered, lt_irrefl, if_false, if_true] at expected
      obtain ⟨_, -, same⟩ := expected
      rw [before] at same
      cases same
      refine inv.of_task found rfl (fun other => ?_) locks kept
        (frames.moveAt entry (fun other differ => Function.update_noteq differ _ _) frames.bounded
          (fun _ _ _ _ _ expects => expects) ?_)
      · split
        · subst other
          exact found
        · rfl
      · simp [Scope.Expects, Scope.entered, after, Stage.pending]
    · cases stepped
  · cases stepped

private theorem Invariant.unwind {s s' : PathLockState} (inv : s.Invariant) {task : TaskId}
    (stepped : s.step (.unwind task) = some s') : s'.Invariant := by
  simp only [step] at stepped
  split at stepped
  · rename_i writeTo readFrom k found
    have frames := inv.scopes task _ found
    split at stepped
    · rename_i path type entry
      obtain ⟨next, lockStepped, rfl⟩ := Option.map_eq_some'.mp stepped
      obtain ⟨acq, lockStep, rfl⟩ := onLock_eq_some lockStepped
      obtain ⟨locks, kept⟩ := inv.lockStep lockStep
      obtain ⟨frame, granted, -, -, after⟩ := (inv.locks path).frameOf_unwind lockStep
      have lt := Scope.lt_of_entry entry
      refine inv.of_task found (by simp [withStage]) (getElem?_withStage found _) locks kept
        (frames.moveAt entry (fun other differ => Function.update_noteq differ _ _)
          ?bounded ?expects ?here)
      case bounded => exact lt.le
      case expects =>
        intro i type found differ below expects
        simp only [Scope.Expects, Scope.entered, Scope.entries_mk, differ, if_false] at expects ⊢
        split_ifs at expects ⊢
        · exact expects
        · simp [expects]
      case here => cases granted <;> simp [Scope.Expects, Scope.entered, after, Stage.left]
    · cases stepped
  · cases stepped

private theorem Invariant.exit {s s' : PathLockState} (inv : s.Invariant) {task : TaskId}
    (stepped : s.step (.exit task) = some s') : s'.Invariant := by
  simp only [step] at stepped
  split at stepped
  · rename_i writeTo readFrom found
    cases stepped
    refine inv.of_task found (by simp [withStage]) (getElem?_withStage found _) inv.locks
      (fun _ _ _ => .inl rfl) ((inv.scopes task _ found).restage le_rfl fun i type found _ => ?_)
    simp [Scope.Expects, Scope.entered]
  · cases stepped

private theorem Invariant.release {s s' : PathLockState} (inv : s.Invariant) {task : TaskId}
    (stepped : s.step (.release task) = some s') : s'.Invariant := by
  simp only [step] at stepped
  split at stepped
  · rename_i writeTo readFrom found
    cases stepped
    refine inv.of_task found (by simp [withStage]) (getElem?_withStage found _) inv.locks
      (fun _ _ _ => .inl rfl) ((inv.scopes task _ found).restage trivial fun i type found _ => ?_)
    simp [Scope.Expects, Scope.entered]
  · rename_i writeTo readFrom k found
    have frames := inv.scopes task _ found
    split at stepped
    · rename_i path type entry
      obtain ⟨next, lockStepped, rfl⟩ := Option.map_eq_some'.mp stepped
      obtain ⟨acq, lockStep, rfl⟩ := onLock_eq_some lockStepped
      obtain ⟨locks, kept⟩ := inv.lockStep lockStep
      obtain ⟨frame, -, -, after⟩ := (inv.locks path).frameOf_release lockStep
      have bounded : k + 1 ≤ (pathLockEntries writeTo readFrom).length := frames.bounded
      refine inv.of_task found (by simp [withStage]) (getElem?_withStage found _) locks kept
        (frames.moveAt entry (fun other differ => Function.update_noteq differ _ _)
          ?bounded ?expects ?here)
      case bounded => exact Nat.le_of_succ_le bounded
      case expects =>
        intro i type found differ below expects
        simp only [Scope.Expects, Scope.entered, Scope.entries_mk] at below expects ⊢
        simpa only [Nat.lt_succ_iff_lt_or_eq, differ, or_false] using expects
      case here => simp [Scope.Expects, Scope.entered, after, Stage.left]
    · cases stepped
  · cases stepped

private theorem Invariant.call {s s' : PathLockState} (inv : s.Invariant)
    {writeTo readFrom : List PurePosixPath} (stepped : s.step (.call writeTo readFrom) = some s') :
    s'.Invariant := by
  cases stepped
  refine ⟨inv.locks, fun task scope found => ?_, fun path task beyond => ?_⟩
  · by_cases old : task < s.scopes.length
    · rw [List.getElem?_append_left old] at found
      exact inv.scopes task scope found
    · have beyond : s.scopes.length ≤ task := Nat.le_of_not_lt old
      have unknown := fun path => inv.unknown path task beyond
      rw [List.getElem?_append_right beyond] at found
      obtain ⟨zero, rfl⟩ : task - s.scopes.length = 0 ∧ ⟨writeTo, readFrom, .entering 0⟩ = scope := by
        simpa [List.getElem?_cons] using found
      exact ⟨fun i path type _ => by simp [Scope.Expects, Scope.entered, unknown],
        fun path frame found => by simp [unknown] at found, Nat.zero_le _⟩
  · exact inv.unknown path task (by simp at beyond; omega)

private theorem Invariant.collect {s s' : PathLockState} (inv : s.Invariant) {path : PurePosixPath}
    (stepped : s.step (.collect path) = some s') : s'.Invariant := by
  simp only [step] at stepped
  split at stepped
  · cases stepped
  · rename_i unreferenced
    cases stepped
    refine ⟨fun other => ?_, fun task scope found => ?_, fun other task beyond => ?_⟩
    · by_cases same : other = path
      · subst same
        simpa using Acquisitions.invariant_init
      · simpa [same] using inv.locks other
    · have frames := inv.scopes task scope found
      refine ⟨fun i other type entry => ?_, fun other frame found' => ?_, frames.bounded⟩
      · by_cases same : other = path
        · subst same
          have done : scope.stage = .done := by
            by_contra unfinished
            exact unreferenced ⟨scope, List.mem_iff_getElem?.mpr ⟨task, found⟩, unfinished,
              List.mem_map.mpr ⟨_, List.mem_iff_getElem?.mpr ⟨i, entry⟩, rfl⟩⟩
          simp [Scope.Expects, Scope.entered, done, frameOf, Acquisitions.init]
        · simpa [same] using frames.expected i other type entry
      · by_cases same : other = path
        · subst same
          simp [frameOf, Acquisitions.init] at found'
        · exact frames.owned other frame (by simpa [same] using found')
    · by_cases same : other = path
      · subst same
        simp [frameOf, Acquisitions.init]
      · simpa [same] using inv.unknown other task beyond

/-- Every step keeps the invariant. -/
theorem Invariant.step {s s' : PathLockState} (inv : s.Invariant) {action : PathAction}
    (stepped : s.step action = some s') : s'.Invariant := by
  cases action with
  | call writeTo readFrom => exact inv.call stepped
  | enter task => exact inv.enter stepped
  | resume task => exact inv.resume stepped
  | cancel task => exact inv.cancel stepped
  | unwind task => exact inv.unwind stepped
  | exit task => exact inv.exit stepped
  | release task => exact inv.release stepped
  | collect path => exact inv.collect stepped

private theorem Invariant.run {s s' : PathLockState} (inv : s.Invariant) {actions : List PathAction}
    (ran : s.run actions = some s') : s'.Invariant := by
  induction actions generalizing s with
  | nil => exact Option.some.inj ran ▸ inv
  | cons action actions ih =>
    obtain ⟨next, stepped, rest⟩ := Option.bind_eq_some.mp ran
    exact ih (inv.step stepped) rest

theorem Reachable.invariant {s : PathLockState} (reachable : s.Reachable) : s.Invariant :=
  let ⟨_, ran⟩ := reachable
  invariant_init.run ran

theorem run_append (s : PathLockState) (first rest : List PathAction) :
    s.run (first ++ rest) = (s.run first).bind (·.run rest) := by
  induction first generalizing s with
  | nil => rfl
  | cons action first ih =>
    simp only [List.cons_append, run]
    cases s.step action <;> simp [ih]

end PathLockState

end AioftpS3.Lock.Scopes

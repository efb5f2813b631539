import AioftpS3.Lock.Queue
import Mathlib.Data.List.Pairwise
import Mathlib.Data.List.Nodup

/-!
The tasks inside `_ReadWriteLock._acquire` on one lock, one action for each stretch of a task
between two suspension points. A task appends its waiter, resolves the queue and awaits the
waiter unless it already has its result; a pending waiter that is cancelled stays in the queue,
while one that already has its result is cancelled all the same, through the `except` branch. A
granted task runs its body and releases in the `finally`.
-/

set_option autoImplicit false
set_option relaxedAutoImplicit false

namespace AioftpS3.Lock.Acquire

open AioftpS3.Lock.Queue

/-- Where a task is in `_acquire`. The three ways out are told apart: through the `finally`
after the body, and through `except CancelledError` before or after the waiter was granted. -/
inductive Stage
  | waiting
  | granted
  | holding
  | cancelled (granted : Bool)
  | released
  | withdrawn
  | abandoned
deriving DecidableEq, Repr

namespace Stage

/-- The lock counts the task in `_reads_held` or `_write_held`. -/
def counted : Stage → Bool
  | granted | holding | cancelled true | abandoned => true
  | _ => false

/-- The task's waiter never had its result set. -/
def neverGranted : Stage → Bool
  | waiting | cancelled false | withdrawn => true
  | _ => false

/-- Granted and not yet out of `_acquire`. -/
def inside : Stage → Bool
  | granted | holding | cancelled true => true
  | _ => false

/-- Inside `await waiter`, or cancelled there and not yet out. -/
def pending : Stage → Bool
  | waiting | granted | cancelled _ => true
  | _ => false

/-- Out of `_acquire`, by the `finally` or the `except` branch. -/
def left : Stage → Bool
  | released | withdrawn | abandoned => true
  | _ => false

/-- The stages a frame reaches when no task is cancelled. -/
def calm : Stage → Bool
  | waiting | granted | holding | released => true
  | _ => false

private theorem counted_of_inside {stage : Stage} (inside : stage.inside) : stage.counted := by
  rcases stage with _ | _ | _ | ⟨_ | _⟩ | _ | _ | _ <;> simp_all [Stage.inside, counted]

end Stage

/-- An `_acquire` frame: its task, the class of its waiter, and where it is. -/
structure Acquirer where
  task : TaskId
  type : WaiterType
  stage : Stage
deriving DecidableEq, Repr

/-- The waiter future the frame appended. -/
def Acquirer.waiter (frame : Acquirer) : Waiter := ⟨frame.task, frame.type, false⟩

/-- One lock with the `_acquire` frames on it, in the order their tasks called `_acquire`. -/
structure Acquisitions where
  lock : ReadWriteLock
  frames : List Acquirer
deriving DecidableEq, Repr

/-- A fresh lock that nobody has called. -/
def Acquisitions.init : Acquisitions := ⟨.init, []⟩

/-- The steps of the tasks on one lock. -/
inductive LockAction
  /-- `_acquire` up to `await waiter`. -/
  | acquire (task : TaskId) (type : WaiterType)
  /-- The task wakes from `await waiter` with its result. -/
  | resume (task : TaskId)
  /-- `Task.cancel()` while the task is suspended at `await waiter`. -/
  | cancel (task : TaskId)
  /-- The task wakes with `CancelledError` and runs the `except` branch. -/
  | unwind (task : TaskId)
  /-- The body ends, by returning or raising, and the `finally` runs. -/
  | release (task : TaskId)
deriving DecidableEq, Repr

/-- The frame of `task`. -/
def frameOf (frames : List Acquirer) (task : TaskId) : Option Acquirer :=
  frames.find? (·.task = task)

/-- The stage of the frame of `task`. -/
def stageOf (frames : List Acquirer) (task : TaskId) : Option Stage :=
  (frameOf frames task).map (·.stage)

/-- Move the frame of `task` to `stage`. -/
def setStage (task : TaskId) (stage : Stage) (frames : List Acquirer) : List Acquirer :=
  frames.map fun frame => if frame.task = task then { frame with stage } else frame

/-- The tasks whose waiter got its result are woken as granted. -/
def grant (waiters : List Waiter) (frames : List Acquirer) : List Acquirer :=
  frames.map fun frame =>
    if frame.task ∈ waiters.map (·.task) then { frame with stage := .granted } else frame

namespace Acquisitions

/-- `_resolve_queued_waiters`, with its results delivered to the frames. -/
def resolve (acq : Acquisitions) : Acquisitions :=
  ⟨(resolveQueuedWaiters acq.lock).1, grant (resolveQueuedWaiters acq.lock).2 acq.frames⟩

/-- `_acquire` up to `await waiter`, which does not suspend when the waiter is granted at once. -/
def enqueue (acq : Acquisitions) (task : TaskId) (type : WaiterType) : Acquisitions :=
  let resolved := resolve
    ⟨{ acq.lock with waiters := acq.lock.waiters ++ [⟨task, type, false⟩] },
      acq.frames ++ [⟨task, type, .waiting⟩]⟩
  if stageOf resolved.frames task = some .granted then
    { resolved with frames := setStage task .holding resolved.frames }
  else resolved

/-- One step; `none` when the action is not possible. -/
def step (acq : Acquisitions) : LockAction → Option Acquisitions
  | .acquire task type =>
    if task ∈ acq.frames.map (·.task) then none else some (acq.enqueue task type)
  | .resume task =>
    match stageOf acq.frames task with
    | some .granted => some { acq with frames := setStage task .holding acq.frames }
    | _ => none
  | .cancel task =>
    match stageOf acq.frames task with
    | some .waiting =>
      some ⟨{ acq.lock with waiters := cancelWaiter task acq.lock.waiters },
        setStage task (.cancelled false) acq.frames⟩
    | some .granted => some { acq with frames := setStage task (.cancelled true) acq.frames }
    | _ => none
  | .unwind task =>
    match stageOf acq.frames task with
    | some (.cancelled granted) =>
      some (resolve { acq with
        frames := setStage task (if granted then .abandoned else .withdrawn) acq.frames })
    | _ => none
  | .release task =>
    match frameOf acq.frames task with
    | some ⟨_, type, .holding⟩ =>
      some (resolve ⟨onRelease type acq.lock, setStage task .released acq.frames⟩)
    | _ => none

/-- A run of actions from `acq`. -/
def run (acq : Acquisitions) : List LockAction → Option Acquisitions
  | [] => some acq
  | action :: actions => (acq.step action).bind (·.run actions)

/-- Some interleaving of the tasks leads from a fresh lock to `acq`. -/
def Reachable (acq : Acquisitions) : Prop := ∃ actions, init.run actions = some acq

end Acquisitions

/-! ## Frames -/

private theorem stageOf_eq_some {frames : List Acquirer} {task : TaskId} {stage : Stage}
    (found : stageOf frames task = some stage) :
    ∃ frame ∈ frames, frame.task = task ∧ frame.stage = stage := by
  obtain ⟨frame, find, rfl⟩ := Option.map_eq_some'.mp found
  exact ⟨frame, List.mem_of_find?_eq_some find, by simpa using List.find?_some find, rfl⟩

theorem frameOf_eq_some {frames : List Acquirer} {task : TaskId} {frame : Acquirer}
    (found : frameOf frames task = some frame) : frame ∈ frames ∧ frame.task = task :=
  ⟨List.mem_of_find?_eq_some found, by simpa using List.find?_some found⟩

@[simp] theorem map_task_setStage (task : TaskId) (stage : Stage) (frames : List Acquirer) :
    (setStage task stage frames).map (·.task) = frames.map (·.task) := by
  simp only [setStage, List.map_map]
  congr 1
  funext frame
  simp only [Function.comp_apply]
  split <;> rfl

private theorem setStage_split {frames : List Acquirer} (nodup : (frames.map (·.task)).Nodup)
    {frame : Acquirer} (mem : frame ∈ frames) (stage : Stage) :
    ∃ pre post, frames = pre ++ frame :: post ∧
      setStage frame.task stage frames = pre ++ { frame with stage } :: post := by
  obtain ⟨pre, post, rfl⟩ := List.append_of_mem mem
  refine ⟨pre, post, rfl, ?_⟩
  simp only [List.map_append, List.map_cons, List.nodup_append, List.nodup_cons] at nodup
  have keep : ∀ others : List Acquirer, frame.task ∉ others.map (·.task) →
      others.map (fun other => if other.task = frame.task then { other with stage } else other) =
        others := fun others fresh =>
    (List.map_congr_left fun other mem =>
      if_neg fun same : other.task = frame.task => fresh (same ▸ List.mem_map_of_mem _ mem)).trans
      (List.map_id' _)
  simp only [setStage, List.map_append, List.map_cons, if_true,
    keep pre fun mem => nodup.2.2 mem (List.mem_cons_self _ _), keep post nodup.2.1.1]

/-- The frames the lock counts in `_reads_held` (for `read`) or in `_write_held` (for `write`). -/
def countedOf (type : WaiterType) (frames : List Acquirer) : Nat :=
  frames.countP fun frame => frame.type = type && frame.stage.counted

/-! ## Granting the longest-waiting frames -/

/-- The first `count` waiting frames, in call order, woken as granted. -/
def grantFirst : Nat → List Acquirer → List Acquirer
  | 0, frames => frames
  | _ + 1, [] => []
  | count + 1, frame :: frames =>
    if frame.stage = .waiting then { frame with stage := .granted } :: grantFirst count frames
    else frame :: grantFirst (count + 1) frames

private theorem grantFirst_cons_of_ne {frame : Acquirer} (other : frame.stage ≠ .waiting) (count : Nat)
    (frames : List Acquirer) :
    grantFirst count (frame :: frames) = frame :: grantFirst count frames := by
  cases count <;> simp [grantFirst, other]

private theorem grant_cons_of_not_mem {frame : Acquirer} {granted : List Waiter}
    (fresh : frame.task ∉ granted.map (·.task)) (frames : List Acquirer) :
    grant granted (frame :: frames) = frame :: grant granted frames := by
  simp only [grant, List.map_cons, if_neg fresh]

private theorem grant_of_not_mem {waiter : Waiter} {frames : List Acquirer}
    (fresh : waiter.task ∉ frames.map (·.task)) (granted : List Waiter) :
    grant (waiter :: granted) frames = grant granted frames := by
  refine List.map_congr_left fun frame mem => ?_
  have other : frame.task ≠ waiter.task := fun same => fresh (same ▸ List.mem_map_of_mem _ mem)
  simp [other]

private theorem grant_eq_grantFirst {frames : List Acquirer} (nodup : (frames.map (·.task)).Nodup)
    {granted rest : List Waiter}
    (queue : (frames.filter (·.stage = .waiting)).map Acquirer.waiter = granted ++ rest) :
    grant granted frames = grantFirst granted.length frames := by
  induction frames generalizing granted with
  | nil =>
    obtain rfl : granted = [] := (List.append_eq_nil.mp queue.symm).1
    rfl
  | cons frame frames ih =>
    simp only [List.map_cons, List.nodup_cons] at nodup
    by_cases waiting : frame.stage = .waiting
    · cases granted with
      | nil => simp [grant, grantFirst]
      | cons first granted =>
        simp only [List.filter_cons, waiting, decide_True, if_true, List.map_cons,
          List.cons_append, List.cons.injEq] at queue
        obtain ⟨rfl, queue⟩ := queue
        rw [grant, List.map_cons, ← grant, grant_of_not_mem nodup.1, ih nodup.2 queue]
        simp [grantFirst, waiting, Acquirer.waiter]
    · simp only [List.filter_cons, waiting, decide_False, Bool.false_eq_true, if_false] at queue
      have fresh : frame.task ∉ granted.map (·.task) := fun mem => by
        have queued : frame.task ∈
            ((frames.filter (·.stage = .waiting)).map Acquirer.waiter).map (·.task) := by
          rw [queue, List.map_append]
          exact List.mem_append_left _ mem
        simp only [List.map_map, Function.comp_def, Acquirer.waiter] at queued
        exact nodup.1 (List.map_subset _ (List.filter_subset' _) queued)
      rw [grant_cons_of_not_mem fresh, ih nodup.2 queue, grantFirst_cons_of_ne waiting]

@[simp] theorem map_task_grantFirst (count : Nat) (frames : List Acquirer) :
    (grantFirst count frames).map (·.task) = frames.map (·.task) := by
  induction frames generalizing count with
  | nil => cases count <;> rfl
  | cons frame frames ih =>
    cases count with
    | zero => rfl
    | succ count => by_cases waiting : frame.stage = .waiting <;> simp [grantFirst, waiting, ih]

private theorem filter_waiting_grantFirst (count : Nat) (frames : List Acquirer) :
    (grantFirst count frames).filter (·.stage = .waiting) =
      (frames.filter (·.stage = .waiting)).drop count := by
  induction frames generalizing count with
  | nil => cases count <;> rfl
  | cons frame frames ih =>
    cases count with
    | zero => rfl
    | succ count => by_cases waiting : frame.stage = .waiting <;> simp [grantFirst, waiting, ih]

private theorem countedOf_cons (type : WaiterType) (frame : Acquirer) (frames : List Acquirer) :
    countedOf type (frame :: frames) =
      countedOf type frames + if frame.type = type ∧ frame.stage.counted then 1 else 0 := by
  simp [countedOf, List.countP_cons]

private theorem countedOf_grantFirst (type : WaiterType) (count : Nat) (frames : List Acquirer) :
    countedOf type (grantFirst count frames) = countedOf type frames +
      ((frames.filter (·.stage = .waiting)).take count).countP (·.type = type) := by
  induction frames generalizing count with
  | nil => cases count <;> rfl
  | cons frame frames ih =>
    cases count with
    | zero => simp [grantFirst]
    | succ count =>
      by_cases waiting : frame.stage = .waiting
      · simp only [grantFirst, waiting, if_true, countedOf_cons, ih, List.filter_cons,
          decide_True, List.take_succ_cons, List.countP_cons, Stage.counted]
        split <;> simp_all
        omega
      · simp only [grantFirst, waiting, if_false, countedOf_cons, ih, List.filter_cons,
          decide_False, Bool.false_eq_true]
        omega

private theorem fifo_grantFirst {frames : List Acquirer}
    (fifo : frames.Pairwise fun earlier later =>
      earlier.stage = .waiting → later.stage.neverGranted) (count : Nat) :
    (grantFirst count frames).Pairwise fun earlier later =>
      earlier.stage = .waiting → later.stage.neverGranted := by
  induction frames generalizing count with
  | nil => cases count <;> exact List.Pairwise.nil
  | cons frame frames ih =>
    rw [List.pairwise_cons] at fifo
    cases count with
    | zero => exact List.pairwise_cons.mpr fifo
    | succ count =>
      by_cases waiting : frame.stage = .waiting
      · simp only [grantFirst, waiting, if_true]
        exact List.pairwise_cons.mpr ⟨by simp, ih fifo.2 count⟩
      · rw [grantFirst_cons_of_ne waiting]
        exact List.pairwise_cons.mpr ⟨fun _ _ w => absurd w waiting, ih fifo.2 _⟩

/-! ## Moving one frame -/

private theorem countedOf_append (type : WaiterType) (a b : List Acquirer) :
    countedOf type (a ++ b) = countedOf type a + countedOf type b :=
  List.countP_append _ _ _

private theorem countedOf_setStage {frames : List Acquirer} (nodup : (frames.map (·.task)).Nodup)
    {frame : Acquirer} (mem : frame ∈ frames) (stage : Stage) (type : WaiterType) :
    countedOf type (setStage frame.task stage frames) +
        (if frame.type = type ∧ frame.stage.counted then 1 else 0) =
      countedOf type frames + if frame.type = type ∧ stage.counted then 1 else 0 := by
  obtain ⟨pre, post, rfl, moved⟩ := setStage_split nodup mem stage
  rw [moved]
  simp only [countedOf_append, countedOf_cons]
  omega

private theorem waiting_setStage {stage : Stage} (moved : stage ≠ .waiting) (task : TaskId)
    (frames : List Acquirer) :
    (setStage task stage frames).filter (·.stage = .waiting) =
      (frames.filter (·.stage = .waiting)).filter (·.task ≠ task) := by
  induction frames with
  | nil => rfl
  | cons frame frames ih =>
    by_cases own : frame.task = task <;> by_cases waiting : frame.stage = .waiting <;>
      simp_all [setStage, List.filter_cons]

private theorem fifo_setStage {frames : List Acquirer}
    (fifo : frames.Pairwise fun earlier later =>
      earlier.stage = .waiting → later.stage.neverGranted)
    {task : TaskId} {stage : Stage} (moved : stage ≠ .waiting)
    (never : ∀ frame ∈ frames, frame.task = task → frame.stage.neverGranted → stage.neverGranted) :
    (setStage task stage frames).Pairwise fun earlier later =>
      earlier.stage = .waiting → later.stage.neverGranted := by
  refine List.pairwise_map.mpr (fifo.imp_of_mem fun {earlier later} _ memLater before => ?_)
  have laterNever := never later memLater
  by_cases own : later.task = task <;> by_cases early : earlier.task = task <;> simp_all

private theorem waiting_setStage_of_ne {frames : List Acquirer} (nodup : (frames.map (·.task)).Nodup)
    {frame : Acquirer} (mem : frame ∈ frames) (out : frame.stage ≠ .waiting) {stage : Stage}
    (moved : stage ≠ .waiting) :
    (setStage frame.task stage frames).filter (·.stage = .waiting) =
      frames.filter (·.stage = .waiting) := by
  rw [waiting_setStage moved]
  refine List.filter_eq_self.mpr fun other queued => ?_
  obtain ⟨memOther, waiting⟩ := List.mem_filter.mp queued
  have differ : other ≠ frame := fun same => out (same ▸ by simpa using waiting)
  simpa using fun same => differ (List.inj_on_of_nodup_map nodup memOther mem same)

/-! ## The invariant -/

namespace Acquisitions

/-- What every reachable state satisfies: the live queue holds the waiting frames in call order,
the counts are those of the frames the lock counts, a held write excludes reads, and no frame
behind a waiting one has ever been granted. -/
structure Invariant (acq : Acquisitions) : Prop where
  nodup : (acq.frames.map (·.task)).Nodup
  queue : live acq.lock.waiters = (acq.frames.filter (·.stage = .waiting)).map Acquirer.waiter
  reads : acq.lock.readsHeld = countedOf .read acq.frames
  writes : countedOf .write acq.frames = if acq.lock.writeHeld then 1 else 0
  exclusive : acq.lock.writeHeld = true → acq.lock.readsHeld = 0
  fifo : acq.frames.Pairwise fun earlier later =>
    earlier.stage = .waiting → later.stage.neverGranted

theorem invariant_init : init.Invariant :=
  ⟨List.nodup_nil, rfl, rfl, rfl, nofun, List.Pairwise.nil⟩

private theorem Invariant.resolve {acq : Acquisitions} (inv : acq.Invariant) : acq.resolve.Invariant := by
  obtain ⟨split, reads, writes, free, alone⟩ := resolveQueuedWaiters_spec acq.lock
  set granted := (resolveQueuedWaiters acq.lock).2
  have queue := inv.queue.symm.trans split
  have grantFirst_eq := grant_eq_grantFirst inv.nodup queue
  have taken : granted = ((acq.frames.filter (·.stage = .waiting)).take granted.length).map
      Acquirer.waiter := by
    rw [List.map_take, queue, List.take_left' rfl]
  have typed : ∀ type : WaiterType, granted.countP (·.type = type) =
      ((acq.frames.filter (·.stage = .waiting)).take granted.length).countP (·.type = type) := by
    intro type
    conv_lhs => rw [taken]
    exact List.countP_map _ _ _
  refine ⟨?_, ?_, ?_, ?_, ?_, ?_⟩
  · simpa [Acquisitions.resolve, grantFirst_eq] using inv.nodup
  · rw [Acquisitions.resolve, grantFirst_eq, filter_waiting_grantFirst, List.map_drop, queue,
      List.drop_left]
  · rw [Acquisitions.resolve, grantFirst_eq, countedOf_grantFirst, ← typed, ← inv.reads, reads,
      List.countP_eq_length_filter]
  · rw [Acquisitions.resolve, grantFirst_eq, countedOf_grantFirst, ← typed, inv.writes, writes]
    by_cases writer : ∃ waiter ∈ granted, waiter.type = .write
    · obtain ⟨waiter, mem, type⟩ := writer
      have held := free (by simp [(alone waiter mem type).2])
      rw [(alone waiter mem type).2]
      simp [held, type]
    · push_neg at writer
      rw [List.countP_eq_zero.mpr (by simpa using writer),
        List.any_eq_false.mpr (by simpa using writer)]
      simp
  · intro held
    simp only [Acquisitions.resolve, writes, Bool.or_eq_true] at held ⊢
    rw [reads]
    rcases held with held | writer
    · have none : granted = [] := by
        by_contra some
        simp [free some] at held
      simp [none, inv.exclusive held]
    · obtain ⟨waiter, mem, type⟩ := List.any_eq_true.mp writer
      replace type : waiter.type = .write := by simpa using type
      obtain ⟨zero, only⟩ := alone waiter mem type
      rw [only]
      simp [zero, type]
  · simpa [Acquisitions.resolve, grantFirst_eq] using fifo_grantFirst inv.fifo _

private theorem Invariant.move {acq : Acquisitions} (inv : acq.Invariant) {frame : Acquirer}
    (mem : frame ∈ acq.frames) {stage : Stage} (counted : frame.stage.counted = stage.counted)
    (never : frame.stage.neverGranted → stage.neverGranted) (out : frame.stage ≠ .waiting)
    (moved : stage ≠ .waiting) :
    { acq with frames := setStage frame.task stage acq.frames }.Invariant where
  nodup := by simpa using inv.nodup
  queue := by rw [inv.queue, waiting_setStage_of_ne inv.nodup mem out moved]
  reads := by
    have change := countedOf_setStage inv.nodup mem stage .read
    rw [← counted, inv.reads] at *
    simpa using change.symm
  writes := by
    have change := countedOf_setStage inv.nodup mem stage .write
    rw [← counted, ← inv.writes] at *
    simpa using change
  exclusive := inv.exclusive
  fifo := fifo_setStage inv.fifo moved fun other memOther same =>
    List.inj_on_of_nodup_map inv.nodup memOther mem same ▸ never

private theorem Invariant.append {acq : Acquisitions} (inv : acq.Invariant) {task : TaskId}
    (fresh : task ∉ acq.frames.map (·.task)) (type : WaiterType) :
    (⟨{ acq.lock with waiters := acq.lock.waiters ++ [⟨task, type, false⟩] },
      acq.frames ++ [⟨task, type, .waiting⟩]⟩ : Acquisitions).Invariant where
  nodup := by simpa [List.nodup_append, fresh] using inv.nodup
  queue := by
    rw [live_append, inv.queue]
    simp [live_cons, List.filter_append, Acquirer.waiter]
  reads := by simp [countedOf_append, countedOf_cons, Stage.counted, inv.reads, countedOf]
  writes := by simpa [countedOf_append, countedOf_cons, Stage.counted, countedOf] using inv.writes
  exclusive := inv.exclusive
  fifo := List.pairwise_append.mpr
    ⟨inv.fifo, List.pairwise_singleton _ _, by simp [Stage.neverGranted]⟩

private theorem Invariant.cancelWaiting {acq : Acquisitions} (inv : acq.Invariant) {frame : Acquirer}
    (mem : frame ∈ acq.frames) (waiting : frame.stage = .waiting) :
    (⟨{ acq.lock with waiters := cancelWaiter frame.task acq.lock.waiters },
      setStage frame.task (.cancelled false) acq.frames⟩ : Acquisitions).Invariant where
  nodup := by simpa using inv.nodup
  queue := by
    simp only [live_cancelWaiter, inv.queue,
      waiting_setStage (show Stage.cancelled false ≠ .waiting by simp), List.filter_map,
      Function.comp_def, Acquirer.waiter]
  reads := by
    have change := countedOf_setStage inv.nodup mem (.cancelled false) .read
    simp [waiting, Stage.counted] at change
    simpa [change] using inv.reads
  writes := by
    have change := countedOf_setStage inv.nodup mem (.cancelled false) .write
    simp [waiting, Stage.counted] at change
    simpa [change] using inv.writes
  exclusive := inv.exclusive
  fifo := fifo_setStage inv.fifo (show Stage.cancelled false ≠ .waiting by simp)
    fun _ _ _ _ => rfl

private theorem Invariant.release {acq : Acquisitions} (inv : acq.Invariant) {frame : Acquirer}
    (mem : frame ∈ acq.frames) (holding : frame.stage = .holding) :
    (⟨onRelease frame.type acq.lock, setStage frame.task .released acq.frames⟩ :
      Acquisitions).Invariant := by
  have reads := countedOf_setStage inv.nodup mem .released .read
  have writes := countedOf_setStage inv.nodup mem .released .write
  have count := inv.reads
  have held := inv.writes
  have free := inv.exclusive
  refine ⟨by simpa using inv.nodup, ?_, ?_, ?_, ?_, ?_⟩
  · rw [waiting_setStage_of_ne inv.nodup mem (by simp [holding])
      (show Stage.released ≠ .waiting by simp), ← inv.queue]
    cases frame.type <;> rfl
  · cases type : frame.type with
    | read => simp_all [onRelease, Stage.counted]; omega
    | write => simp_all [onRelease, Stage.counted]
  · cases type : frame.type <;> cases write : acq.lock.writeHeld <;>
      simp_all [onRelease, Stage.counted]
  · cases type : frame.type with
    | read => simp_all [onRelease]
    | write => simp [onRelease]
  · refine fifo_setStage inv.fifo (show Stage.released ≠ .waiting by simp)
      fun other memOther same => ?_
    rw [List.inj_on_of_nodup_map inv.nodup memOther mem same, holding]
    simp [Stage.neverGranted]

private theorem Invariant.enqueue {acq : Acquisitions} (inv : acq.Invariant) {task : TaskId}
    (fresh : task ∉ acq.frames.map (·.task)) (type : WaiterType) :
    (acq.enqueue task type).Invariant := by
  have resolved := (inv.append fresh type).resolve
  dsimp only [Acquisitions.enqueue]
  split
  · rename_i granted
    obtain ⟨frame, mem, rfl, stage⟩ := stageOf_eq_some granted
    exact resolved.move mem (show frame.stage.counted = Stage.holding.counted by simp [stage, Stage.counted])
      (by simp [stage, Stage.neverGranted]) (by simp [stage]) (by simp)
  · exact resolved

/-- Every step keeps the invariant. -/
theorem Invariant.step {acq acq' : Acquisitions} (inv : acq.Invariant) {action : LockAction}
    (stepped : acq.step action = some acq') : acq'.Invariant := by
  cases action with
  | acquire task type =>
    simp only [Acquisitions.step] at stepped
    split at stepped
    · cases stepped
    · cases stepped
      exact inv.enqueue ‹_› type
  | resume task =>
    simp only [Acquisitions.step] at stepped
    split at stepped
    · rename_i granted
      cases stepped
      obtain ⟨frame, mem, rfl, stage⟩ := stageOf_eq_some granted
      exact inv.move mem (show frame.stage.counted = Stage.holding.counted by
        simp [stage, Stage.counted])
        (by simp [stage, Stage.neverGranted]) (by simp [stage]) (by simp)
    · cases stepped
  | cancel task =>
    simp only [Acquisitions.step] at stepped
    split at stepped
    · rename_i waiting
      cases stepped
      obtain ⟨frame, mem, rfl, stage⟩ := stageOf_eq_some waiting
      exact inv.cancelWaiting mem stage
    · rename_i granted
      cases stepped
      obtain ⟨frame, mem, rfl, stage⟩ := stageOf_eq_some granted
      exact inv.move mem (show frame.stage.counted = (Stage.cancelled true).counted by
        simp [stage, Stage.counted]) (by simp [stage, Stage.neverGranted]) (by simp [stage]) (by simp)
    · cases stepped
  | unwind task =>
    simp only [Acquisitions.step] at stepped
    split at stepped
    · rename_i granted cancelled
      cases stepped
      obtain ⟨frame, mem, rfl, stage⟩ := stageOf_eq_some cancelled
      refine Invariant.resolve (inv.move mem ?_ ?_ (by simp [stage]) (by cases granted <;> simp))
      · cases granted <;> simp [stage, Stage.counted]
      · cases granted <;> simp [stage, Stage.neverGranted]
    · cases stepped
  | release task =>
    simp only [Acquisitions.step] at stepped
    split at stepped
    · rename_i found
      cases stepped
      obtain ⟨mem, rfl⟩ := frameOf_eq_some found
      exact (inv.release mem rfl).resolve
    · cases stepped

private theorem Invariant.run {acq acq' : Acquisitions} (inv : acq.Invariant) {actions : List LockAction}
    (ran : acq.run actions = some acq') : acq'.Invariant := by
  induction actions generalizing acq with
  | nil => exact Option.some.inj ran ▸ inv
  | cons action actions ih =>
    obtain ⟨next, stepped, rest⟩ := Option.bind_eq_some.mp ran
    exact ih (inv.step stepped) rest

private theorem Reachable.invariant {acq : Acquisitions} (reachable : acq.Reachable) : acq.Invariant :=
  let ⟨_, ran⟩ := reachable
  invariant_init.run ran

end Acquisitions

/-! ## The frame of one task across a step -/

/-- The task an action is taken by. -/
def LockAction.task : LockAction → TaskId
  | .acquire task _ | .resume task | .cancel task | .unwind task | .release task => task

private theorem frameOf_map {frames : List Acquirer} {move : Acquirer → Acquirer}
    (keep : ∀ frame, (move frame).task = frame.task) (task : TaskId) :
    frameOf (frames.map move) task = (frameOf frames task).map move := by
  simp only [frameOf, List.find?_map]
  congr 2
  funext frame
  simp [keep]

private theorem frameOf_setStage (moved : TaskId) (stage : Stage) (frames : List Acquirer)
    (task : TaskId) :
    frameOf (setStage moved stage frames) task = (frameOf frames task).map
      fun frame => if task = moved then { frame with stage } else frame := by
  rw [setStage, frameOf_map (by intro frame; split <;> rfl)]
  cases found : frameOf frames task with
  | none => rfl
  | some frame => simp [(frameOf_eq_some found).2]

private theorem frameOf_setStage_of_ne {moved task : TaskId} (other : task ≠ moved) (stage : Stage)
    (frames : List Acquirer) : frameOf (setStage moved stage frames) task = frameOf frames task := by
  rw [frameOf_setStage]
  cases frameOf frames task <;> simp [other]

private theorem frameOf_grant (granted : List Waiter) (frames : List Acquirer) (task : TaskId) :
    frameOf (grant granted frames) task = (frameOf frames task).map fun frame =>
      if task ∈ granted.map (·.task) then { frame with stage := .granted } else frame := by
  rw [grant, frameOf_map (by intro frame; split <;> rfl)]
  cases found : frameOf frames task with
  | none => rfl
  | some frame => simp [(frameOf_eq_some found).2]

private theorem frameOf_append_of_ne {frames : List Acquirer} {added : Acquirer} {task : TaskId}
    (other : added.task ≠ task) : frameOf (frames ++ [added]) task = frameOf frames task := by
  simp [frameOf, List.find?_append, List.find?_cons, other]

theorem frameOf_of_mem {frames : List Acquirer} (nodup : (frames.map (·.task)).Nodup)
    {frame : Acquirer} (mem : frame ∈ frames) : frameOf frames frame.task = some frame := by
  obtain ⟨found, find, own⟩ : ∃ found, frameOf frames frame.task = some found ∧
      found.task = frame.task := by
    cases find : frameOf frames frame.task with
    | none => simp [frameOf, List.find?_eq_none] at find; exact absurd rfl (find frame mem)
    | some found => exact ⟨found, rfl, (frameOf_eq_some find).2⟩
  rw [find, List.inj_on_of_nodup_map nodup (frameOf_eq_some find).1 mem own]

/-- `after` has the frame of `task` that `before` has, or has granted it from waiting. -/
def KeepsFrame (before after : List Acquirer) (task : TaskId) : Prop :=
  frameOf after task = frameOf before task ∨
    ∃ frame, frameOf before task = some frame ∧ frame.stage = .waiting ∧
      frameOf after task = some { frame with stage := .granted }

theorem frameOf_eq_none {frames : List Acquirer} {task : TaskId} :
    frameOf frames task = none ↔ task ∉ frames.map (·.task) := by
  simp [frameOf, List.find?_eq_none]

theorem frameOf_of_stageOf {frames : List Acquirer} {task : TaskId} {stage : Stage}
    (found : stageOf frames task = some stage) :
    ∃ frame, frameOf frames task = some frame ∧ frame.stage = stage :=
  Option.map_eq_some'.mp found

namespace Acquisitions

private theorem Invariant.waiting_of_granted {acq : Acquisitions} (inv : acq.Invariant) {task : TaskId}
    (granted : task ∈ (resolveQueuedWaiters acq.lock).2.map (·.task)) :
    stageOf acq.frames task = some .waiting := by
  obtain ⟨waiter, mem, rfl⟩ := List.mem_map.mp granted
  have live : waiter ∈ (acq.frames.filter (·.stage = .waiting)).map Acquirer.waiter := by
    rw [← inv.queue, (resolveQueuedWaiters_spec acq.lock).1]
    exact List.mem_append_left _ mem
  obtain ⟨frame, queued, rfl⟩ := List.mem_map.mp live
  obtain ⟨memFrame, waiting⟩ := List.mem_filter.mp queued
  simp [stageOf, Acquirer.waiter, frameOf_of_mem inv.nodup memFrame, by simpa using waiting]

private theorem Invariant.frameOf_resolve {acq : Acquisitions} (inv : acq.Invariant) (task : TaskId) :
    KeepsFrame acq.frames acq.resolve.frames task := by
  rw [KeepsFrame, Acquisitions.resolve, frameOf_grant]
  cases found : frameOf acq.frames task with
  | none => exact .inl rfl
  | some frame =>
    by_cases granted : task ∈ (resolveQueuedWaiters acq.lock).2.map (·.task)
    · have waiting := inv.waiting_of_granted granted
      rw [stageOf, found] at waiting
      exact .inr ⟨frame, rfl, Option.some.inj waiting, by simp [granted]⟩
    · exact .inl (by simp [granted])

private theorem Invariant.frameOf_resolve_of_ne {acq : Acquisitions} (inv : acq.Invariant) {task : TaskId}
    {frame : Acquirer} (found : frameOf acq.frames task = some frame)
    (notWaiting : frame.stage ≠ .waiting) : frameOf acq.resolve.frames task = some frame := by
  rcases inv.frameOf_resolve task with same | ⟨other, found', waiting, -⟩
  · rw [same, found]
  · rw [found] at found'
    cases found'
    exact absurd waiting notWaiting

private theorem Invariant.before_resolve {acq acq' : Acquisitions} (inv : acq.Invariant) {task : TaskId}
    (unwind : acq.step (.unwind task) = some acq' ∨ acq.step (.release task) = some acq') :
    ∃ before : Acquisitions, before.Invariant ∧ acq' = before.resolve ∧
      ∀ other, other ≠ task → frameOf before.frames other = frameOf acq.frames other := by
  rcases unwind with stepped | stepped <;> simp only [Acquisitions.step] at stepped <;>
    split at stepped <;> cases stepped
  · rename_i granted cancelled
    obtain ⟨frame, mem, rfl, stage⟩ := stageOf_eq_some cancelled
    refine ⟨_, inv.move mem ?_ ?_ (by simp [stage]) (by cases granted <;> simp), rfl,
      fun other ne => frameOf_setStage_of_ne ne _ _⟩
    · cases granted <;> simp [stage, Stage.counted]
    · cases granted <;> simp [stage, Stage.neverGranted]
  · rename_i found
    obtain ⟨mem, rfl⟩ := frameOf_eq_some found
    exact ⟨_, inv.release mem rfl, rfl, fun other ne => frameOf_setStage_of_ne ne _ _⟩

/-- A step leaves the frame of every other task alone, unless that frame was waiting and the
step's resolve granted it. -/
theorem Invariant.frameOf_step_other {acq acq' : Acquisitions} (inv : acq.Invariant)
    {action : LockAction} (stepped : acq.step action = some acq') {task : TaskId}
    (other : action.task ≠ task) : KeepsFrame acq.frames acq'.frames task := by
  cases action <;> simp only [LockAction.task] at other
  case acquire actor type =>
    simp only [Acquisitions.step] at stepped
    split at stepped
    · cases stepped
    · rename_i fresh
      cases stepped
      have queued := (inv.append fresh type).frameOf_resolve task
      rw [KeepsFrame, frameOf_append_of_ne other] at queued
      dsimp only [Acquisitions.enqueue]
      split <;> simpa only [KeepsFrame, frameOf_setStage_of_ne (Ne.symm other)] using queued
  case resume actor | cancel actor =>
    simp only [Acquisitions.step] at stepped
    split at stepped <;> cases stepped <;>
      exact .inl (frameOf_setStage_of_ne (Ne.symm other) _ _)
  case unwind actor =>
    obtain ⟨before, invBefore, rfl, same⟩ := inv.before_resolve (.inl stepped)
    simpa only [KeepsFrame, same task (Ne.symm other)] using invBefore.frameOf_resolve task
  case release actor =>
    obtain ⟨before, invBefore, rfl, same⟩ := inv.before_resolve (.inr stepped)
    simpa only [KeepsFrame, same task (Ne.symm other)] using invBefore.frameOf_resolve task

/-! ### The frame of the acting task -/

/-- `_acquire` adds a frame for a task that has none, and it is waiting or, when the waiter was
granted at once, holding. -/
theorem Invariant.frameOf_acquire {acq acq' : Acquisitions} (inv : acq.Invariant) {task : TaskId}
    {type : WaiterType} (stepped : acq.step (.acquire task type) = some acq') :
    frameOf acq.frames task = none ∧ ∃ stage, (stage = .waiting ∨ stage = .holding) ∧
      frameOf acq'.frames task = some ⟨task, type, stage⟩ := by
  simp only [Acquisitions.step] at stepped
  split at stepped
  · cases stepped
  · rename_i fresh
    cases stepped
    refine ⟨frameOf_eq_none.mpr fresh, ?_⟩
    have added : frameOf (acq.frames ++ [⟨task, type, .waiting⟩]) task =
        some ⟨task, type, .waiting⟩ := by
      have none := frameOf_eq_none.mpr fresh
      simp only [frameOf] at none
      simp [frameOf, List.find?_append, none]
    obtain ⟨frame, found, queued⟩ : ∃ frame, frameOf (Acquisitions.resolve ⟨{ acq.lock with
        waiters := acq.lock.waiters ++ [⟨task, type, false⟩] },
          acq.frames ++ [⟨task, type, .waiting⟩]⟩).frames task = some frame ∧
        (frame = ⟨task, type, .waiting⟩ ∨ frame = ⟨task, type, .granted⟩) := by
      rcases (inv.append fresh type).frameOf_resolve task with same | ⟨waiting, was, -, granted⟩
      · exact ⟨_, same.trans added, .inl rfl⟩
      · rw [added] at was
        cases was
        exact ⟨_, granted, .inr rfl⟩
    dsimp only [Acquisitions.enqueue]
    split
    · rename_i granted
      refine ⟨.holding, .inr rfl, ?_⟩
      rw [frameOf_setStage, found]
      rcases queued with rfl | rfl
      · simp [stageOf, found] at granted
      · simp
    · rename_i notGranted
      rcases queued with rfl | rfl
      · exact ⟨.waiting, .inl rfl, found⟩
      · exact absurd (by rw [stageOf, found]; rfl) notGranted

/-- The task wakes from a granted waiter and holds the lock. -/
theorem frameOf_resume {acq acq' : Acquisitions} {task : TaskId}
    (stepped : acq.step (.resume task) = some acq') :
    ∃ frame, frameOf acq.frames task = some frame ∧ frame.stage = .granted ∧
      frameOf acq'.frames task = some { frame with stage := .holding } := by
  simp only [Acquisitions.step] at stepped
  split at stepped
  · rename_i granted
    cases stepped
    obtain ⟨frame, found, stage⟩ := frameOf_of_stageOf granted
    exact ⟨frame, found, stage, by rw [frameOf_setStage, found]; simp⟩
  · cases stepped

/-- The task is cancelled at `await waiter`, before or after its waiter was granted. -/
theorem frameOf_cancel {acq acq' : Acquisitions} {task : TaskId}
    (stepped : acq.step (.cancel task) = some acq') :
    ∃ frame granted, frameOf acq.frames task = some frame ∧
      frame.stage = (if granted then .granted else .waiting) ∧
      frameOf acq'.frames task = some { frame with stage := .cancelled granted } := by
  simp only [Acquisitions.step] at stepped
  split at stepped <;> cases stepped
  · rename_i waiting
    obtain ⟨frame, found, stage⟩ := frameOf_of_stageOf waiting
    exact ⟨frame, false, found, stage, by rw [frameOf_setStage, found]; simp⟩
  · rename_i granted
    obtain ⟨frame, found, stage⟩ := frameOf_of_stageOf granted
    exact ⟨frame, true, found, stage, by rw [frameOf_setStage, found]; simp⟩

/-- The cancelled task leaves `_acquire` through the `except` branch. -/
theorem Invariant.frameOf_unwind {acq acq' : Acquisitions} (inv : acq.Invariant) {task : TaskId}
    (stepped : acq.step (.unwind task) = some acq') :
    ∃ frame granted, frameOf acq.frames task = some frame ∧ frame.stage = .cancelled granted ∧
      frameOf acq'.frames task =
        some { frame with stage := if granted then .abandoned else .withdrawn } := by
  simp only [Acquisitions.step] at stepped
  split at stepped
  · rename_i granted cancelled
    cases stepped
    obtain ⟨frame, found, stage⟩ := frameOf_of_stageOf cancelled
    obtain ⟨mem, rfl⟩ := frameOf_eq_some found
    have moved := inv.move mem
      (show frame.stage.counted = (if granted then Stage.abandoned else .withdrawn).counted by
        cases granted <;> simp [stage, Stage.counted])
      (by cases granted <;> simp [stage, Stage.neverGranted]) (by simp [stage])
      (by cases granted <;> simp)
    refine ⟨frame, granted, found, stage, moved.frameOf_resolve_of_ne ?_ ?_⟩
    · rw [frameOf_setStage, found]
      simp
    · cases granted <;> simp
  · cases stepped

/-- The holding task releases the lock in the `finally`. -/
theorem Invariant.frameOf_release {acq acq' : Acquisitions} (inv : acq.Invariant) {task : TaskId}
    (stepped : acq.step (.release task) = some acq') :
    ∃ frame, frameOf acq.frames task = some frame ∧ frame.stage = .holding ∧
      frameOf acq'.frames task = some { frame with stage := .released } := by
  simp only [Acquisitions.step] at stepped
  split at stepped
  · rename_i found
    cases stepped
    obtain ⟨mem, rfl⟩ := frameOf_eq_some found
    refine ⟨_, found, rfl, (inv.release mem rfl).frameOf_resolve_of_ne ?_ (by simp)⟩
    rw [frameOf_setStage, found]
    simp
  · cases stepped

end Acquisitions

/-! ## Runs without cancellation -/

private theorem mem_setStage {task : TaskId} {stage : Stage} {frames : List Acquirer} {frame : Acquirer}
    (mem : frame ∈ setStage task stage frames) : frame ∈ frames ∨ frame.stage = stage := by
  obtain ⟨old, memOld, rfl⟩ := List.mem_map.mp mem
  by_cases moved : old.task = task <;> simp [moved, memOld]

private theorem mem_grant {granted : List Waiter} {frames : List Acquirer} {frame : Acquirer}
    (mem : frame ∈ grant granted frames) : frame ∈ frames ∨ frame.stage = .granted := by
  obtain ⟨old, memOld, rfl⟩ := List.mem_map.mp mem
  by_cases moved : old.task ∈ granted.map (·.task) <;> simp only [moved, if_true, if_false] <;>
    simp [memOld]

private theorem exists_counted_of_pos {type : WaiterType} {frames : List Acquirer}
    (pos : 0 < countedOf type frames) : ∃ frame ∈ frames, frame.stage.counted := by
  obtain ⟨frame, mem, counted⟩ := List.countP_pos_iff.mp pos
  exact ⟨frame, mem, by simp_all⟩

namespace Acquisitions

/-- No frame was cancelled, and the lock has granted every waiter it can. -/
structure Calm (acq : Acquisitions) : Prop where
  resolved : Resolved acq.lock
  calm : ∀ frame ∈ acq.frames, frame.stage.calm

private theorem calm_resolve (acq : Acquisitions) (calm : ∀ frame ∈ acq.frames, frame.stage.calm) :
    acq.resolve.Calm where
  resolved := resolved_resolveQueuedWaiters acq.lock
  calm frame mem := (mem_grant mem).elim (calm frame) fun granted => by simp [granted, Stage.calm]

private theorem Calm.moveTo {acq : Acquisitions} (calm : acq.Calm) {task : TaskId} {stage : Stage}
    (calmStage : stage.calm) : { acq with frames := setStage task stage acq.frames }.Calm where
  resolved := calm.resolved
  calm frame mem := (mem_setStage mem).elim (calm.calm frame) fun moved => moved ▸ calmStage

/-- Without cancellation every step stays calm: `_resolve_queued_waiters` runs after every
change to the queue or the counts. -/
theorem Calm.step {acq acq' : Acquisitions} (calm : acq.Calm) {action : LockAction}
    (stepped : acq.step action = some acq') (uncancelled : ∀ task, action ≠ .cancel task) :
    acq'.Calm := by
  cases action with
  | acquire task type =>
    simp only [Acquisitions.step] at stepped
    split at stepped
    · cases stepped
    · cases stepped
      have appended : ∀ frame ∈ acq.frames ++ [⟨task, type, .waiting⟩], frame.stage.calm := by
        intro frame mem
        rcases List.mem_append.mp mem with old | new
        · exact calm.calm frame old
        · simp_all [Stage.calm]
      dsimp only [Acquisitions.enqueue]
      split
      · exact (calm_resolve _ appended).moveTo rfl
      · exact calm_resolve _ appended
  | resume task =>
    simp only [Acquisitions.step] at stepped
    split at stepped <;> cases stepped
    exact calm.moveTo rfl
  | cancel task => exact absurd rfl (uncancelled task)
  | unwind task =>
    simp only [Acquisitions.step] at stepped
    split at stepped
    · rename_i cancelled
      obtain ⟨frame, mem, -, stage⟩ := stageOf_eq_some cancelled
      simpa [stage, Stage.calm] using calm.calm frame mem
    · cases stepped
  | release task =>
    simp only [Acquisitions.step] at stepped
    split at stepped <;> cases stepped
    exact calm_resolve _ fun frame mem =>
      (mem_setStage mem).elim (calm.calm frame) fun released => by simp [released, Stage.calm]

/-- In a calm lock a waiting frame is held up by a granted or a holding one. -/
theorem Calm.blocker {acq : Acquisitions} (inv : acq.Invariant) (calm : acq.Calm)
    {frame : Acquirer} (mem : frame ∈ acq.frames) (waiting : frame.stage = .waiting) :
    ∃ holder ∈ acq.frames, holder.stage = .granted ∨ holder.stage = .holding := by
  have queued : live acq.lock.waiters ≠ [] := by
    rw [inv.queue]
    exact List.ne_nil_of_mem (List.mem_map_of_mem _ (List.mem_filter.mpr ⟨mem, by simp [waiting]⟩))
  obtain ⟨holder, memHolder, counted⟩ : ∃ holder ∈ acq.frames, holder.stage.counted := by
    rcases calm.resolved.held queued with held | reads
    · exact exists_counted_of_pos (show 0 < countedOf .write acq.frames by simp [inv.writes, held])
    · exact exists_counted_of_pos (by rwa [inv.reads] at reads)
  have calmHolder := calm.calm holder memHolder
  refine ⟨holder, memHolder, ?_⟩
  revert counted calmHolder
  cases holder.stage <;> simp [Stage.counted, Stage.calm]

end Acquisitions

/-! ## Exclusion, fairness and the leak -/

private theorem countedOf_pos {frames : List Acquirer} {frame : Acquirer} (mem : frame ∈ frames)
    (counted : frame.stage.counted) : 0 < countedOf frame.type frames :=
  List.countP_pos_iff.mpr ⟨frame, mem, by simp [counted]⟩

private theorem countedOf_two {frames : List Acquirer} {first second : Acquirer}
    (memFirst : first ∈ frames) (memSecond : second ∈ frames) (differ : first ≠ second)
    (same : first.type = second.type) (countedFirst : first.stage.counted)
    (countedSecond : second.stage.counted) : 2 ≤ countedOf first.type frames := by
  obtain ⟨pre, post, rfl⟩ := List.append_of_mem memFirst
  have other : second ∈ pre ++ post := by simpa [differ.symm] using memSecond
  have more : 0 < countedOf second.type (pre ++ post) := countedOf_pos other countedSecond
  rw [countedOf_append] at more ⊢
  rw [countedOf_cons, same]
  simp only [true_and, countedFirst, if_true]
  omega

/-- A counted writer is the only counted frame. -/
theorem Acquisitions.Invariant.writer_alone {acq : Acquisitions} (inv : acq.Invariant)
    {writer other : Acquirer} (memWriter : writer ∈ acq.frames) (memOther : other ∈ acq.frames)
    (write : writer.type = .write) (countedWriter : writer.stage.counted)
    (countedOther : other.stage.counted) : other.task = writer.task := by
  have held : acq.lock.writeHeld = true := by
    have writes := inv.writes
    have pos := countedOf_pos memWriter countedWriter
    rw [write] at pos
    by_contra free
    simp_all
  have alone : countedOf .write acq.frames = 1 := by simp [inv.writes, held]
  by_contra differ
  cases type : other.type
  · have reads := countedOf_pos memOther countedOther
    rw [type, ← inv.reads, inv.exclusive held] at reads
    exact absurd reads (lt_irrefl 0)
  · have two := countedOf_two memWriter memOther (fun same => differ (same ▸ rfl))
      (by rw [write, type]) countedWriter countedOther
    rw [write, alone] at two
    omega

/-- Per-path mutual exclusion and FIFO fairness, over every interleaving of acquisitions,
releases and cancellations: a granted writer that has not left `_acquire` is alone in that, and
no frame behind a waiting one (in call order, so in queue order) has ever been granted. -/
theorem exclusive_and_fifo {acq : Acquisitions} (reachable : acq.Reachable) :
    (∀ writer ∈ acq.frames, ∀ other ∈ acq.frames, writer.type = .write →
      writer.stage.inside → other.stage.inside → other.task = writer.task) ∧
    acq.frames.Pairwise fun earlier later =>
      earlier.stage = .waiting → later.stage.neverGranted :=
  have inv := reachable.invariant
  ⟨fun _ memWriter _ memOther write insideWriter insideOther =>
    inv.writer_alone memWriter memOther write (Stage.counted_of_inside insideWriter)
      (Stage.counted_of_inside insideOther), inv.fifo⟩

/-- A reader, a writer queued behind it and a reader queued behind the writer. -/
theorem exclusive_and_fifo_queued :
    ∃ acq, Acquisitions.init.run [.acquire 0 .read, .acquire 1 .write, .acquire 2 .read] = some acq ∧
      (∀ writer ∈ acq.frames, ∀ other ∈ acq.frames, writer.type = .write →
        writer.stage.inside → other.stage.inside → other.task = writer.task) ∧
      acq.frames.Pairwise fun earlier later =>
        earlier.stage = .waiting → later.stage.neverGranted :=
  ⟨_, rfl, exclusive_and_fifo ⟨[.acquire 0 .read, .acquire 1 .write, .acquire 2 .read], rfl⟩⟩

/-- The schedule at which a lock leaks: a writer holds the lock, a reader queues behind it, the
writer's release grants the reader, and the reader's task is cancelled before it resumes. -/
def leakingSchedule : List LockAction :=
  [.acquire 0 .write, .acquire 1 .read, .release 0, .cancel 1, .unwind 1]

/-- After the leaking schedule, no task is granted and inside `_acquire`, and yet `_reads_held`
is one. -/
theorem leakingSchedule_leaks :
    ∃ acq, Acquisitions.init.run leakingSchedule = some acq ∧ acq.lock.readsHeld = 1 ∧
      ∀ frame ∈ acq.frames, frame.stage.inside = false :=
  ⟨_, rfl, by decide, by decide⟩

/-! ## A lock every task has left -/

namespace Acquisitions

/-- Once every task has left `_acquire`, the lock counts exactly the frames cancelled after their
grant: it is free when, and only when, there are none. -/
theorem Invariant.free_iff {acq : Acquisitions} (inv : acq.Invariant)
    (left : ∀ frame ∈ acq.frames, frame.stage.left) :
    acq.lock.Free ↔ ∀ frame ∈ acq.frames, frame.stage ≠ .abandoned := by
  have queue : live acq.lock.waiters = [] := by
    rw [inv.queue, List.map_eq_nil_iff, List.filter_eq_nil_iff]
    intro frame mem waiting
    have out := left frame mem
    simp_all [Stage.left]
  have uncounted : ∀ type, (∀ frame ∈ acq.frames, frame.stage ≠ .abandoned) →
      countedOf type acq.frames = 0 := by
    intro type kept
    refine List.countP_eq_zero.mpr fun frame mem => ?_
    have out := left frame mem
    have kept := kept frame mem
    revert out kept
    cases frame.stage <;> simp [Stage.left, Stage.counted]
  have writes := inv.writes
  constructor
  · rintro ⟨-, reads, held⟩ frame mem abandoned
    have pos := countedOf_pos mem (by simp [abandoned, Stage.counted])
    cases type : frame.type
    · rw [type, ← inv.reads, reads] at pos
      exact lt_irrefl 0 pos
    · rw [type, writes, held] at pos
      exact lt_irrefl 0 pos
  · intro kept
    rw [uncounted .write kept] at writes
    refine ⟨queue, inv.reads.trans (uncounted .read kept), ?_⟩
    revert writes
    cases acq.lock.writeHeld <;> simp

/-- A new acquirer of a free lock is granted at once: its `_acquire` does not suspend. -/
theorem enqueue_free {acq : Acquisitions} (free : acq.lock.Free) {task : TaskId}
    (fresh : task ∉ acq.frames.map (·.task)) (type : WaiterType) :
    stageOf (acq.enqueue task type).frames task = some .holding := by
  have found : frameOf (acq.frames ++ [⟨task, type, .waiting⟩]) task =
      some ⟨task, type, .waiting⟩ := by
    have none : acq.frames.find? (·.task = task) = none :=
      List.find?_eq_none.mpr (by simpa using fresh)
    simp [frameOf, List.find?_append, none]
  have granted : stageOf (resolve ⟨{ acq.lock with waiters := acq.lock.waiters ++ [⟨task, type, false⟩] },
      acq.frames ++ [⟨task, type, .waiting⟩]⟩).frames task = some .granted := by
    simp [resolve, stageOf, frameOf_grant, found, @resolveQueuedWaiters_free _ free ⟨task, type, false⟩ rfl]
  obtain ⟨frame, find, stage⟩ := frameOf_of_stageOf granted
  simp [enqueue, stageOf, frameOf_setStage, find, stage]

end Acquisitions

/-- Once every task has left `_acquire`, the lock is free exactly when no task was cancelled
between its grant and its resuming, and then any new acquirer is granted at once. -/
theorem free_once_left {acq : Acquisitions} (reachable : acq.Reachable)
    (left : ∀ frame ∈ acq.frames, frame.stage.left) :
    (acq.lock.Free ↔ ∀ frame ∈ acq.frames, frame.stage ≠ .abandoned) ∧
      ((∀ frame ∈ acq.frames, frame.stage ≠ .abandoned) → ∀ task type,
        task ∉ acq.frames.map (·.task) →
        ∃ acq', acq.step (.acquire task type) = some acq' ∧ stageOf acq'.frames task = some .holding) :=
  have free := reachable.invariant.free_iff left
  ⟨free, fun kept task type fresh =>
    ⟨_, by simp [Acquisitions.step, fresh], Acquisitions.enqueue_free (free.mpr kept) fresh type⟩⟩

/-- A writer and a reader queued behind it both release. -/
def quietSchedule : List LockAction :=
  [.acquire 0 .write, .acquire 1 .read, .release 0, .resume 1, .release 1]

theorem quietSchedule_free :
    ∃ acq, Acquisitions.init.run quietSchedule = some acq ∧
      (∀ frame ∈ acq.frames, frame.stage.left) ∧
      (acq.lock.Free ↔ ∀ frame ∈ acq.frames, frame.stage ≠ .abandoned) ∧
      ((∀ frame ∈ acq.frames, frame.stage ≠ .abandoned) → ∀ task type,
        task ∉ acq.frames.map (·.task) →
        ∃ acq', acq.step (.acquire task type) = some acq' ∧ stageOf acq'.frames task = some .holding) :=
  ⟨_, rfl, by decide, free_once_left ⟨quietSchedule, rfl⟩ (by decide)⟩

end AioftpS3.Lock.Acquire

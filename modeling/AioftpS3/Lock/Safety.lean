import AioftpS3.Lock.Scopes
import Mathlib.Data.Finset.Max

/-!
What `_PathLock` is for. Two tasks are never in their bodies together when one of them writes a
path that the other writes or reads, or writes an ancestor of such a path. And when no task is
cancelled the tasks never all wait on one another: some unfinished task can always move, because
every scope enters its locks in one global order, ancestors first.
-/

set_option autoImplicit false
set_option relaxedAutoImplicit false

namespace AioftpS3.Lock.Safety

open AioftpS3.PosixPath AioftpS3.Lock.Queue AioftpS3.Lock.Acquire AioftpS3.Lock.PathLock
  AioftpS3.Lock.Scopes

/-! ## Path-tree exclusion -/

private theorem holding_of_body {s : PathLockState} (inv : s.Invariant) {task : TaskId} {scope : Scope}
    (found : s.scopes[task]? = some scope) (body : scope.stage = .body) {path : PurePosixPath}
    {type : WaiterType} (mem : (path, type) ∈ scope.entries) :
    frameOf (s.locks path).frames task = some ⟨task, type, .holding⟩ := by
  obtain ⟨i, entry⟩ := List.mem_iff_getElem?.mp mem
  have expected := (inv.scopes task scope found).expected i path type entry
  simpa [Scope.Expects, Scope.entered, body, Scope.lt_of_entry entry] using expected

/-- A task in its body that writes `p` shuts out of their bodies every other task that writes
or reads a path `p` covers. -/
theorem not_covered {s : PathLockState} (inv : s.Invariant) {writer other : TaskId}
    {one two : Scope} (distinct : writer ≠ other) (foundOne : s.scopes[writer]? = some one)
    (foundTwo : s.scopes[other]? = some two) (bodyOne : one.stage = .body)
    (bodyTwo : two.stage = .body) {p q : PurePosixPath} (written : p ∈ one.writeTo)
    (mem : q ∈ two.writeTo ++ two.readFrom) (covers : p = q ∨ p ∈ q.parents) : False := by
  obtain ⟨type, entry⟩ := exists_mem_pathLockEntries mem covers
  have held := holding_of_body inv foundOne bodyOne (write_mem_pathLockEntries written)
  have heldOther := holding_of_body inv foundTwo bodyTwo entry
  exact distinct ((inv.locks p).writer_alone (frameOf_eq_some held).1
    (frameOf_eq_some heldOther).1 rfl rfl rfl).symm

/-- Path-tree exclusion: over every interleaving, two tasks are never both in their bodies when
a path one writes is, or is an ancestor of, a path the other writes or reads. -/
theorem bodies_exclusive {s : PathLockState} (reachable : s.Reachable) {first second : TaskId}
    {one two : Scope} (distinct : first ≠ second) (foundOne : s.scopes[first]? = some one)
    (foundTwo : s.scopes[second]? = some two) (bodyOne : one.stage = .body)
    (bodyTwo : two.stage = .body) :
    ¬ ((∃ p ∈ one.writeTo, ∃ q ∈ two.writeTo ++ two.readFrom, p = q ∨ p ∈ q.parents) ∨
      ∃ q ∈ two.writeTo, ∃ p ∈ one.writeTo ++ one.readFrom, q = p ∨ q ∈ p.parents) := by
  have inv := reachable.invariant
  rintro (⟨p, written, q, mem, covers⟩ | ⟨q, written, p, mem, covers⟩)
  · exact not_covered inv distinct foundOne foundTwo bodyOne bodyTwo written mem covers
  · exact not_covered inv (Ne.symm distinct) foundTwo foundOne bodyTwo bodyOne written mem covers

/-- Two tasks that read the root. -/
def sharedReads : List PathAction :=
  [.call [] [.root], .call [] [.root], .enter 0, .enter 0, .enter 1, .enter 1]

/-- Both readers of the root are in their bodies at once. -/
theorem sharedReads_exclusive :
    ∃ s, PathLockState.init.run sharedReads = some s ∧ ∃ one two,
      s.scopes[0]? = some one ∧ s.scopes[1]? = some two ∧ one.stage = .body ∧
      two.stage = .body ∧
      ¬ ((∃ p ∈ one.writeTo, ∃ q ∈ two.writeTo ++ two.readFrom, p = q ∨ p ∈ q.parents) ∨
        ∃ q ∈ two.writeTo, ∃ p ∈ one.writeTo ++ one.readFrom, q = p ∨ q ∈ p.parents) :=
  ⟨_, rfl, _, _, rfl, rfl, rfl, rfl,
    bodies_exclusive ⟨sharedReads, rfl⟩ (show (0 : TaskId) ≠ 1 by decide) rfl rfl rfl rfl⟩

/-! ## Runs without cancellation -/

private theorem step_locks {s s' : PathLockState} {action : PathAction}
    (stepped : s.step action = some s') :
    s'.locks = s.locks ∨
      (∃ path lockAction acq, (s.locks path).step lockAction = some acq ∧
        s'.locks = Function.update s.locks path acq ∧
        ∀ task, lockAction = .cancel task → action = .cancel task) ∨
      ∃ path, s'.locks = Function.update s.locks path .init := by
  have onLock : ∀ {path lockAction next}, s.onLock path lockAction = some next →
      (∀ task, lockAction = .cancel task → action = .cancel task) →
      ∃ path lockAction acq, (s.locks path).step lockAction = some acq ∧
        next.locks = Function.update s.locks path acq ∧
        ∀ task, lockAction = .cancel task → action = .cancel task := by
    intro path lockAction next stepped cancel
    obtain ⟨acq, lockStep, rfl⟩ := PathLockState.onLock_eq_some stepped
    exact ⟨path, lockAction, acq, lockStep, rfl, cancel⟩
  cases action <;> simp only [PathLockState.step] at stepped
  case call => cases stepped; exact .inl rfl
  case collect path =>
    split at stepped
    · cases stepped
    · cases stepped
      exact .inr (.inr ⟨path, rfl⟩)
  case exit task =>
    split at stepped <;> cases stepped
    exact .inl rfl
  case cancel task =>
    split at stepped
    · split at stepped
      · exact .inr (.inl (onLock stepped (by simp)))
      · cases stepped
    · cases stepped
  case enter task =>
    split at stepped
    · split at stepped
      · cases stepped
        exact .inl rfl
      · obtain ⟨next, lockStepped, rfl⟩ := Option.map_eq_some'.mp stepped
        obtain ⟨path, lockAction, acq, lockStep, locks, cancel⟩ := onLock lockStepped (by simp)
        exact .inr (.inl ⟨path, lockAction, acq, lockStep, locks, cancel⟩)
    · cases stepped
  case resume task | unwind task =>
    split at stepped
    · split at stepped
      · obtain ⟨next, lockStepped, rfl⟩ := Option.map_eq_some'.mp stepped
        obtain ⟨path, lockAction, acq, lockStep, locks, cancel⟩ := onLock lockStepped (by simp)
        exact .inr (.inl ⟨path, lockAction, acq, lockStep, locks, cancel⟩)
      · cases stepped
    · cases stepped
  case release task =>
    split at stepped
    · cases stepped
      exact .inl rfl
    · split at stepped
      · obtain ⟨next, lockStepped, rfl⟩ := Option.map_eq_some'.mp stepped
        obtain ⟨path, lockAction, acq, lockStep, locks, cancel⟩ := onLock lockStepped (by simp)
        exact .inr (.inl ⟨path, lockAction, acq, lockStep, locks, cancel⟩)
      · cases stepped
    · cases stepped

private theorem calm_init : Acquisitions.init.Calm := ⟨rfl, nofun⟩

/-- Without cancellation every lock of the map stays calm. -/
theorem calm_step {s s' : PathLockState} (calm : ∀ path, (s.locks path).Calm)
    {action : PathAction} (stepped : s.step action = some s')
    (uncancelled : ∀ task, action ≠ .cancel task) : ∀ path, (s'.locks path).Calm := by
  rcases step_locks stepped with same | ⟨path, lockAction, acq, lockStep, locks, cancel⟩ |
    ⟨path, locks⟩
  · rw [same]
    exact calm
  · intro other
    rw [locks]
    by_cases same : other = path
    · subst same
      simpa using (calm other).step lockStep fun task eq => uncancelled task (cancel task eq)
    · simpa [same] using calm other
  · intro other
    rw [locks]
    by_cases same : other = path
    · subst same
      simpa using calm_init
    · simpa [same] using calm other

/-- A state reached without cancellation keeps the invariant, and every lock in it is calm. -/
theorem invariant_calm {s : PathLockState} (reachable : s.ReachableUncancelled) :
    s.Invariant ∧ ∀ path, (s.locks path).Calm := by
  obtain ⟨actions, uncancelled, ran⟩ := reachable
  suffices run : ∀ {s : PathLockState}, s.Invariant → (∀ path, (s.locks path).Calm) →
      ∀ {s'}, s.run actions = some s' → s'.Invariant ∧ ∀ path, (s'.locks path).Calm from
    run PathLockState.invariant_init (fun _ => calm_init) ran
  clear ran
  induction actions with
  | nil => exact fun inv calm _ ran => Option.some.inj ran ▸ ⟨inv, calm⟩
  | cons action actions ih =>
    intro s inv calm s' ran
    obtain ⟨next, stepped, rest⟩ := Option.bind_eq_some.mp ran
    exact ih (fun other mem => uncancelled other (List.mem_cons_of_mem _ mem)) (inv.step stepped)
      (calm_step calm stepped (uncancelled action (List.mem_cons_self _ _))) rest

/-! ## Deadlock freedom -/

private theorem acquiringPath_eq_some {s : PathLockState} {task : TaskId} {path : PurePosixPath}
    (acquiring : s.acquiringPath task = some path) :
    ∃ scope k type, s.scopes[task]? = some scope ∧ scope.stage = .acquiring k ∧
      scope.entries[k]? = some (path, type) := by
  unfold PathLockState.acquiringPath at acquiring
  split at acquiring
  · rename_i writeTo readFrom k found
    obtain ⟨⟨path', type⟩, entry, rfl⟩ := Option.map_eq_some'.mp acquiring
    exact ⟨_, k, type, found, rfl, entry⟩
  · cases acquiring

private theorem acquiringPath_of {s : PathLockState} {task : TaskId} {scope : Scope} {k : Nat}
    {path : PurePosixPath} {type : WaiterType} (found : s.scopes[task]? = some scope)
    (acquiring : scope.stage = .acquiring k) (entry : scope.entries[k]? = some (path, type)) :
    s.acquiringPath task = some path := by
  obtain ⟨writeTo, readFrom, stage⟩ := scope
  subst acquiring
  simp only [PathLockState.acquiringPath, found, Scope.entries_mk] at entry ⊢
  simp [entry]

private theorem frame_position {s : PathLockState} (inv : s.Invariant) {path : PurePosixPath}
    {frame : Acquirer} (mem : frame ∈ (s.locks path).frames) :
    ∃ scope i type, s.scopes[frame.task]? = some scope ∧ scope.entries[i]? = some (path, type) ∧
      scope.Expects frame.task i type (some frame) := by
  have found := frameOf_of_mem (inv.locks path).nodup mem
  cases known : s.scopes[frame.task]? with
  | none =>
    have beyond := List.getElem?_eq_none_iff.mp known
    rw [inv.unknown path frame.task beyond] at found
    cases found
  | some scope =>
    have frames := inv.scopes frame.task scope known
    obtain ⟨⟨path', type⟩, mem', rfl⟩ := List.mem_map.mp (frames.owned path frame found)
    obtain ⟨i, entry⟩ := List.mem_iff_getElem?.mp mem'
    exact ⟨scope, i, type, rfl, entry, found ▸ frames.expected i _ type entry⟩

/-- The key of the lock a task is acquiring. -/
def awaitedKey (s : PathLockState) (task : TaskId) : WithBot (Lex (Nat × Str)) :=
  (s.acquiringPath task).map sortKey

/-- Without cancellation, some unfinished task is not waiting: the task waiting on the lock with
the largest key is held up by a task that has entered that lock, and which, entering its locks
in key order, can only be waiting on a larger one. -/
theorem exists_not_waiting {s : PathLockState} (inv : s.Invariant)
    (calm : ∀ path, (s.locks path).Calm) (unfinished : ∃ scope ∈ s.scopes, scope.stage ≠ .done) :
    ∃ task scope, s.scopes[task]? = some scope ∧ scope.stage ≠ .done ∧ ¬ s.Waiting task := by
  classical
  by_contra stuck
  push_neg at stuck
  obtain ⟨first, memFirst, unfinishedFirst⟩ := unfinished
  obtain ⟨index, foundFirst⟩ := List.mem_iff_getElem?.mp memFirst
  let waiting := (Finset.range s.scopes.length).filter s.Waiting
  have memWaiting : ∀ {task scope}, s.scopes[task]? = some scope → scope.stage ≠ .done →
      task ∈ waiting := fun found unfinished =>
    Finset.mem_filter.mpr ⟨Finset.mem_range.mpr (List.getElem?_eq_some_iff.mp found).1,
      stuck _ _ found unfinished⟩
  obtain ⟨top, memTop, largest⟩ := Finset.exists_max_image waiting (awaitedKey s)
    ⟨index, memWaiting foundFirst unfinishedFirst⟩
  obtain ⟨path, acquiringTop, waitingTop⟩ := (Finset.mem_filter.mp memTop).2
  obtain ⟨frame, foundTop, stageTop⟩ := frameOf_of_stageOf waitingTop
  obtain ⟨holder, memHolder, grantedOrHolding⟩ :=
    (calm path).blocker (inv.locks path) (frameOf_eq_some foundTop).1 stageTop
  obtain ⟨scope, i, type, found, entry, expects⟩ := frame_position inv memHolder
  unfold Scope.Expects at expects
  split_ifs at expects with entered
  · -- the holder has entered the lock, so it waits on a later one, with a larger key
    have unfinishedHolder : scope.stage ≠ .done := fun done => by
      simp [Scope.entered, done] at entered
    obtain ⟨later, acquiringHolder, -⟩ := stuck _ _ found unfinishedHolder
    obtain ⟨scope', k, type', found', acquiring, entry'⟩ := acquiringPath_eq_some acquiringHolder
    rw [found] at found'
    cases found'
    have before : i < k := by simpa [Scope.entered, acquiring] using entered
    have larger := sortKey_lt_of_index_lt before entry entry'
    have atMost := largest holder.task (memWaiting found unfinishedHolder)
    simp only [awaitedKey, acquiringHolder, acquiringTop, Option.map_some'] at atMost
    exact absurd (WithBot.coe_le_coe.mp atMost) (not_le.mpr larger)
  · split at expects
    · cases expects
    · rename_i k acquiring
      split_ifs at expects with current
      · -- the holder is granted this very lock and has not woken yet
        subst current
        obtain ⟨later, acquiringHolder, waitingHolder⟩ := stuck _ _ found (by simp [acquiring])
        rw [acquiringPath_of found acquiring entry] at acquiringHolder
        cases acquiringHolder
        rw [stageOf, frameOf_of_mem (inv.locks path).nodup memHolder] at waitingHolder
        have waitingStage : holder.stage = .waiting := Option.some.inj waitingHolder
        rw [waitingStage] at grantedOrHolding
        simp at grantedOrHolding
    · have left := expects holder rfl
      rcases grantedOrHolding with stage | stage <;> simp [stage, Stage.left] at left

private theorem waiting_or_granted {stage : Stage} (pending : stage.pending) (calm : stage.calm) :
    stage = .waiting ∨ stage = .granted := by
  cases stage <;> simp_all [Stage.pending, Stage.calm]

/-- In a calm state an unfinished task that is not waiting can take a step: enter its next lock
or its body, wake with its granted lock, leave its body, or release a lock. -/
theorem can_step {s : PathLockState} (inv : s.Invariant) (calm : ∀ path, (s.locks path).Calm)
    {task : TaskId} {scope : Scope} (found : s.scopes[task]? = some scope)
    (unfinished : scope.stage ≠ .done) (notWaiting : ¬ s.Waiting task) :
    ∃ action ∈ [PathAction.enter task, .resume task, .exit task, .release task],
      ∃ s', s.step action = some s' := by
  have frames := inv.scopes task scope found
  have entryAt : ∀ {k}, k < scope.entries.length →
      ∃ path type, scope.entries[k]? = some (path, type) := fun bound =>
    ⟨_, _, List.getElem?_eq_getElem bound⟩
  obtain ⟨writeTo, readFrom, stage⟩ := scope
  cases stage with
  | entering k =>
    refine ⟨.enter task, by simp, ?_⟩
    cases entry : (pathLockEntries writeTo readFrom)[k]? with
    | none => exact Option.isSome_iff_exists.mp (by simp [PathLockState.step, found, entry])
    | some lock =>
      obtain ⟨path, type⟩ := lock
      have fresh := frames.expected k path type entry
      simp only [Scope.Expects, Scope.entered, lt_irrefl, if_false] at fresh
      exact Option.isSome_iff_exists.mp (by
        simp [PathLockState.step, PathLockState.onLock, Acquisitions.step, found, entry,
          frameOf_eq_none.mp fresh])
  | acquiring k =>
    refine ⟨.resume task, by simp, ?_⟩
    obtain ⟨path, type, entry⟩ := entryAt frames.bounded
    have expected := frames.expected k path type entry
    simp only [Scope.Expects, Scope.entered, lt_irrefl, if_false, if_true] at expected
    obtain ⟨stage, pending, held⟩ := expected
    have calmStage := (calm path).calm _ (frameOf_eq_some held).1
    have granted : stage = .granted :=
      (waiting_or_granted pending calmStage).resolve_left fun waiting =>
        notWaiting ⟨path, acquiringPath_of found rfl entry, by simp [stageOf, held, waiting]⟩
    simp only [Scope.entries_mk] at entry
    exact Option.isSome_iff_exists.mp (by
      simp [PathLockState.step, PathLockState.onLock, Acquisitions.step, found, entry, stageOf,
        held, granted])
  | body =>
    exact ⟨.exit task, by simp, Option.isSome_iff_exists.mp (by simp [PathLockState.step, found])⟩
  | exiting k =>
    refine ⟨.release task, by simp, ?_⟩
    cases k with
    | zero => exact Option.isSome_iff_exists.mp (by simp [PathLockState.step, found])
    | succ k =>
      obtain ⟨path, type, entry⟩ := entryAt (Nat.lt_of_succ_le frames.bounded)
      have holding := frames.expected k path type entry
      simp only [Scope.Expects, Scope.entered, Nat.lt_succ_self, if_true] at holding
      simp only [Scope.entries_mk] at entry
      exact Option.isSome_iff_exists.mp (by
        simp [PathLockState.step, PathLockState.onLock, Acquisitions.step, found, entry, holding])
  | done => exact absurd rfl unfinished

/-- Deadlock freedom: every scope enters its paths in strictly increasing `sortKey` order, and in
every state reached without cancellation some unfinished task is not waiting and can step. -/
theorem deadlock_free :
    (∀ writeTo readFrom : List PurePosixPath,
      (pathLockEntries writeTo readFrom).Pairwise fun a b => sortKey a.1 < sortKey b.1) ∧
    (∀ ancestor path : PurePosixPath, ancestor ∈ path.parents → sortKey ancestor < sortKey path) ∧
    ∀ s : PathLockState, s.ReachableUncancelled → (∃ scope ∈ s.scopes, scope.stage ≠ .done) →
      ∃ task scope, s.scopes[task]? = some scope ∧ scope.stage ≠ .done ∧ ¬ s.Waiting task ∧
        ∃ action ∈ [PathAction.enter task, .resume task, .exit task, .release task],
          ∃ s', s.step action = some s' := by
  refine ⟨pathLockEntries_sorted, fun _ _ => sortKey_lt_of_mem_parents, fun s reachable unfinished => ?_⟩
  obtain ⟨inv, calm⟩ := invariant_calm reachable
  obtain ⟨task, scope, found, unfinishedTask, notWaiting⟩ := exists_not_waiting inv calm unfinished
  exact ⟨task, scope, found, unfinishedTask, notWaiting, can_step inv calm found unfinishedTask notWaiting⟩

/-- A task that writes the root, and a task that then asks to read it. -/
def writerThenReader : List PathAction :=
  [.call [.root] [], .call [] [.root], .enter 0, .enter 1]

/-- The reader waits for the writer, and the writer can move on. -/
theorem writerThenReader_moves :
    ∃ s, PathLockState.init.run writerThenReader = some s ∧ s.Waiting 1 ∧
      ∃ task scope, s.scopes[task]? = some scope ∧ scope.stage ≠ .done ∧ ¬ s.Waiting task ∧
        ∃ action ∈ [PathAction.enter task, .resume task, .exit task, .release task],
          ∃ s', s.step action = some s' :=
  ⟨_, rfl, ⟨.root, rfl, rfl⟩, deadlock_free.2.2 _
    ⟨writerThenReader, by simp [writerThenReader], rfl⟩ ⟨_, List.mem_cons_self _ _, by decide⟩⟩

/-! ## A path lock every scope has left -/

private theorem left_of_finished {s : PathLockState} (inv : s.Invariant)
    (finished : ∀ scope ∈ s.scopes, scope.stage = .done) (path : PurePosixPath) :
    ∀ frame ∈ (s.locks path).frames, frame.stage.left := by
  intro frame mem
  obtain ⟨scope, i, type, found, -, expects⟩ := frame_position inv mem
  have done := finished scope (List.mem_iff_getElem?.mpr ⟨_, found⟩)
  simp only [Scope.Expects, Scope.entered, done, Nat.not_lt_zero, if_false] at expects
  exact expects frame rfl

/-- Without cancellation, once every scope has finished every lock is free. -/
theorem free_of_finished {s : PathLockState} (reachable : s.ReachableUncancelled)
    (finished : ∀ scope ∈ s.scopes, scope.stage = .done) (path : PurePosixPath) :
    (s.locks path).lock.Free := by
  obtain ⟨inv, calm⟩ := invariant_calm reachable
  refine ((inv.locks path).free_iff (left_of_finished inv finished path)).mpr
    fun frame mem abandoned => ?_
  have calmFrame := (calm path).calm frame mem
  simp [abandoned, Stage.calm] at calmFrame

private theorem step_enter_free {s : PathLockState} {task : TaskId} {writeTo readFrom : List PurePosixPath}
    {k : Nat} {path : PurePosixPath} {type : WaiterType}
    (found : s.scopes[task]? = some ⟨writeTo, readFrom, .entering k⟩)
    (entry : (pathLockEntries writeTo readFrom)[k]? = some (path, type))
    (free : (s.locks path).lock.Free) (fresh : task ∉ (s.locks path).frames.map (·.task)) :
    ∃ s', s.step (.enter task) = some s' ∧
      s'.scopes = s.scopes.set task ⟨writeTo, readFrom, .entering (k + 1)⟩ ∧
      ∀ other, other ≠ path → s'.locks other = s.locks other :=
  ⟨PathLockState.withStage
      { s with locks := Function.update s.locks path ((s.locks path).enqueue task type) }
      task ⟨writeTo, readFrom, .entering k⟩ (.entering (k + 1)),
    by simp [PathLockState.step, PathLockState.onLock, Acquisitions.step, found, entry, fresh,
      Acquisitions.enqueue_free free fresh type],
    rfl, fun other distinct => by simp [PathLockState.withStage, distinct]⟩

private theorem run_enter_free {writeTo readFrom : List PurePosixPath} {task : TaskId} :
    ∀ (n : Nat) (s : PathLockState) (k : Nat), (pathLockEntries writeTo readFrom).length = k + n →
      s.scopes[task]? = some ⟨writeTo, readFrom, .entering k⟩ →
      (∀ i path type, k ≤ i → (pathLockEntries writeTo readFrom)[i]? = some (path, type) →
        (s.locks path).lock.Free ∧ task ∉ (s.locks path).frames.map (·.task)) →
      ∃ s', s.run (List.replicate (n + 1) (.enter task)) = some s' ∧
        s'.scopes[task]? = some ⟨writeTo, readFrom, .body⟩
  | 0, s, k, length, found, _ => by
    have none : (pathLockEntries writeTo readFrom)[k]? = none := List.getElem?_eq_none (by omega)
    have lt := (List.getElem?_eq_some_iff.mp found).1
    exact ⟨s.withStage task ⟨writeTo, readFrom, .entering k⟩ .body,
      by simp [PathLockState.run, PathLockState.step, found, none],
      by simp [PathLockState.withStage, lt]⟩
  | n + 1, s, k, length, found, free => by
    obtain ⟨⟨path, type⟩, entry⟩ : ∃ entry, (pathLockEntries writeTo readFrom)[k]? = some entry :=
      ⟨_, List.getElem?_eq_getElem (by omega)⟩
    obtain ⟨freeLock, fresh⟩ := free k path type le_rfl entry
    obtain ⟨next, stepped, scopes, others⟩ := step_enter_free found entry freeLock fresh
    have lt := (List.getElem?_eq_some_iff.mp found).1
    obtain ⟨s', ran, body⟩ := @run_enter_free writeTo readFrom task n next (k + 1) (by omega)
      (by simp [scopes, lt]) fun i path' type' later entry' => by
        have other : path' ≠ path := fun same => by
          subst same
          have := Scope.index_eq
            (show (Scope.mk writeTo readFrom (.entering k)).entries[i]? = _ from entry') entry
          omega
        rw [others path' other]
        exact free i path' type' (by omega) entry'
    exact ⟨s', by rw [List.replicate_succ, PathLockState.run, stepped]; exact ran, body⟩

/-- Without cancellation no lock of a `_PathLock` leaks. Over every interleaving in which no
task is cancelled, once every scope has finished each path's lock is free, and a new scope on
any paths enters its body in one step per lock and one more, waiting at none of them. -/
theorem finished_scopes_free {s : PathLockState} (reachable : s.ReachableUncancelled)
    (finished : ∀ scope ∈ s.scopes, scope.stage = .done) :
    (∀ path, (s.locks path).lock.Free) ∧ ∀ writeTo readFrom : List PurePosixPath, ∃ s',
      s.run (.call writeTo readFrom ::
          List.replicate ((pathLockEntries writeTo readFrom).length + 1) (.enter s.scopes.length)) =
        some s' ∧ s'.scopes[s.scopes.length]? = some ⟨writeTo, readFrom, .body⟩ := by
  have free := free_of_finished reachable finished
  have inv := (invariant_calm reachable).1
  refine ⟨free, fun writeTo readFrom => ?_⟩
  obtain ⟨s', ran, body⟩ := @run_enter_free writeTo readFrom s.scopes.length
    (pathLockEntries writeTo readFrom).length
    { s with scopes := s.scopes ++ [⟨writeTo, readFrom, .entering 0⟩] } 0 (Nat.zero_add _).symm
    (by simp)
    fun _ path _ _ _ => ⟨free path, frameOf_eq_none.mp (inv.unknown path _ le_rfl)⟩
  exact ⟨s', ran, body⟩

/-- A task writes the root and finishes. -/
def quietRoot : List PathAction :=
  [.call [.root] [], .enter 0, .enter 0, .exit 0, .release 0, .release 0]

theorem quietRoot_free :
    ∃ s, PathLockState.init.run quietRoot = some s ∧ (∀ scope ∈ s.scopes, scope.stage = .done) ∧
      (∀ path, (s.locks path).lock.Free) ∧ ∀ writeTo readFrom : List PurePosixPath, ∃ s',
        s.run (.call writeTo readFrom ::
            List.replicate ((pathLockEntries writeTo readFrom).length + 1) (.enter s.scopes.length)) =
          some s' ∧ s'.scopes[s.scopes.length]? = some ⟨writeTo, readFrom, .body⟩ :=
  ⟨_, rfl, by decide, finished_scopes_free ⟨quietRoot, by simp [quietRoot], rfl⟩ (by decide)⟩

/-! ## Every interleaving can be completed -/

/-- The work a scope has left: two steps for each lock still to enter, its body, and a release
for each lock it holds. -/
def remaining (scope : Scope) : Nat :=
  match scope.stage with
  | .entering k => 2 * (scope.entries.length - k) + scope.entries.length + 3
  | .acquiring k => 2 * (scope.entries.length - k) + scope.entries.length + 2
  | .body => scope.entries.length + 2
  | .exiting k => k + 1
  | .done => 0

/-- A task's own step moves its scope alone, and lowers the work the scope has left. -/
theorem remaining_step {s s' : PathLockState} {task : TaskId} {action : PathAction}
    (own : action ∈ [PathAction.enter task, .resume task, .exit task, .release task])
    (stepped : s.step action = some s') :
    ∃ scope stage, s.scopes[task]? = some scope ∧
      s'.scopes = s.scopes.set task { scope with stage } ∧
      remaining { scope with stage } < remaining scope := by
  have bound : ∀ {scope : Scope} {k entry}, scope.entries[k]? = some entry →
      k < scope.entries.length := fun entry => (List.getElem?_eq_some_iff.mp entry).1
  simp only [List.mem_cons, List.mem_singleton, List.not_mem_nil, or_false] at own
  rcases own with rfl | rfl | rfl | rfl <;> simp only [PathLockState.step] at stepped <;>
    split at stepped
  case inl.h_2 | inr.inl.h_2 | inr.inr.inl.h_2 | inr.inr.inr.h_3 => cases stepped
  -- leaving the body, and the release that finishes the scope
  case inr.inr.inl.h_1 found | inr.inr.inr.h_1 found =>
    cases stepped
    exact ⟨_, _, found, rfl, by simp [remaining]⟩
  -- entering the body, or the next lock
  case inl.h_1 found =>
    split at stepped
    · cases stepped
      exact ⟨_, _, found, rfl, by simp [remaining]; omega⟩
    · rename_i entry
      obtain ⟨next, lockStepped, rfl⟩ := Option.map_eq_some'.mp stepped
      obtain ⟨_, _, rfl⟩ := PathLockState.onLock_eq_some lockStepped
      have lt := bound entry
      simp only [Scope.entries_mk] at lt
      exact ⟨_, _, found, rfl, by split <;> simp only [remaining, Scope.entries_mk] <;> omega⟩
  -- waking with the lock granted
  case inr.inl.h_1 found =>
    split at stepped
    · rename_i entry
      obtain ⟨next, lockStepped, rfl⟩ := Option.map_eq_some'.mp stepped
      obtain ⟨_, _, rfl⟩ := PathLockState.onLock_eq_some lockStepped
      have lt := bound entry
      simp only [Scope.entries_mk] at lt
      exact ⟨_, _, found, rfl, by simp [remaining]; omega⟩
    · cases stepped
  -- releasing a lock
  case inr.inr.inr.h_2 found =>
    split at stepped
    · obtain ⟨next, lockStepped, rfl⟩ := Option.map_eq_some'.mp stepped
      obtain ⟨_, _, rfl⟩ := PathLockState.onLock_eq_some lockStepped
      exact ⟨_, _, found, rfl, by simp [remaining]⟩
    · cases stepped

/-- The work every scope has left. -/
def work : List Scope → Nat
  | [] => 0
  | scope :: scopes => remaining scope + work scopes

/-- Moving one scope to a stage with less work left lowers the total. -/
theorem work_set_lt {scopes : List Scope} {i : Nat} {scope scope' : Scope}
    (found : scopes[i]? = some scope) (lower : remaining scope' < remaining scope) :
    work (scopes.set i scope') < work scopes := by
  induction scopes generalizing i with
  | nil => cases found
  | cons head tail ih =>
    cases i with
    | zero =>
      obtain rfl := Option.some.inj (List.getElem?_cons_zero.symm.trans found)
      simp only [List.set_cons_zero, work]
      omega
    | succ i =>
      have lower := ih (List.getElem?_cons_succ.symm.trans found)
      simp only [List.set_cons_succ, work]
      omega

/-- From a calm state, the unfinished tasks' own steps finish every scope: some unfinished task
can always step (`exists_not_waiting`, `can_step`), and each step lowers the work left. -/
theorem drain_calm : ∀ (left : Nat) {s : PathLockState}, work s.scopes = left →
    s.Invariant → (∀ path, (s.locks path).Calm) →
    ∃ actions : List PathAction,
      (∀ action ∈ actions, ∃ task, action ∈ [.enter task, .resume task, .exit task, .release task]) ∧
      ∃ s', s.run actions = some s' ∧ ∀ scope ∈ s'.scopes, scope.stage = .done := by
  intro left
  induction left using Nat.strong_induction_on with
  | _ left ih =>
    intro s total inv calm
    by_cases finished : ∀ scope ∈ s.scopes, scope.stage = .done
    · exact ⟨[], by simp, s, rfl, finished⟩
    push_neg at finished
    obtain ⟨task, scope, found, unfinished, notWaiting⟩ := exists_not_waiting inv calm finished
    obtain ⟨action, own, next, stepped⟩ := can_step inv calm found unfinished notWaiting
    obtain ⟨scope', stage, found', scopes, lower⟩ := remaining_step own stepped
    have uncancelled : ∀ task', action ≠ .cancel task' := by
      intro task' cancel
      subst cancel
      simp at own
    obtain ⟨actions, steps, s', ran, done⟩ :=
      ih _ (total ▸ scopes ▸ work_set_lt found' lower) rfl (inv.step stepped)
        (calm_step calm stepped uncancelled)
    refine ⟨action :: actions, ?_, s', by simp [PathLockState.run, stepped, ran], done⟩
    rintro other (_ | ⟨_, mem⟩)
    · exact ⟨task, own⟩
    · exact steps other mem

/-- From every state reached without cancellation, the tasks' own steps alone finish every
scope, and every lock is then free. -/
theorem uncancelled_completes {s : PathLockState} (reachable : s.ReachableUncancelled) :
    ∃ actions : List PathAction,
      (∀ action ∈ actions, ∃ task, action ∈ [.enter task, .resume task, .exit task, .release task]) ∧
      ∃ s', s.run actions = some s' ∧ (∀ scope ∈ s'.scopes, scope.stage = .done) ∧
        ∀ path, (s'.locks path).lock.Free := by
  obtain ⟨inv, calm⟩ := invariant_calm reachable
  obtain ⟨actions, steps, s', ran, done⟩ := drain_calm _ rfl inv calm
  obtain ⟨before, uncancelled, start⟩ := reachable
  have reached : s'.ReachableUncancelled := by
    refine ⟨before ++ actions, fun action mem task cancel => ?_, by
      rw [PathLockState.run_append, start]
      exact ran⟩
    rcases List.mem_append.mp mem with old | new
    · exact uncancelled action old task cancel
    · obtain ⟨task', own⟩ := steps action new
      subst cancel
      simp at own
  exact ⟨actions, steps, s', ran, done, free_of_finished reached done⟩

/-- A writer of the root and a reader of the root that has called and waits behind it. -/
def writerThenReaderWaiting : List PathAction :=
  [.call [.root] [], .call [] [.root], .enter 0, .enter 1]

theorem writerThenReader_completes :
    ∃ s, PathLockState.init.run writerThenReaderWaiting = some s ∧ s.ReachableUncancelled ∧
      ∃ actions : List PathAction,
        (∀ action ∈ actions, ∃ task, action ∈ [.enter task, .resume task, .exit task, .release task]) ∧
        ∃ s', s.run actions = some s' ∧ (∀ scope ∈ s'.scopes, scope.stage = .done) ∧
          ∀ path, (s'.locks path).lock.Free :=
  ⟨_, rfl, ⟨writerThenReaderWaiting, by simp [writerThenReaderWaiting], rfl⟩,
    uncancelled_completes ⟨writerThenReaderWaiting, by simp [writerThenReaderWaiting], rfl⟩⟩

end AioftpS3.Lock.Safety

import Mathlib.Data.List.Basic

/-!
`_ReadWriteLock`, the per-path lock. Its state is a FIFO queue of waiter futures, a count of
granted reads and a flag for a granted write. `_resolve_queued_waiters` grants every read waiter
at the head of the queue unless a write is held, and then one write waiter if nothing is held;
cancelled waiters are dropped whenever a pass meets them. Both passes read the queue through the
generator `_pop_queued_waiters`, which the read pass runs until it stops and the write pass
resumes only once.
-/

set_option autoImplicit false
set_option relaxedAutoImplicit false

namespace AioftpS3.Lock.Queue

/-- `_ReadWaiter` and `_WriteWaiter`, the two classes of waiter future. -/
inductive WaiterType
  | read
  | write
deriving DecidableEq, Repr

/-- Tasks are told apart by a number. -/
abbrev TaskId := Nat

/-- A waiter future in `_waiters`: the task that awaits it, its class, and `cancelled()`. A future
whose result is set has left the queue already. -/
structure Waiter where
  task : TaskId
  type : WaiterType
  cancelled : Bool
deriving DecidableEq, Repr

/-- `_ReadWriteLock`: `_waiters`, `_reads_held` and `_write_held`. -/
structure ReadWriteLock where
  waiters : List Waiter
  readsHeld : Nat
  writeHeld : Bool
deriving DecidableEq, Repr

/-- `_ReadWriteLock()`. -/
def ReadWriteLock.init : ReadWriteLock := ⟨[], 0, false⟩

/-- `_pop_queued_waiters(waiter_type)` run until it stops: it pops the cancelled waiters it meets,
pops and yields the live waiters of `waiterType`, and stops at a live waiter of the other class.
The result is the yielded waiters and the queue left behind. -/
def popQueuedWaiters (waiterType : WaiterType) : List Waiter → List Waiter × List Waiter
  | [] => ([], [])
  | waiter :: waiters =>
    if waiter.cancelled then popQueuedWaiters waiterType waiters
    else if waiter.type = waiterType then
      let rest := popQueuedWaiters waiterType waiters
      (waiter :: rest.1, rest.2)
    else ([], waiter :: waiters)

/-- `_pop_queued_waiters(waiter_type)` resumed once, as the write pass's `for ... break` does: the
first waiter it yields, if any, and the queue left behind. -/
def popFirstQueuedWaiter (waiterType : WaiterType) : List Waiter → Option Waiter × List Waiter
  | [] => (none, [])
  | waiter :: waiters =>
    if waiter.cancelled then popFirstQueuedWaiter waiterType waiters
    else if waiter.type = waiterType then (some waiter, waiters)
    else (none, waiter :: waiters)

/-- The read pass of `_resolve_queued_waiters`, with the waiters it sets a result on. -/
def resolveReads (lock : ReadWriteLock) : ReadWriteLock × List Waiter :=
  if lock.writeHeld then (lock, [])
  else
    let popped := popQueuedWaiters .read lock.waiters
    ({ lock with waiters := popped.2, readsHeld := lock.readsHeld + popped.1.length }, popped.1)

/-- The write pass of `_resolve_queued_waiters`, with the waiter it sets a result on. -/
def resolveWrite (lock : ReadWriteLock) : ReadWriteLock × List Waiter :=
  if !lock.writeHeld && lock.readsHeld = 0 then
    let popped := popFirstQueuedWaiter .write lock.waiters
    ({ lock with waiters := popped.2, writeHeld := popped.1.isSome }, popped.1.toList)
  else (lock, [])

/-- `_resolve_queued_waiters`: the lock after both passes, and every waiter granted, in order. -/
def resolveQueuedWaiters (lock : ReadWriteLock) : ReadWriteLock × List Waiter :=
  let reads := resolveReads lock
  let write := resolveWrite reads.1
  (write.1, reads.2 ++ write.2)

/-- `_on_read_release` and `_on_write_release`. Python's count cannot go below zero on a
reachable state, which the invariant of the acquirers shows. -/
def onRelease : WaiterType → ReadWriteLock → ReadWriteLock
  | .read, lock => { lock with readsHeld := lock.readsHeld - 1 }
  | .write, lock => { lock with writeHeld := false }

/-- `Future.cancel()` on the waiter of `task`, which stays in the queue. -/
def cancelWaiter (task : TaskId) (waiters : List Waiter) : List Waiter :=
  waiters.map fun waiter => if waiter.task = task then { waiter with cancelled := true } else waiter

/-! ## What the passes grant -/

/-- The waiters not cancelled, in queue order. -/
def live (waiters : List Waiter) : List Waiter := waiters.filter (!·.cancelled)

@[simp] theorem live_nil : live [] = [] := rfl

theorem live_cons (waiter : Waiter) (waiters : List Waiter) :
    live (waiter :: waiters) =
      if waiter.cancelled then live waiters else waiter :: live waiters := by
  cases h : waiter.cancelled <;> simp [live, h]

@[simp] theorem live_append (a b : List Waiter) : live (a ++ b) = live a ++ live b :=
  List.filter_append _ _

private theorem popQueuedWaiters_spec (waiterType : WaiterType) (waiters : List Waiter) :
    live waiters = (popQueuedWaiters waiterType waiters).1 ++
        live (popQueuedWaiters waiterType waiters).2 ∧
      (∀ waiter ∈ (popQueuedWaiters waiterType waiters).1, waiter.type = waiterType) ∧
      ∀ waiter ∈ (live (popQueuedWaiters waiterType waiters).2).head?,
        waiter.type ≠ waiterType := by
  induction waiters with
  | nil => simp [popQueuedWaiters]
  | cons waiter waiters ih =>
    by_cases cancelled : waiter.cancelled
    · simpa [popQueuedWaiters, cancelled, live_cons] using ih
    · by_cases same : waiter.type = waiterType
      · simpa [popQueuedWaiters, cancelled, same, live_cons] using ih
      · simp [popQueuedWaiters, cancelled, same, live_cons]

private theorem popFirstQueuedWaiter_spec (waiterType : WaiterType) (waiters : List Waiter) :
    live waiters = (popFirstQueuedWaiter waiterType waiters).1.toList ++
        live (popFirstQueuedWaiter waiterType waiters).2 ∧
      (popFirstQueuedWaiter waiterType waiters).1 =
        (live waiters).head?.filter (·.type = waiterType) := by
  induction waiters with
  | nil => simp [popFirstQueuedWaiter]
  | cons waiter waiters ih =>
    by_cases cancelled : waiter.cancelled
    · simpa [popFirstQueuedWaiter, cancelled, live_cons] using ih
    · by_cases same : waiter.type = waiterType
      · simp [popFirstQueuedWaiter, cancelled, same, live_cons, Option.filter]
      · simp [popFirstQueuedWaiter, cancelled, same, live_cons, Option.filter]

private theorem resolveReads_spec (lock : ReadWriteLock) :
    live lock.waiters = (resolveReads lock).2 ++ live (resolveReads lock).1.waiters ∧
      (resolveReads lock).1.readsHeld = lock.readsHeld + (resolveReads lock).2.length ∧
      (resolveReads lock).1.writeHeld = lock.writeHeld ∧
      (∀ waiter ∈ (resolveReads lock).2, waiter.type = .read) ∧
      ((resolveReads lock).2 ≠ [] → lock.writeHeld = false) := by
  unfold resolveReads
  split
  · simp
  · obtain ⟨split, same, -⟩ := popQueuedWaiters_spec .read lock.waiters
    simp_all

private theorem resolveWrite_spec (lock : ReadWriteLock) :
    live lock.waiters = (resolveWrite lock).2 ++ live (resolveWrite lock).1.waiters ∧
      (resolveWrite lock).1.readsHeld = lock.readsHeld ∧
      (resolveWrite lock).1.writeHeld = (lock.writeHeld || !(resolveWrite lock).2.isEmpty) ∧
      (∀ waiter ∈ (resolveWrite lock).2, waiter.type = .write ∧ (resolveWrite lock).2 = [waiter]) ∧
      ((resolveWrite lock).2 ≠ [] → lock.writeHeld = false ∧ lock.readsHeld = 0) := by
  unfold resolveWrite
  split
  · rename_i free
    simp only [Bool.and_eq_true, Bool.not_eq_true', decide_eq_true_eq] at free
    obtain ⟨split, first⟩ := popFirstQueuedWaiter_spec .write lock.waiters
    generalize popFirstQueuedWaiter .write lock.waiters = popped at split first ⊢
    obtain ⟨_ | writer, rest⟩ := popped
    · simpa [free.1] using split
    · have type : writer.type = .write := by
        cases head : (live lock.waiters).head? <;> simp_all [Option.filter]
      simpa [free, type] using split
  · simp

/-- What `_resolve_queued_waiters` does: it grants a prefix of the live queue; the reads it grants
needed no write held, and a write it grants needed nothing held and is granted alone. -/
theorem resolveQueuedWaiters_spec (lock : ReadWriteLock) :
    live lock.waiters =
        (resolveQueuedWaiters lock).2 ++ live (resolveQueuedWaiters lock).1.waiters ∧
      (resolveQueuedWaiters lock).1.readsHeld =
        lock.readsHeld + ((resolveQueuedWaiters lock).2.filter (·.type = .read)).length ∧
      (resolveQueuedWaiters lock).1.writeHeld =
        (lock.writeHeld || (resolveQueuedWaiters lock).2.any (·.type = .write)) ∧
      ((resolveQueuedWaiters lock).2 ≠ [] → lock.writeHeld = false) ∧
      ∀ waiter ∈ (resolveQueuedWaiters lock).2, waiter.type = .write →
        lock.readsHeld = 0 ∧ (resolveQueuedWaiters lock).2 = [waiter] := by
  obtain ⟨splitR, countR, heldR, readR, freeR⟩ := resolveReads_spec lock
  obtain ⟨splitW, countW, heldW, writeW, freeW⟩ := resolveWrite_spec (resolveReads lock).1
  simp only [resolveQueuedWaiters]
  refine ⟨by rw [splitR, splitW, List.append_assoc], ?_, ?_, ?_, ?_⟩
  · rw [countW, countR, List.filter_append,
      List.filter_eq_self.mpr (fun w mem => by simp [readR w mem]),
      List.filter_eq_nil_iff.mpr (fun w mem => by simp [(writeW w mem).1]), List.length_append]
    rfl
  · have writes : (resolveWrite (resolveReads lock).1).2.any (·.type = .write) =
        !(resolveWrite (resolveReads lock).1).2.isEmpty := by
      cases granted : (resolveWrite (resolveReads lock).1).2 with
      | nil => rfl
      | cons waiter rest => simp [(writeW waiter (by simp [granted])).1]
    rw [heldW, heldR, List.any_append, writes,
      List.any_eq_false.mpr (fun w mem => by simp [readR w mem]), Bool.false_or]
  · intro granted
    cases reads : (resolveReads lock).2 with
    | nil => simpa [heldR, reads] using (freeW (by simpa [reads] using granted)).1
    | cons waiter rest => exact freeR (by simp [reads])
  · intro waiter mem write
    rcases List.mem_append.mp mem with mem | mem
    · exact absurd (readR waiter mem) (by simp [write])
    · have only := (writeW waiter mem).2
      have free := (freeW (by simp [only])).2
      rw [countR] at free
      have reads : (resolveReads lock).2 = [] := List.eq_nil_of_length_eq_zero (by omega)
      exact ⟨by omega, by simp [reads, only]⟩

/-- Cancelling a task's waiter takes it out of the live queue. -/
theorem live_cancelWaiter (task : TaskId) (waiters : List Waiter) :
    live (cancelWaiter task waiters) = (live waiters).filter (·.task ≠ task) := by
  induction waiters with
  | nil => rfl
  | cons waiter waiters ih =>
    by_cases own : waiter.task = task <;> cases cancelled : waiter.cancelled <;>
      simp_all [cancelWaiter, live_cons]

/-! ## A resolved lock -/

/-- Nothing is left for `_resolve_queued_waiters` to grant. -/
def Resolved (lock : ReadWriteLock) : Prop := (resolveQueuedWaiters lock).2 = []

private theorem resolved_iff (lock : ReadWriteLock) :
    Resolved lock ↔ lock.writeHeld = true ∨
      (∀ waiter ∈ (live lock.waiters).head?, waiter.type = .write) ∧
        (lock.readsHeld = 0 → live lock.waiters = []) := by
  cases held : lock.writeHeld
  · obtain ⟨split, same, stop⟩ := popQueuedWaiters_spec .read lock.waiters
    simp only [Resolved, resolveQueuedWaiters, resolveReads, resolveWrite, held, split,
      Bool.false_eq_true, if_false, Bool.not_false, Bool.true_and, decide_eq_true_eq] at stop ⊢
    obtain ⟨-, first⟩ := popFirstQueuedWaiter_spec .write (popQueuedWaiters .read lock.waiters).2
    generalize popQueuedWaiters .read lock.waiters = popped at same stop first ⊢
    obtain ⟨_ | ⟨reader, reads⟩, rest⟩ := popped
    · cases queue : live rest with
      | nil => simp_all; split <;> rfl
      | cons waiter others =>
        have write : waiter.type = .write := by
          cases type : waiter.type <;> simp_all
        split <;> simp_all [Option.filter]
    · have read := same reader (List.mem_cons_self _ _)
      simp_all
  · simp [Resolved, resolveQueuedWaiters, resolveReads, resolveWrite, held]

/-- A resolved lock with a live waiter is held. -/
theorem Resolved.held {lock : ReadWriteLock} (resolved : Resolved lock)
    (waiting : live lock.waiters ≠ []) : lock.writeHeld = true ∨ 0 < lock.readsHeld := by
  rcases (resolved_iff lock).mp resolved with held | ⟨-, free⟩
  · exact .inl held
  · exact .inr (Nat.pos_of_ne_zero fun zero => waiting (free zero))

/-- `_resolve_queued_waiters` leaves nothing to grant. -/
theorem resolved_resolveQueuedWaiters (lock : ReadWriteLock) :
    Resolved (resolveQueuedWaiters lock).1 := by
  obtain ⟨-, -, heldR, -, -⟩ := resolveReads_spec lock
  obtain ⟨splitW, countW, heldW, -, -⟩ := resolveWrite_spec (resolveReads lock).1
  refine (resolved_iff _).mpr ?_
  simp only [resolveQueuedWaiters] at heldW ⊢
  cases held : (resolveWrite (resolveReads lock).1).1.writeHeld
  · have free : lock.writeHeld = false ∧ (resolveWrite (resolveReads lock).1).2 = [] := by
      cases granted : (resolveWrite (resolveReads lock).1).2 <;> simp_all
    have stop : ∀ waiter ∈ (live (resolveReads lock).1.waiters).head?, waiter.type ≠ .read := by
      simpa [resolveReads, free.1] using (popQueuedWaiters_spec .read lock.waiters).2.2
    rw [free.2, List.nil_append] at splitW
    rw [← splitW, countW]
    refine .inr ⟨fun waiter mem => ?_, fun zero => ?_⟩
    · cases type : waiter.type <;> simp_all
    · have ran := (popFirstQueuedWaiter_spec .write (resolveReads lock).1.waiters).2
      have granted := free.2
      simp only [resolveWrite, heldR, zero, Bool.not_false, decide_True, Bool.and_self,
        if_true] at granted
      cases queue : live (resolveReads lock).1.waiters with
      | nil => rfl
      | cons waiter others =>
        have write : waiter.type = .write := by
          have := stop waiter (by simp [queue])
          cases type : waiter.type <;> simp_all
        rw [queue] at ran
        simp [ran, Option.filter, write, free.1] at granted
  · exact .inl rfl

/-! ## A free lock -/

/-- Nothing is held and no waiter is live. -/
def ReadWriteLock.Free (lock : ReadWriteLock) : Prop :=
  live lock.waiters = [] ∧ lock.readsHeld = 0 ∧ lock.writeHeld = false

/-- A free lock grants a live waiter appended to its queue at once, of either class. -/
theorem resolveQueuedWaiters_free {lock : ReadWriteLock} (free : lock.Free) {waiter : Waiter}
    (notCancelled : waiter.cancelled = false) :
    (resolveQueuedWaiters { lock with waiters := lock.waiters ++ [waiter] }).2 = [waiter] := by
  have queue : live (lock.waiters ++ [waiter]) = [waiter] := by
    rw [live_append, free.1]
    simp [live, notCancelled]
  have granted : ¬ Resolved { lock with waiters := lock.waiters ++ [waiter] } := by
    simp [resolved_iff, free.2, queue]
  have split := (resolveQueuedWaiters_spec { lock with waiters := lock.waiters ++ [waiter] }).1
  rw [queue] at split
  cases popped : (resolveQueuedWaiters { lock with waiters := lock.waiters ++ [waiter] }).2 with
  | nil => exact absurd popped granted
  | cons first rest =>
    simp only [popped, List.cons_append, List.cons.injEq, List.nil_eq, List.append_eq_nil] at split
    obtain ⟨rfl, rfl, -⟩ := split
    rfl

end AioftpS3.Lock.Queue

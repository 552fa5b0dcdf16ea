import XconnCpp.Library.Lock
import XconnCpp.Library.Transition
import Mathlib.Data.Fintype.Basic
import Mathlib.Logic.Function.Basic

namespace XconnCpp.Pool

open Library Library.Lock Library.Transition

inductive Code (A : Type)
  | returned
  | threw
  | step (a : A) (rest : Code A)
  | enqueue (task rest : Code A)
  deriving DecidableEq

structure Job (A : Type) where
  number : ℕ
  code : Code A
  deriving DecidableEq

/-- The queue, and a record of what has happened: which tasks have been enqueued and how many, which
have left the queue, which have ended, and the steps that they have taken. -/
structure Ledger (A : Type) where
  tasks : List (Job A)
  enqueued : ℕ
  submitted : List (Code A)
  taken : List ℕ
  finished : List ℕ
  performed : List (ℕ × A)

structure Shared (T A : Type) extends Ledger A where
  queueMutex : Option T
  stop : Bool

inductive Enqueue (A : Type)
  | locking (task : Code A)
  | emplacing (task : Code A)
  | unlocking
  | notifying

inductive Worker (A : Type)
  | locking
  | testing
  | blocking
  | blocked
  | deciding
  | leaving
  | taking
  | unlocking (job : Job A)
  | running (job : Job A)
  | enqueueing (job : Job A) (call : Enqueue A)
  | returned

variable {T A : Type}

def Enqueue.advance (t : T) (s : Shared T A) : Enqueue A → Option (Enqueue A × Shared T A)
  | .locking task =>
    if s.queueMutex.isNone then some (.emplacing task, { s with queueMutex := some t }) else none
  | .emplacing task => some (.unlocking,
      { s with tasks := s.tasks ++ [⟨s.enqueued, task⟩], enqueued := s.enqueued + 1,
               submitted := s.submitted ++ [task] })
  | .unlocking => some (.notifying, { s with queueMutex := none })
  | .notifying => none

def Worker.advance (t : T) (s : Shared T A) : Worker A → Option (Worker A × Shared T A)
  | .locking => if s.queueMutex.isNone then some (.testing, { s with queueMutex := some t }) else none
  | .testing => some (if s.stop || !s.tasks.isEmpty then .deciding else .blocking, s)
  -- the mutex is released and the worker is blocked in one step
  | .blocking => some (.blocked, { s with queueMutex := none })
  | .blocked => none
  | .deciding => some (if s.stop && s.tasks.isEmpty then .leaving else .taking, s)
  | .leaving => some (.returned, { s with queueMutex := none })
  | .taking =>
    match s.tasks with
    | [] => none
    | job :: tasks => some (.unlocking job, { s with tasks := tasks, taken := s.taken ++ [job.number] })
  | .unlocking job => some (.running job, { s with queueMutex := none })
  | .running ⟨k, .returned⟩ => some (.locking, { s with finished := s.finished ++ [k] })
  -- the `std::packaged_task` keeps the exception for the future
  | .running ⟨k, .threw⟩ => some (.locking, { s with finished := s.finished ++ [k] })
  | .running ⟨k, .step a rest⟩ => some (.running ⟨k, rest⟩, { s with performed := s.performed ++ [(k, a)] })
  | .running ⟨k, .enqueue task rest⟩ => some (.enqueueing ⟨k, rest⟩ (.locking task), s)
  | .enqueueing job call => (call.advance t s).map fun (call, s) => (.enqueueing job call, s)
  | .returned => none

inductive Destructor
  | before
  | notifying
  | joining (k : ℕ)
  deriving DecidableEq

structure ThreadPool (n : ℕ) (C A : Type) extends Shared (Fin n ⊕ C) A where
  workers : Fin n → Worker A
  callers : C → Option (Enqueue A)
  destructor : Destructor

inductive Label (n : ℕ) (C A : Type)
  | worker (i : Fin n)
  | wake (i : Fin n)
  | call (c : C) (task : Code A)
  | caller (c : C)
  | notify (t : Fin n ⊕ C) (woken : Option (Fin n))
  | destructor

def Worker.isBlocked : Worker A → Bool
  | .blocked => true
  | _ => false

def Worker.isReturned : Worker A → Bool
  | .returned => true
  | _ => false

namespace ThreadPool

variable {n : ℕ} {C : Type}

def start : ThreadPool n C A where
  queueMutex := none
  stop := false
  tasks := []
  enqueued := 0
  submitted := []
  taken := []
  finished := []
  performed := []
  workers _ := .locking
  callers _ := none
  destructor := .before

def onlyWorker : Fin 1 := ⟨0, Nat.zero_lt_one⟩

def setWorker (s : ThreadPool n C A) (i : Fin n) (w : Worker A) : ThreadPool n C A :=
  { s with workers := Function.update s.workers i w }

def setShared (s : ThreadPool n C A) (q : Shared (Fin n ⊕ C) A) : ThreadPool n C A :=
  { s with toShared := q }

def wakeOne (s : ThreadPool n C A) : Option (Fin n) → Option (ThreadPool n C A)
  | some i => if (s.workers i).isBlocked then some (s.setWorker i .locking) else none
  | none => if ∀ i, (s.workers i).isBlocked = false then some s else none

def wakeAll (s : ThreadPool n C A) : ThreadPool n C A :=
  { s with workers := fun i => if (s.workers i).isBlocked then .locking else s.workers i }

section Updates

variable (s : ThreadPool n C A) (i : Fin n) (w : Worker A) (q : Shared (Fin n ⊕ C) A)

@[simp] theorem setWorker_toShared : (s.setWorker i w).toShared = s.toShared := rfl

@[simp] theorem setWorker_workers : (s.setWorker i w).workers = Function.update s.workers i w := rfl

@[simp] theorem setWorker_callers : (s.setWorker i w).callers = s.callers := rfl

@[simp] theorem setWorker_destructor : (s.setWorker i w).destructor = s.destructor := rfl

@[simp] theorem setShared_toShared : (s.setShared q).toShared = q := rfl

@[simp] theorem setShared_workers : (s.setShared q).workers = s.workers := rfl

@[simp] theorem setShared_callers : (s.setShared q).callers = s.callers := rfl

@[simp] theorem setShared_destructor : (s.setShared q).destructor = s.destructor := rfl

end Updates

variable [DecidableEq C]

def setCaller (s : ThreadPool n C A) (c : C) (call : Option (Enqueue A)) : ThreadPool n C A :=
  { s with callers := Function.update s.callers c call }

section Updates

variable (s : ThreadPool n C A) (c : C) (call : Option (Enqueue A))

@[simp] theorem setCaller_toShared : (s.setCaller c call).toShared = s.toShared := rfl

@[simp] theorem setCaller_workers : (s.setCaller c call).workers = s.workers := rfl

@[simp] theorem setCaller_callers : (s.setCaller c call).callers = Function.update s.callers c call := rfl

@[simp] theorem setCaller_destructor : (s.setCaller c call).destructor = s.destructor := rfl

end Updates

def notified (s : ThreadPool n C A) : Fin n ⊕ C → Option (ThreadPool n C A)
  | .inl i =>
    match s.workers i with
    | .enqueueing job .notifying => some (s.setWorker i (.running job))
    | _ => none
  | .inr c =>
    match s.callers c with
    | some .notifying => some (s.setCaller c none)
    | _ => none

variable [Fintype C]

def step (s : ThreadPool n C A) : Label n C A → Option (ThreadPool n C A)
  | .worker i => ((s.workers i).advance (.inl i) s.toShared).map fun (w, q) =>
      (s.setShared q).setWorker i w
  -- a spurious wake-up
  | .wake i => if (s.workers i).isBlocked then some (s.setWorker i .locking) else none
  | .call c task =>
    if s.destructor = .before ∧ (s.callers c).isNone then some (s.setCaller c (some (.locking task)))
    else none
  | .caller c =>
    (s.callers c).bind fun call => (call.advance (.inr c) s.toShared).map fun (call, q) =>
      (s.setShared q).setCaller c (some call)
  | .notify t woken => (s.notified t).bind fun s => s.wakeOne woken
  | .destructor =>
    match s.destructor with
    -- it begins when no call from outside is under way
    | .before =>
      if ∀ c, (s.callers c).isNone then some { s with stop := true, destructor := .notifying } else none
    | .notifying => some { s.wakeAll with destructor := .joining 0 }
    | .joining k =>
      if h : k < n then
        if (s.workers ⟨k, h⟩).isReturned then some { s with destructor := .joining (k + 1) } else none
      else none

end ThreadPool

end XconnCpp.Pool

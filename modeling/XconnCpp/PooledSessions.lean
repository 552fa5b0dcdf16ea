import XconnCpp.Destruction
import XconnCpp.HandlerCauses
import XconnCpp.PoolProgress
import XconnCpp.PoolTasks

namespace XconnCpp.Sessions

open Library Library.Program Library.Program.Prog Library.Transition Values
open Urls (TransportKind)
open Pool (ThreadPool Label Job Ledger Enqueue Worker)

variable {P E : Type} {n : ℕ}

section Code

/-- What the pool knows of a task that has at most `m` operations left. -/
def steps : ℕ → Pool.Code Unit
  | 0 => .returned
  | m + 1 => .step () (steps m)

theorem steps_injective : Function.Injective steps := by
  intro m
  induction m with
  | zero =>
    intro m' h
    cases m' with
    | zero => rfl
    | succ m' => cases h
  | succ m ih =>
    intro m' h
    cases m' with
    | zero => cases h
    | succ m' => exact congrArg Nat.succ (ih (Pool.Code.step.inj h).2)

/-- A session with the pool that it owns; `started` gives the threads that stand for its tasks in the
order in which the workers have taken them. -/
structure Pooled (n : ℕ) (P E : Type) where
  ending : Ending P E
  pool : ThreadPool n Unit Unit
  started : List ℕ

inductive PooledChoice (n : ℕ) (P E : Type)
  | session (l : EndingChoice P E)
  | enqueue
  | pool (l : Label n Unit Unit)

def PooledChoice.label? : PooledChoice n P E → Option (Label n Unit Unit)
  | .session _ => none
  -- a task has two operations at most, the call of its handler and the reply
  | .enqueue => some (.call () (steps 2))
  | .pool l => some l

def World.enqueues (w : World P E) : Bool :=
  match w.receiver with
  | .op (.enqueue _) _ => true
  | _ => false

def Ending.joined (e : Ending P E) : Bool :=
  match e.destructor, e.world.receiver with
  | .pure _, .pure false => true
  | _, _ => false

def EndingChoice.starts (w : World P E) : EndingChoice P E → List ℕ
  | .world .work => [w.threads.length]
  | _ => []

namespace Pooled

def start (transport : TransportKind) (surroundings : Surroundings P E) : Pooled n P E :=
  ⟨.start transport surroundings, .start, []⟩

def world (p : Pooled n P E) : World P E := p.ending.world

def alone (p : Pooled n P E) : EndingChoice P E → Bool
  | .world .receiver => (p.pool.callers ()).isNone && !p.world.enqueues
  | .world (.thread j) => p.world.threads[j]?.all (!·.isWorker)
  | .world .work => false
  | _ => true

def permits (p : Pooled n P E) : Label n Unit Unit → Bool
  -- the receive thread is the only one that calls `enqueue`
  | .call _ _ => false
  | .destructor => p.pool.destructor ≠ .before || p.ending.joined
  | _ => true

/-- What the session does in a step of its pool: the task enters or leaves the queue, or it performs its
next operation if it has one left. -/
def due (p : Pooled n P E) : Label n Unit Unit → Option (EndingChoice P E)
  | .caller () =>
    match p.pool.callers () with
    | some (.emplacing _) => some (.world .receiver)
    | _ => none
  | .worker i =>
    match p.pool.workers i with
    | .taking => some (.world .work)
    | .running ⟨k, .step _ _⟩ => do
      let j ← p.started[k]?
      let t ← p.world.threads[j]?
      if t.head?.isSome then some (.world (.thread j)) else none
    | _ => none
  | _ => none

def follow (p : Pooled n P E) (pool : ThreadPool n Unit Unit) :
    Option (EndingChoice P E) → Option (Pooled n P E)
  | none => some { p with pool := pool }
  | some l => (p.ending.step l).map fun e => ⟨e, pool, p.started ++ l.starts p.world⟩

def step (p : Pooled n P E) : PooledChoice n P E → Option (Pooled n P E)
  | .session l => if p.alone l then (p.ending.step l).map fun e => { p with ending := e } else none
  | .enqueue =>
    if p.world.enqueues then (p.pool.step (.call () (steps 2))).map fun pool => { p with pool := pool }
    else none
  | .pool l => if p.permits l then (p.pool.step l).bind fun pool => p.follow pool (p.due l) else none

def Resting (p : Pooled n P E) : Prop :=
  (∀ i, (p.step (.pool (.worker i))).isNone) ∧ (p.step (.pool (.caller ()))).isNone ∧
    ∀ t woken, (p.step (.pool (.notify t woken))).isNone

end Pooled

def Thread.isBusy (t : Thread P E) : Bool := t.isWorker && t.head?.isSome

end Code

section Threads

variable {threads threads' : List (Thread P E)} {started : List ℕ} {k m : ℕ} {w w' : World P E}
  {l : Choice P E}

theorem within_task (t : Task P E) : t.code.Within 2 := by
  have hreply (requestId : UInt64) (outcome : HandlerOutcome) :
      (replyTo requestId outcome : Code P E Unit).Within 1 := by
    cases outcome <;> simp [replyTo, transmit]
  cases t with
  | procedure handler invocation requestId =>
    cases ht : handler.target with
    | none =>
      rw [code_of_empty ht]
      exact (hreply _ _).mono (by decide)
    | some f =>
      rw [code_of_target ht]
      exact fun outcome => hreply _ outcome
  | event handler e =>
    cases ht : handler.target with
    | none =>
      rw [event_code_of_empty ht]
      trivial
    | some f =>
      rw [event_code_of_target ht]
      exact fun _ => trivial

def HasLeft (threads : List (Thread P E)) (started : List ℕ) (k m : ℕ) : Prop :=
  ∃ j rest, started[k]? = some j ∧ threads[j]? = some (.worker rest) ∧ rest.Within m

theorem HasLeft.step (h : HasLeft w.threads started k m) (hstep : w.step l = some w') :
    HasLeft w'.threads started k m := by
  obtain ⟨j, rest, hj, hrest, hwithin⟩ := h
  rcases thread_of_step hstep hrest with hsame | ⟨-, t, ha, ht⟩
  · exact ⟨j, rest, hj, hsame, hwithin⟩
  · obtain ⟨⟨rest', s⟩, hadvance, he⟩ := Option.map_eq_some_iff.mp ha
    cases he
    obtain ⟨o, next, rfl, rfl, -⟩ := advance_iff.mp hadvance
    cases m with
    | zero => exact hwithin.elim
    | succ m => exact ⟨j, _, hj, ht, Within.mono (hwithin _) (Nat.le_succ m)⟩

theorem HasLeft.perform {j : ℕ} (h : HasLeft w.threads started k (m + 1)) (hj : started[k]? = some j)
    (hstep : w.step (.thread j) = some w') : HasLeft w'.threads started k m := by
  obtain ⟨j', rest, hj', hrest, hwithin⟩ := h
  obtain rfl := Option.some.inj (hj'.symm.trans hj)
  obtain ⟨t, t', s, ht, ha, rfl⟩ := step_thread_iff.mp hstep
  obtain rfl := Option.some.inj (hrest.symm.trans ht)
  obtain ⟨⟨rest', s'⟩, hadvance, he⟩ := Option.map_eq_some_iff.mp ha
  cases he
  obtain ⟨o, next, rfl, rfl, -⟩ := advance_iff.mp hadvance
  have hset : (w.threads.set j' (.worker (next (interp o w.session).1)))[j']? =
      some (.worker (next (interp o w.session).1)) :=
    List.getElem?_set_self (List.getElem?_eq_some_iff.mp hrest).1
  exact ⟨j', next (interp o w.session).1, hj, hset, hwithin _⟩

theorem HasLeft.append (h : HasLeft threads started k m) (more : List (Thread P E)) (js : List ℕ) :
    HasLeft (threads ++ more) (started ++ js) k m := by
  obtain ⟨j, rest, hj, hrest, hwithin⟩ := h
  refine ⟨j, rest, ?_, ?_, hwithin⟩
  · rw [List.getElem?_append_left (List.getElem?_eq_some_iff.mp hj).1]
    exact hj
  · rw [List.getElem?_append_left (List.getElem?_eq_some_iff.mp hrest).1]
    exact hrest

theorem HasLeft.resting (h : HasLeft threads started k m)
    (hidle : ∀ j t, started[k]? = some j → threads[j]? = some t → t.head? = none) (m' : ℕ) :
    HasLeft threads started k m' := by
  obtain ⟨j, rest, hj, hrest, -⟩ := h
  have hhead : rest.head? = none := hidle j _ hj hrest
  refine ⟨j, rest, hj, hrest, ?_⟩
  cases rest with
  | op o next => cases hhead
  | _ => trivial

theorem HasLeft.idle {j : ℕ} {t : Thread P E} (h : HasLeft threads started k 0) (hj : started[k]? = some j)
    (ht : threads[j]? = some t) : t.isBusy = false := by
  obtain ⟨j', rest, hj', hrest, hwithin⟩ := h
  obtain rfl := Option.some.inj (hj'.symm.trans hj)
  obtain rfl := Option.some.inj (hrest.symm.trans ht)
  cases rest with
  | op o next => exact hwithin.elim
  | _ => rfl

end Threads

section Mirroring

variable {threads threads' : List (Thread P E)} {tasks : List (Task P E)} {started : List ℕ}
  {ledger : Ledger Unit} {jobs : Fin n → Option (Job Unit)} {i : Fin n} {k m : ℕ} {w w' : World P E}

structure Mirrors (threads : List (Thread P E)) (tasks : List (Task P E)) (started : List ℕ)
    (ledger : Ledger Unit) (jobs : Fin n → Option (Job Unit)) : Prop where
  queue : tasks.length = ledger.tasks.length
  codes : ∀ job ∈ ledger.tasks, job.code = steps 2
  taken : started.length = ledger.taken.length
  workers : ∀ j t, threads[j]? = some t → t.isWorker → j ∈ started
  held : ∀ i job, jobs i = some job → ∃ m, job.code = steps m ∧ HasLeft threads started job.number m
  finished : ∀ k ∈ ledger.finished, HasLeft threads started k 0

namespace Mirrors

theorem start : Mirrors ([] : List (Thread P E)) [] [] (ThreadPool.start : ThreadPool n Unit Unit).toLedger
    (ThreadPool.start : ThreadPool n Unit Unit).jobs where
  queue := rfl
  codes := by simp [ThreadPool.start]
  taken := rfl
  workers := by simp
  held i job hjob := by cases hjob
  finished := by simp [ThreadPool.start]

theorem step {l : Choice P E} (h : Mirrors w.threads w.session.tasks started ledger jobs)
    (hstep : w.step l = some w') (hl : l ≠ .work) (htasks : w'.session.tasks = w.session.tasks) :
    Mirrors w'.threads w'.session.tasks started ledger jobs := by
  refine ⟨htasks ▸ h.queue, h.codes, h.taken, fun j t ht hworker => ?_, fun i job hjob => ?_,
    fun k hk => (h.finished k hk).step hstep⟩
  · rcases thread_before_step hstep ht with
      hbefore | ⟨-, u, hu, ha⟩ | ⟨operation, -, rfl⟩ | rfl | ⟨hwork, -⟩
    · exact h.workers j t hbefore hworker
    · apply h.workers j u hu
      rcases advance_cases ha with
        ⟨operation, o, next, rfl, -, rfl⟩ | ⟨o, next, rfl, -, rfl⟩ | ⟨o, next, rfl, -, rfl⟩
      all_goals exact hworker
    · cases hworker
    · cases hworker
    · exact absurd hwork hl
  · obtain ⟨m, hcode, hleft⟩ := h.held i job hjob
    exact ⟨m, hcode, hleft.step hstep⟩

theorem emplace (h : Mirrors threads tasks started ledger jobs) (t : Task P E) :
    Mirrors threads (tasks ++ [t]) started (ledger.emplace (steps 2)) jobs where
  queue := by simp [Ledger.emplace, h.queue]
  codes job hjob := by
    rcases List.mem_append.mp hjob with hjob | hjob
    · exact h.codes job hjob
    · rw [List.mem_singleton.mp hjob]
  taken := h.taken
  workers := h.workers
  held := h.held
  finished := h.finished

theorem take {t : Task P E} {job : Job Unit} {rest : List (Job Unit)}
    (h : Mirrors threads (t :: tasks) started ledger jobs) (hqueue : ledger.tasks = job :: rest)
    (hnumber : job.number = started.length) : Mirrors (threads ++ [.worker t.code]) tasks
      (started ++ [threads.length]) { ledger with tasks := rest, taken := ledger.taken ++ [job.number] }
      (Function.update jobs i (some job)) where
  queue := by
    have hlength := h.queue
    rw [hqueue] at hlength
    exact Nat.succ.inj hlength
  codes job' hjob' := h.codes job' (hqueue ▸ List.mem_cons_of_mem job hjob')
  taken := by simp [h.taken]
  workers j u hu hworker := by
    rcases getElem?_concat_cases hu with hu | ⟨rfl, -⟩
    · exact List.mem_append_left _ (h.workers j u hu hworker)
    · exact List.mem_append_right _ (List.mem_singleton.mpr rfl)
  held := by
    apply Pool.held_update
    · intro j job' _ hjob'
      obtain ⟨m, hcode, hleft⟩ := h.held j job' hjob'
      exact ⟨m, hcode, hleft.append _ _⟩
    · intro job' hjob'
      obtain rfl := Option.some.inj hjob'
      refine ⟨2, h.codes _ (hqueue ▸ List.mem_cons_self), threads.length, t.code, ?_, ?_, within_task t⟩
      · rw [hnumber]
        simp
      · simp
  finished k hk := (h.finished k hk).append _ _

theorem perform (h : Mirrors threads tasks started ledger jobs) (hleft : HasLeft threads started k m) :
    Mirrors threads tasks started { ledger with performed := ledger.performed ++ [(k, ())] }
      (Function.update jobs i (some ⟨k, steps m⟩)) where
  queue := h.queue
  codes := h.codes
  taken := h.taken
  workers := h.workers
  held := by
    refine Pool.held_update (fun j job' _ => h.held j job') fun job' hjob' => ?_
    obtain rfl := Option.some.inj hjob'
    exact ⟨m, rfl, hleft⟩
  finished := h.finished

theorem finish (h : Mirrors threads tasks started ledger jobs) (hleft : HasLeft threads started k 0) :
    Mirrors threads tasks started { ledger with finished := ledger.finished ++ [k] }
      (Function.update jobs i none) where
  queue := h.queue
  codes := h.codes
  taken := h.taken
  workers := h.workers
  held := Pool.held_update (fun j job' _ => h.held j job') fun job' hjob' => by cases hjob'
  finished k' hk' := by
    rcases List.mem_append.mp hk' with hk' | hk'
    · exact h.finished k' hk'
    · obtain rfl := List.mem_singleton.mp hk'
      exact hleft

end Mirrors

end Mirroring

section Steps

variable {w w' : World P E} {e e' : Ending P E} {p p' : Pooled n P E} {pool : ThreadPool n Unit Unit}
  {l : PooledChoice n P E} {i : Fin n} {m : Label n Unit Unit}

theorem World.enqueues_iff : w.enqueues = true ↔ ∃ t k, w.receiver = .op (.enqueue t) k := by
  unfold enqueues
  split
  next t k hr => simp [hr]
  next hr => simpa using fun t k => hr t k

theorem World.enqueues_of_receiver (h : w'.receiver = w.receiver) : w'.enqueues = w.enqueues := by
  unfold enqueues
  rw [h]

theorem Ending.joined_iff : e.joined = true ↔ e.destructor = .pure () ∧ e.world.receiver = .pure false := by
  unfold joined
  split
  next hd hr => simp [hd, hr]
  next hnot => simpa using fun hd => hnot () hd

theorem tasks_of_step {l : Choice P E} (hstep : w.step l = some w') (hkeep : ∀ t ∈ w.threads, t.KeepsTo)
    (hl : l ≠ .work) (hr : l = .receiver → w.enqueues = false) :
    w'.session.tasks = w.session.tasks := by
  cases l with
  | receiver =>
    rcases step_receiver_iff.mp hstep with ⟨-, rfl⟩ | ⟨o, k, ho, rfl⟩
    · rfl
    · apply tasks_interp
      rintro t rfl
      have henqueues := World.enqueues_iff.mpr ⟨t, k, ho⟩
      rw [hr rfl] at henqueues
      cases henqueues
  | thread j =>
    obtain ⟨t, t', s, ht, ha, rfl⟩ := step_thread_iff.mp hstep
    have hothers := hkeep t (List.mem_of_getElem? ht)
    rcases advance_cases ha with
      ⟨operation, o, k, rfl, rfl, -⟩ | ⟨o, k, rfl, rfl, -⟩ | ⟨o, k, rfl, rfl, -⟩
    all_goals exact (hothers.head rfl).tasks _
  | request operation | leave =>
    cases hstep
    rfl
  | work => exact absurd rfl hl

theorem Ending.joined_of_step {l : EndingChoice P E} (h : e.joined = true) (hstep : e.step l = some e') :
    e'.joined = true := by
  obtain ⟨hdone, hreceiver⟩ := joined_iff.mp h
  refine joined_iff.mpr ⟨Ending.destructor_stays hdone hstep, ?_⟩
  cases l with
  | world l =>
    obtain ⟨-, w, hw, rfl⟩ := Ending.step_world_iff.mp hstep
    exact (receiver_stays hreceiver hw).2
  | destructor =>
    obtain ⟨o, k, -, rfl⟩ := Ending.step_destructor_iff.mp hstep
    exact hreceiver
  | read =>
    obtain ⟨-, -, rfl⟩ := Ending.step_read_iff.mp hstep
    exact hreceiver
  | hangUp =>
    cases hstep
    exact hreceiver

def Ending.Silent (e : Ending P E) : Prop :=
  e.destructor.Uses fun o => o ≠ .receive ∧ ∀ t, o ≠ .enqueue t

theorem Ending.Silent.start (transport : TransportKind) (surroundings : Surroundings P E) :
    (Ending.start transport surroundings).Silent := by
  refine ⟨by simp, fun connected => ?_⟩
  cases connected with
  | true =>
    refine ⟨by simp, fun closed => ?_⟩
    cases closed with
    | true => exact ⟨by simp, fun _ => trivial⟩
    | false => trivial
  | false => exact ⟨by simp, fun _ => trivial⟩

theorem Ending.Silent.step {l : EndingChoice P E} (h : e.Silent) (hstep : e.step l = some e') :
    e'.Silent := by
  cases l with
  | world l =>
    obtain ⟨-, w, -, rfl⟩ := Ending.step_world_iff.mp hstep
    exact h
  | destructor =>
    obtain ⟨o, k, hd, rfl⟩ := Ending.step_destructor_iff.mp hstep
    rw [Ending.Silent, hd] at h
    exact h.2 _
  | read =>
    obtain ⟨-, -, rfl⟩ := Ending.step_read_iff.mp hstep
    exact h
  | hangUp =>
    cases hstep
    exact h

namespace Pooled

theorem follow_iff {due : Option (EndingChoice P E)} : p.follow pool due = some p' ↔
    due = none ∧ p' = { p with pool := pool } ∨
      ∃ l e, due = some l ∧ p.ending.step l = some e ∧ p' = ⟨e, pool, p.started ++ l.starts p.world⟩ := by
  cases due with
  | none => simp [follow, eq_comm]
  | some l => simp [follow, eq_comm]

theorem step_cases (h : p.step l = some p') :
    (∃ c e, l = .session c ∧ p.alone c = true ∧ p.ending.step c = some e ∧ p' = { p with ending := e }) ∨
    (∃ pool, l = .enqueue ∧ p.world.enqueues = true ∧ p.pool.step (.call () (steps 2)) = some pool ∧
      p' = { p with pool := pool }) ∨
    ∃ m pool, l = .pool m ∧ p.permits m = true ∧ p.pool.step m = some pool ∧
      p.follow pool (p.due m) = some p' := by
  cases l with
  | session c =>
    obtain ⟨halone, h⟩ := Option.ite_none_right_eq_some.mp h
    obtain ⟨e, he, rfl⟩ := Option.map_eq_some_iff.mp h
    exact .inl ⟨c, e, rfl, halone, he, rfl⟩
  | enqueue =>
    obtain ⟨henqueues, h⟩ := Option.ite_none_right_eq_some.mp h
    obtain ⟨pool, hpool, rfl⟩ := Option.map_eq_some_iff.mp h
    exact .inr (.inl ⟨pool, rfl, henqueues, hpool, rfl⟩)
  | pool m =>
    obtain ⟨hpermits, h⟩ := Option.ite_none_right_eq_some.mp h
    obtain ⟨pool, hpool, h⟩ := Option.bind_eq_some_iff.mp h
    exact .inr (.inr ⟨m, pool, rfl, hpermits, hpool, h⟩)

theorem ending_of_step (h : p.step l = some p') :
    p'.ending = p.ending ∨ ∃ c, p.ending.step c = some p'.ending := by
  rcases step_cases h with ⟨c, e, -, -, he, rfl⟩ | ⟨pool, -, -, -, rfl⟩ | ⟨m, pool, -, -, -, hfollow⟩
  · exact .inr ⟨c, he⟩
  · exact .inl rfl
  · rcases follow_iff.mp hfollow with ⟨-, rfl⟩ | ⟨c, e, -, he, rfl⟩
    · exact .inl rfl
    · exact .inr ⟨c, he⟩

theorem label_of_step (h : p.step l = some p') :
    l.label?.elim (p'.pool = p.pool) fun m => p.pool.step m = some p'.pool := by
  rcases step_cases h with
    ⟨c, e, rfl, -, -, rfl⟩ | ⟨pool, rfl, -, hpool, rfl⟩ | ⟨m, pool, rfl, -, hpool, hfollow⟩
  · rfl
  · exact hpool
  · rcases follow_iff.mp hfollow with ⟨-, rfl⟩ | ⟨c, e, -, -, rfl⟩
    · exact hpool
    · exact hpool

theorem pool_of_step (h : p.step l = some p') :
    p'.pool = p.pool ∨ ∃ m, p.pool.step m = some p'.pool := by
  have hlabel := label_of_step h
  cases hl : l.label? with
  | none => exact .inl (by simpa [hl] using hlabel)
  | some m => exact .inr ⟨m, by simpa [hl] using hlabel⟩

inductive Moves (p : Pooled n P E) : PooledChoice n P E → Pooled n P E → Prop
  | alone (c : EndingChoice P E) (e : Ending P E) (halone : p.alone c = true)
      (he : p.ending.step c = some e) : Moves p (.session c) { p with ending := e }
  | idle (l : PooledChoice n P E) (pool : ThreadPool n Unit Unit)
      (hl : l = .pool (.caller ()) → ∀ task, p.pool.callers () ≠ some (.emplacing task))
      (hledger : pool.toLedger = p.pool.toLedger) (hjobs : pool.jobs = p.pool.jobs) :
      Moves p l { p with pool := pool }
  | emplace (e : Ending P E) (pool : ThreadPool n Unit Unit) (t : Task P E)
      (k : Res (.enqueue t : Op P E) → Code P E Bool) (hreceiver : p.world.receiver = .op (.enqueue t) k)
      (hcaller : p.pool.callers () = some (.emplacing (steps 2)))
      (he : p.ending.step (.world .receiver) = some e)
      (hledger : pool.toLedger = p.pool.toLedger.emplace (steps 2)) (hjobs : pool.jobs = p.pool.jobs) :
      Moves p (.pool (.caller ())) ⟨e, pool, p.started⟩
  | take (i : Fin n) (e : Ending P E) (pool : ThreadPool n Unit Unit) (t : Task P E)
      (tasks : List (Task P E)) (job : Job Unit) (rest : List (Job Unit))
      (hi : p.pool.workers i = .taking) (htasks : p.world.session.tasks = t :: tasks)
      (hqueue : p.pool.tasks = job :: rest) (he : p.ending.step (.world .work) = some e)
      (hledger : pool.toLedger = { p.pool.toLedger with
        tasks := rest, taken := p.pool.taken ++ [job.number] })
      (hjobs : pool.jobs = Function.update p.pool.jobs i (some job)) :
      Moves p (.pool (.worker i)) ⟨e, pool, p.started ++ [p.world.threads.length]⟩
  | perform (i : Fin n) (e : Ending P E) (pool : ThreadPool n Unit Unit) (k m : ℕ)
      (hi : p.pool.jobs i = some ⟨k, steps (m + 1)⟩)
      (he : e = p.ending ∧ (∀ j t, p.started[k]? = some j → p.world.threads[j]? = some t → t.head? = none) ∨
        ∃ j, p.started[k]? = some j ∧ p.ending.step (.world (.thread j)) = some e)
      (hledger : pool.toLedger = { p.pool.toLedger with performed := p.pool.performed ++ [(k, ())] })
      (hjobs : pool.jobs = Function.update p.pool.jobs i (some ⟨k, steps m⟩)) :
      Moves p (.pool (.worker i)) ⟨e, pool, p.started⟩
  | finish (i : Fin n) (pool : ThreadPool n Unit Unit) (k : ℕ) (hi : p.pool.jobs i = some ⟨k, steps 0⟩)
      (hledger : pool.toLedger = { p.pool.toLedger with finished := p.pool.finished ++ [k] })
      (hjobs : pool.jobs = Function.update p.pool.jobs i none) :
      Moves p (.pool (.worker i)) { p with pool := pool }

structure Aligned (p : Pooled n P E) : Prop where
  sane : p.ending.Sane
  silent : p.ending.Silent
  sound : p.pool.Sound
  mirrors : Mirrors p.world.threads p.world.session.tasks p.started p.pool.toLedger p.pool.jobs
  calling : ∀ task, (p.pool.callers ()).bind Enqueue.task? = some task →
    task = steps 2 ∧ p.world.enqueues = true
  apart : ∀ i, (p.pool.workers i).isEnqueueing = false
  joined : p.pool.destructor = .before ∨ p.ending.joined = true

theorem Aligned.start (transport : TransportKind) (surroundings : Surroundings P E) :
    (start transport surroundings : Pooled n P E).Aligned where
  sane := sane_of_exec (exec_nil : exec Ending.step (Ending.start transport surroundings) [] = some _)
  silent := .start transport surroundings
  sound := .start
  mirrors := .start
  calling task htask := by cases htask
  apart i := rfl
  joined := .inl rfl

section Moving

variable {u : Worker Unit} {q : Pool.Shared (Fin n ⊕ Unit) Unit}

theorem due_of_between (hi : (p.pool.workers i).isBetween = true) : p.due (.worker i) = none := by
  cases hw : p.pool.workers i with
  | taking | running | enqueueing =>
    rw [hw] at hi
    cases hi
  | _ => simp [due, hw]

theorem Aligned.worker_moves (h : p.Aligned)
    (hw : (p.pool.workers i).advance (.inl i) p.pool.toShared = some (u, q))
    (hfollow : p.follow ((p.pool.setShared q).setWorker i u) (p.due (.worker i)) = some p') :
    p.Moves (.pool (.worker i)) p' := by
  have hjobs : ((p.pool.setShared q).setWorker i u).jobs = Function.update p.pool.jobs i u.job :=
    ThreadPool.setWorker_jobs _ i u
  have hbetween (hi : (p.pool.workers i).isBetween = true) : p.Moves (.pool (.worker i)) p' := by
    rw [due_of_between hi] at hfollow
    cases hfollow
    obtain ⟨hledger, hjob⟩ := Worker.advance_of_between hi hw
    exact .idle _ _ (fun hl => by cases hl) hledger (hjobs.trans (Function.update_eq_self_iff.mpr hjob))
  cases hi : p.pool.workers i with
  | taking =>
    have hdue : p.due (.worker i) = some (.world .work) := by simp [due, hi]
    rw [hdue] at hfollow
    obtain ⟨e, he, rfl⟩ := Option.map_eq_some_iff.mp hfollow
    obtain ⟨-, w, hwork, -⟩ := Ending.step_world_iff.mp he
    obtain ⟨t, tasks, htasks, -⟩ := step_work_iff.mp hwork
    rw [hi] at hw
    cases hqueue : p.pool.tasks with
    | nil => simp [Pool.Worker.advance, hqueue] at hw
    | cons job rest =>
      simp only [Pool.Worker.advance, hqueue, Option.some.injEq, Prod.mk.injEq] at hw
      obtain ⟨rfl, rfl⟩ := hw
      exact .take i e _ t tasks job rest hi htasks hqueue he rfl hjobs
  | running job =>
    obtain ⟨k, code⟩ := job
    have hheld : p.pool.jobs i = some ⟨k, code⟩ := by simp [ThreadPool.jobs, hi, Pool.Worker.job]
    obtain ⟨m, hcode, -⟩ := h.mirrors.held i _ hheld
    obtain rfl : code = steps m := hcode
    rw [hi] at hw
    cases m with
    | zero =>
      have hdue : p.due (.worker i) = none := by simp [due, hi, steps]
      rw [hdue] at hfollow
      cases hfollow
      cases hw
      exact .finish i _ k hheld rfl hjobs
    | succ m =>
      cases hw
      rcases follow_iff.mp hfollow with ⟨hdue, rfl⟩ | ⟨l, e, hdue, he, rfl⟩
      · refine .perform i _ _ k m hheld (.inl ⟨rfl, fun j t hj ht => ?_⟩) rfl hjobs
        simpa [due, hi, steps, hj, ht] using hdue
      · simp only [due, hi, steps, Option.bind_eq_bind, Option.bind_eq_some_iff,
          Option.ite_none_right_eq_some, Option.some.injEq] at hdue
        obtain ⟨j, hj, t, -, -, rfl⟩ := hdue
        rw [show p.started ++ EndingChoice.starts p.world (.world (.thread j)) = p.started from
          List.append_nil _]
        exact .perform i _ _ k m hheld (.inr ⟨j, hj, he⟩) rfl hjobs
  | enqueueing job call =>
    have hapart := h.apart i
    rw [hi] at hapart
    cases hapart
  | _ => exact hbetween (by rw [hi]; rfl)

theorem Aligned.caller_moves {call call' : Enqueue Unit} (h : p.Aligned)
    (hc : p.pool.callers () = some call) (hcall : call.advance (.inr ()) p.pool.toShared = some (call', q))
    (hfollow : p.follow ((p.pool.setShared q).setCaller () (some call')) (p.due (.caller ())) = some p') :
    p.Moves (.pool (.caller ())) p' := by
  cases call with
  | emplacing task =>
    rw [show p.due (.caller ()) = some (.world .receiver) by simp [due, hc]] at hfollow
    obtain ⟨e, he, rfl⟩ := Option.map_eq_some_iff.mp hfollow
    obtain ⟨rfl, henqueues⟩ := h.calling task (by simp [hc, Enqueue.task?])
    obtain ⟨t, k, hreceiver⟩ := World.enqueues_iff.mp henqueues
    cases hcall
    rw [show p.started ++ EndingChoice.starts p.world (.world .receiver) = p.started from
      List.append_nil _]
    exact .emplace e _ t k hreceiver hc he rfl rfl
  | locking task =>
    rw [show p.due (.caller ()) = none by simp [due, hc]] at hfollow
    cases hfollow
    obtain ⟨-, he⟩ := Option.ite_none_right_eq_some.mp hcall
    cases he
    exact .idle _ _ (fun _ task => by simp [hc]) rfl rfl
  | unlocking =>
    rw [show p.due (.caller ()) = none by simp [due, hc]] at hfollow
    cases hfollow
    cases hcall
    exact .idle _ _ (fun _ task => by simp [hc]) rfl rfl
  | notifying => cases hcall

theorem Aligned.moves (h : p.Aligned) (hstep : p.step l = some p') : p.Moves l p' := by
  rcases step_cases hstep with
    ⟨c, e, rfl, halone, he, rfl⟩ | ⟨pool, rfl, -, hpool, rfl⟩ | ⟨m, pool, rfl, -, hpool, hfollow⟩
  · exact .alone c e halone he
  · cases ThreadPool.stepped hpool with
    | call => exact .idle _ _ (fun hl => by cases hl) rfl rfl
  · cases ThreadPool.stepped hpool with
    | worker i w q hw => exact h.worker_moves hw hfollow
    | caller c call call' q hc hcall => exact h.caller_moves hc hcall hfollow
    | wake i hi =>
      cases hfollow
      obtain ⟨hledger, hjobs⟩ := (ThreadPool.Woken.worker i hi).ledger
      exact .idle _ _ (fun hl => by cases hl) hledger hjobs
    | notify t woken u s hn hw =>
      cases hfollow
      obtain ⟨hledger, hjobs⟩ := hn.ledger
      obtain ⟨hledger', hjobs'⟩ := hw.ledger
      exact .idle _ _ (fun hl => by cases hl) (hledger'.trans hledger) (hjobs'.trans hjobs)
    | wakeAll =>
      cases hfollow
      exact .idle _ _ (fun hl => by cases hl) rfl (ThreadPool.wakeAll_jobs p.pool)
    | call | stop | join =>
      cases hfollow
      exact .idle _ _ (fun hl => by cases hl) rfl rfl

end Moving

section Alignment

theorem Aligned.next_number (h : p.Aligned) {job : Job Unit} {rest : List (Job Unit)}
    (hqueue : p.pool.tasks = job :: rest) : job.number = p.started.length := by
  have horder := h.sound.accounted.order
  rw [hqueue, List.map_cons] at horder
  have hget := congrArg (·[p.pool.taken.length]?) horder
  simp only [List.getElem?_append_right le_rfl, Nat.sub_self, List.getElem?_cons_zero] at hget
  rw [h.mirrors.taken]
  obtain ⟨hlt, hnumber⟩ := List.getElem?_eq_some_iff.mp hget.symm
  rw [← hnumber, List.getElem_range]

theorem quiet_of_alone {c : Choice P E} (halone : p.alone (.world c) = true) :
    c ≠ .work ∧ (c = .receiver → p.world.enqueues = false) := by
  constructor
  · rintro rfl
    cases halone
  · rintro rfl
    exact (Bool.not_eq_true' _).mp (Bool.and_eq_true_iff.mp halone).2

theorem Aligned.mirrors_step (h : p.Aligned) (hmoves : p.Moves l p') :
    Mirrors p'.world.threads p'.world.session.tasks p'.started p'.pool.toLedger p'.pool.jobs := by
  have hkeep := h.sane.world.threads
  cases hmoves with
  | alone c e halone he =>
    cases c with
    | world l =>
      obtain ⟨-, w, hw, rfl⟩ := Ending.step_world_iff.mp he
      obtain ⟨hwork, hreceiver⟩ := quiet_of_alone halone
      exact h.mirrors.step hw hwork (tasks_of_step hw hkeep hwork hreceiver)
    | destructor =>
      obtain ⟨o, k, hd, rfl⟩ := Ending.step_destructor_iff.mp he
      have hsilent := h.silent
      rw [Ending.Silent, hd] at hsilent
      have htasks := tasks_interp hsilent.1.2 p.ending.world.session
      exact htasks.symm ▸ h.mirrors
    | read =>
      obtain ⟨-, -, rfl⟩ := Ending.step_read_iff.mp he
      exact h.mirrors
    | hangUp =>
      cases he
      exact h.mirrors
  | idle l pool hl hledger hjobs =>
    rw [hledger, hjobs]
    exact h.mirrors
  | emplace e pool t k hreceiver hcaller he hledger hjobs =>
    obtain ⟨-, w, hw, rfl⟩ := Ending.step_world_iff.mp he
    rw [hledger, hjobs]
    obtain rfl := receiver_step_eq hreceiver hw
    exact h.mirrors.emplace t
  | take i e pool t tasks job rest hi htasks hqueue he hledger hjobs =>
    obtain ⟨-, w, hw, rfl⟩ := Ending.step_world_iff.mp he
    obtain ⟨t', tasks', htasks', rfl⟩ := step_work_iff.mp hw
    obtain ⟨rfl, rfl⟩ := List.cons.inj (htasks.symm.trans htasks')
    have hmirrors := h.mirrors
    rw [htasks] at hmirrors
    rw [hledger, hjobs]
    exact hmirrors.take hqueue (h.next_number hqueue)
  | perform i e pool k m hi he hledger hjobs =>
    rw [hledger, hjobs]
    obtain ⟨m', hcode, hleft⟩ := h.mirrors.held i _ hi
    obtain rfl := steps_injective hcode
    rcases he with ⟨rfl, hidle⟩ | ⟨j, hj, he⟩
    · -- the thread has ended, so that it has as little left as we please
      exact h.mirrors.perform (hleft.resting hidle m)
    · obtain ⟨-, w, hw, rfl⟩ := Ending.step_world_iff.mp he
      have htasks := tasks_of_step hw hkeep (by simp) (by simp)
      exact (h.mirrors.step hw (by simp) htasks).perform (hleft.perform hj hw)
  | finish i pool k hi hledger hjobs =>
    rw [hledger, hjobs]
    obtain ⟨m, hcode, hleft⟩ := h.mirrors.held i _ hi
    obtain rfl := steps_injective hcode
    exact h.mirrors.finish hleft

theorem receiver_of_follow (hfollow : p.follow pool (p.due m) = some p') :
    p'.world.receiver = p.world.receiver ∨
      m = .caller () ∧ ∃ task, p.pool.callers () = some (.emplacing task) := by
  have hworld {l : Choice P E} {e : Ending P E} (he : p.ending.step (.world l) = some e)
      (hl : l ≠ .receiver) : e.world.receiver = p.world.receiver := by
    obtain ⟨-, w, hw, rfl⟩ := Ending.step_world_iff.mp he
    exact (receiver_of_step hw).elim And.right fun hreceiver => absurd hreceiver.1 hl
  rcases follow_iff.mp hfollow with ⟨-, rfl⟩ | ⟨c, e, hdue, he, rfl⟩
  · exact .inl rfl
  · cases m with
    | caller c =>
      cases hc : p.pool.callers () with
      | none => simp [due, hc] at hdue
      | some call =>
        cases call with
        | emplacing task => exact .inr ⟨rfl, task, rfl⟩
        | _ => simp [due, hc] at hdue
    | worker i =>
      left
      cases hi : p.pool.workers i with
      | taking =>
        obtain rfl : .world .work = c := by simpa [due, hi] using hdue
        exact hworld he (by simp)
      | running job =>
        obtain ⟨k, code⟩ := job
        cases code with
        | step a rest =>
          simp only [due, hi, Option.bind_eq_bind, Option.bind_eq_some_iff, Option.ite_none_right_eq_some,
            Option.some.injEq] at hdue
          obtain ⟨j, -, t, -, -, rfl⟩ := hdue
          exact hworld he (by simp)
        | _ => simp [due, hi] at hdue
      | _ => simp [due, hi] at hdue
    | _ => cases hdue

theorem Aligned.calling_step (h : p.Aligned) (hstep : p.step l = some p') {task : Pool.Code Unit}
    (htask : (p'.pool.callers ()).bind Enqueue.task? = some task) :
    task = steps 2 ∧ p'.world.enqueues = true := by
  have hkept (hcalling : (p.pool.callers ()).bind Enqueue.task? = some task)
      (hr : p'.world.receiver = p.world.receiver) : task = steps 2 ∧ p'.world.enqueues = true := by
    obtain ⟨hsteps, henqueues⟩ := h.calling task hcalling
    exact ⟨hsteps, (World.enqueues_of_receiver hr).trans henqueues⟩
  rcases step_cases hstep with
    ⟨c, e, -, halone, he, rfl⟩ | ⟨pool, -, henqueues, hpool, rfl⟩ | ⟨m, pool, -, hpermits, hpool, hfollow⟩
  · apply hkept htask
    cases c with
    | world l =>
      obtain ⟨-, w, hw, rfl⟩ := Ending.step_world_iff.mp he
      rcases receiver_of_step hw with ⟨-, hr⟩ | ⟨rfl, -⟩
      · exact hr
      · have hnone := Option.isNone_iff_eq_none.mp (Bool.and_eq_true_iff.mp halone).1
        simp [hnone] at htask
    | destructor =>
      obtain ⟨o, k, -, rfl⟩ := Ending.step_destructor_iff.mp he
      rfl
    | read =>
      obtain ⟨-, -, rfl⟩ := Ending.step_read_iff.mp he
      rfl
    | hangUp =>
      cases he
      rfl
  · cases ThreadPool.stepped hpool with
    | call _ _ hbefore hc =>
      have hsteps : steps 2 = task := by simpa [Enqueue.task?] using htask
      exact ⟨hsteps.symm, henqueues⟩
  · have hpool' : p'.pool = pool := by
      rcases follow_iff.mp hfollow with ⟨-, rfl⟩ | ⟨c, e, -, -, rfl⟩ <;> rfl
    rw [hpool'] at htask
    have hcall (c : Unit) (task : Pool.Code Unit) : m ≠ .call c task := by
      rintro rfl
      cases hpermits
    obtain ⟨hcalling, hnot⟩ := (ThreadPool.stepped hpool).entering hcall htask
    exact hkept hcalling ((receiver_of_follow hfollow).resolve_right fun ⟨hm, task', hc⟩ => hnot task' ⟨hm, hc⟩)

theorem Aligned.joined_step (h : p.Aligned) (hstep : p.step l = some p') :
    p'.pool.destructor = .before ∨ p'.ending.joined = true := by
  have hstays (hjoined : p.ending.joined = true) : p'.ending.joined = true := by
    rcases ending_of_step hstep with hsame | ⟨c, he⟩
    · exact hsame ▸ hjoined
    · exact Ending.joined_of_step hjoined he
  rcases h.joined with hbefore | hjoined
  · rcases step_cases hstep with
      ⟨c, e, -, -, -, rfl⟩ | ⟨pool, -, -, hpool, rfl⟩ | ⟨m, pool, -, hpermits, hpool, hfollow⟩
    · exact .inl hbefore
    · exact .inl (((ThreadPool.stepped hpool).destructor (by simp)).trans hbefore)
    · by_cases hm : m = .destructor
      · subst hm
        exact .inr (hstays (by simpa [permits, hbefore] using hpermits))
      · have hsame := (ThreadPool.stepped hpool).destructor hm
        have hpool' : p'.pool = pool := by
          rcases follow_iff.mp hfollow with ⟨-, rfl⟩ | ⟨c, e, -, -, rfl⟩ <;> rfl
        exact .inl (hpool' ▸ hsame.trans hbefore)
  · exact .inr (hstays hjoined)

theorem Aligned.step (h : p.Aligned) (hstep : p.step l = some p') : p'.Aligned where
  sane := by
    rcases ending_of_step hstep with hsame | ⟨c, he⟩
    · exact hsame ▸ h.sane
    · exact h.sane.step he
  silent := by
    rcases ending_of_step hstep with hsame | ⟨c, he⟩
    · exact hsame ▸ h.silent
    · exact h.silent.step he
  sound := by
    rcases pool_of_step hstep with hsame | ⟨m, hm⟩
    · exact hsame ▸ h.sound
    · exact h.sound.stepped (ThreadPool.stepped hm)
  mirrors := h.mirrors_step (h.moves hstep)
  calling task htask := h.calling_step hstep htask
  apart := by
    rcases pool_of_step hstep with hsame | ⟨m, hm⟩
    · exact hsame ▸ h.apart
    · refine (ThreadPool.stepped hm).apart h.apart fun i k task rest hi => ?_
      obtain ⟨m, hcode, -⟩ := h.mirrors.held i _ hi
      cases m <;> cases hcode
  joined := h.joined_step hstep

theorem aligned_of_exec {transport : TransportKind} {surroundings : Surroundings P E}
    {choices : List (PooledChoice n P E)}
    (hrun : exec step (start transport surroundings) choices = some p) : p.Aligned :=
  exec_invariant (fun _ _ _ h hstep => h.step hstep) (.start transport surroundings) hrun

end Alignment

section Results

variable {surroundings : Surroundings P E} {choices : List (PooledChoice n P E)} {c : EndingChoice P E}
  {m : Label n Unit Unit}

theorem Aligned.due_enabled (h : p.Aligned) (hdue : p.due m = some c) (hstep : p.pool.step m = some pool) :
    ∃ e, p.ending.step c = some e := by
  have hworld (l : Choice P E) (w : World P E) (hw : p.world.step l = some w)
      (hwaits : l = .receiver → p.ending.waits = false) : ∃ e, p.ending.step (.world l) = some e :=
    ⟨_, Ending.step_world_iff.mpr ⟨hwaits, w, hw, rfl⟩⟩
  cases ThreadPool.stepped hstep with
  | caller _ call call' q hc hcall =>
    cases call with
    | emplacing task =>
      obtain rfl : .world .receiver = c := by simpa [due, hc] using hdue
      obtain ⟨t, k, hreceiver⟩ := World.enqueues_iff.mp (h.calling task (by simp [hc, Enqueue.task?])).2
      refine hworld _ _ (step_receiver_iff.mpr (.inr ⟨_, k, hreceiver, rfl⟩)) fun _ => ?_
      simp [Ending.waits, World.reads, show p.ending.world.receiver = _ from hreceiver]
    | _ => simp [due, hc] at hdue
  | worker i u q hw =>
    cases hi : p.pool.workers i with
    | taking =>
      obtain rfl : .world .work = c := by simpa [due, hi] using hdue
      cases htasks : p.world.session.tasks with
      | nil =>
        have hqueue := h.mirrors.queue
        rw [htasks] at hqueue
        have hempty : p.pool.tasks = [] := List.eq_nil_of_length_eq_zero hqueue.symm
        simp [hi, Pool.Worker.advance, hempty] at hw
      | cons t tasks => exact hworld _ _ (step_work_iff.mpr ⟨t, tasks, htasks, rfl⟩) (by simp)
    | running job =>
      obtain ⟨k, code⟩ := job
      cases code with
      | step a rest =>
        simp only [due, hi, Option.bind_eq_bind, Option.bind_eq_some_iff, Option.ite_none_right_eq_some,
          Option.some.injEq] at hdue
        obtain ⟨j, -, t, ht, hhead, rfl⟩ := hdue
        obtain ⟨o, ho⟩ := Option.isSome_iff_exists.mp hhead
        obtain ⟨w, hw⟩ := step_of_performs (w := p.world) (l := .thread j) (o := o)
          (by simp [World.performs, ht, ho])
        exact hworld _ w hw (by simp)
      | _ => simp [due, hi] at hdue
    | _ => simp [due, hi] at hdue
  | _ => cases hdue

theorem Aligned.enabled (h : p.Aligned) (hpermits : p.permits m = true) (hstep : p.pool.step m = some pool) :
    ∃ p', p.step (.pool m) = some p' := by
  have hfollow : ∃ p', p.follow pool (p.due m) = some p' := by
    cases hdue : p.due m with
    | none => exact ⟨_, rfl⟩
    | some c =>
      obtain ⟨e, he⟩ := h.due_enabled hdue hstep
      exact ⟨_, Option.map_eq_some_iff.mpr ⟨e, he, rfl⟩⟩
  obtain ⟨p', hp⟩ := hfollow
  exact ⟨p', by simp [Pooled.step, hpermits, hstep, hp]⟩

theorem Aligned.resting (h : p.Aligned) (hresting : p.Resting) : p.pool.Resting := by
  have hnone (m : Label n Unit Unit) (hpermits : p.permits m = true) (hm : (p.step (.pool m)).isNone) :
      (p.pool.step m).isNone := by
    cases hstep : p.pool.step m with
    | none => rfl
    | some pool =>
      obtain ⟨p', hp⟩ := h.enabled hpermits hstep
      rw [hp] at hm
      cases hm
  obtain ⟨hworkers, hcaller, hnotify⟩ := hresting
  exact ⟨fun i => hnone _ rfl (hworkers i), fun _ => hnone _ rfl hcaller,
    fun t woken => hnone _ rfl (hnotify t woken)⟩

theorem countP_le_length {α : Type} {f : α → Bool} {xs : List α} {js : List ℕ}
    (h : ∀ j x, xs[j]? = some x → f x = true → j ∈ js) : xs.countP f ≤ js.length := by
  induction xs using List.reverseRecOn generalizing js with
  | nil => simp
  | append_singleton xs x ih =>
    have hbefore {j : ℕ} {y : α} (hj : xs[j]? = some y) : j < xs.length ∧ (xs ++ [x])[j]? = some y := by
      have hlt := (List.getElem?_eq_some_iff.mp hj).1
      exact ⟨hlt, (List.getElem?_append_left hlt).trans hj⟩
    rw [List.countP_append]
    by_cases hx : f x = true
    · have hmem : xs.length ∈ js := h xs.length x (by simp) hx
      have hle : xs.countP f ≤ (js.erase xs.length).length := by
        refine ih fun j y hj hy => (List.mem_erase_of_ne ?_).mpr (h j y (hbefore hj).2 hy)
        exact (hbefore hj).1.ne
      have herase := List.length_erase_add_one hmem
      simp only [List.countP_singleton, hx, if_true]
      omega
    · have hle := ih fun j y hj hy => h j y (hbefore hj).2 hy
      simpa [List.countP_singleton, hx] using hle

theorem Aligned.busy_le (h : p.Aligned) :
    p.world.threads.countP Thread.isBusy ≤ (Pool.running p.pool.jobs).length := by
  have hle : ((Pool.running p.pool.jobs).filterMap (p.started[·]?)).length ≤
      (Pool.running p.pool.jobs).length := List.length_filterMap_le _ _
  refine (countP_le_length fun j t ht hbusy => ?_).trans hle
  have hworker : t.isWorker = true := (Bool.and_eq_true_iff.mp hbusy).1
  obtain ⟨k, hk⟩ := List.mem_iff_getElem?.mp (h.mirrors.workers j t ht hworker)
  refine List.mem_filterMap.mpr ⟨k, ?_, hk⟩
  have htaken : k ∈ p.pool.taken := by
    rw [h.sound.taken_eq_range, List.mem_range, ← h.mirrors.taken]
    exact (List.getElem?_eq_some_iff.mp hk).1
  rcases List.mem_append.mp (h.sound.accounted.held.mem_iff.mpr htaken) with hrunning | hfinished
  · exact hrunning
  · have hidle := (h.mirrors.finished k hfinished).idle hk ht
    rw [hbusy] at hidle
    cases hidle

theorem running_length_le (jobs : Fin n → Option (Job Unit)) : (Pool.running jobs).length ≤ n :=
  (List.length_filterMap_le _ _).trans (List.length_finRange).le

theorem Aligned.drained (h : p.Aligned) (hfinished : p.pool.finished.Perm (List.range p.pool.enqueued)) :
    p.world.session.tasks = [] ∧ ∀ t ∈ p.world.threads, t.isBusy = false := by
  have hpartition := h.sound.partition.length_eq
  simp only [List.length_append, List.length_map, hfinished.length_eq] at hpartition
  constructor
  · apply List.eq_nil_of_length_eq_zero
    rw [h.mirrors.queue]
    omega
  · have hcount : p.world.threads.countP Thread.isBusy = 0 := by
      have hle := h.busy_le
      omega
    simpa using List.countP_eq_zero.mp hcount

/-- At most `n` handlers are at work. The session holds up no thread of the pool, which has only so many
steps to take for each task; where its threads come to rest, or all have been joined, every task has been
run to its end. The pool is stopped only after the receive thread has ended. -/
structure RunsTasks (transport : TransportKind) (surroundings : Surroundings P E)
    (choices : List (PooledChoice n P E)) (p : Pooled n P E) : Prop where
  session : ∃ choices, exec Ending.step (Ending.start transport surroundings) choices = some p.ending
  pool : exec ThreadPool.step .start (choices.filterMap PooledChoice.label?) = some p.pool
  queue : p.world.session.tasks.length = p.pool.tasks.length
  busy : p.world.threads.countP Thread.isBusy ≤ n
  unhindered : ∀ m pool, p.permits m = true → p.pool.step m = some pool → ∃ p', p.step (.pool m) = some p'
  bounded : (choices.filterMap PooledChoice.label?).length ≤
    11 * n + 2 + ((choices.filterMap PooledChoice.label?).map Label.supply).sum
  drained : 0 < n → p.Resting ∨ p.pool.destructor = .joining n →
    p.world.session.tasks = [] ∧ ∀ t ∈ p.world.threads, t.isBusy = false
  joined : p.pool.destructor ≠ .before → p.ending.destructor = .pure () ∧ p.world.receiver = .pure false

theorem pool_of_exec {transport : TransportKind}
    (hrun : exec step (start transport surroundings) choices = some p) :
    exec ThreadPool.step .start (choices.filterMap PooledChoice.label?) = some p.pool :=
  exec_filterMap (f := Pooled.pool) (fun _ _ _ hstep => label_of_step hstep) hrun

theorem session_runs_on_pool (transport : TransportKind) (surroundings : Surroundings P E)
    (choices : List (PooledChoice n P E)) (p : Pooled n P E)
    (hrun : exec step (start transport surroundings) choices = some p) :
    RunsTasks transport surroundings choices p := by
  have h := aligned_of_exec hrun
  have hpool := pool_of_exec hrun
  refine ⟨?_, hpool, h.mirrors.queue, ?_, fun m pool => h.enabled, ?_, fun hn hdone => ?_, fun hd => ?_⟩
  · exact exec_projects (f := Pooled.ending) (fun _ _ _ hstep => ending_of_step hstep) hrun
  · exact h.busy_le.trans (running_length_le _)
  · have henergy := exec_energy (fun _ _ _ hstep => ThreadPool.energy_step hstep) hpool
    rw [ThreadPool.energy_start] at henergy
    omega
  · apply h.drained
    have hattended := ThreadPool.attended_of_exec hn hpool
    rcases hdone with hresting | hjoined
    · exact (h.resting hresting).finished h.sound hattended
    · apply h.sound.drained hn hattended
      intro i
      rw [ThreadPool.returned_of_joining hpool hjoined i.isLt]
      rfl
  · exact Ending.joined_iff.mp (h.joined.resolve_left hd)

def invokedSurroundings : Surroundings Unit Unit :=
  .receiving [.message (.registered 1 9), .message (.invocation 5 9 [] [] [])]

def invokedChoices : List (PooledChoice 1 Unit Unit) :=
  [.session (.world (.request (.register (ascii "com.example.echo") ⟨some ()⟩ [])))] ++
    List.replicate 4 (.session (.world (.thread 0))) ++ List.replicate 9 (.session (.world .receiver)) ++
    [.enqueue, .pool (.caller ()), .pool (.caller ()), .pool (.caller ()),
      .pool (.notify (.inr ()) none), .session (.world .receiver)] ++
    List.replicate 3 (.session .destructor) ++
    [.session (.world .receiver), .pool .destructor, .pool .destructor] ++
    List.replicate 12 (.pool (.worker ThreadPool.onlyWorker)) ++ [.pool .destructor]

theorem session_runs_on_pool_invoked : ∃ p : Pooled 1 Unit Unit,
    exec step (start .tcp invokedSurroundings) invokedChoices = some p ∧
      p.pool.destructor = .joining 1 ∧ p.world.session.handlerCalls = 1 ∧
      RunsTasks .tcp invokedSurroundings invokedChoices p := by
  have hrun : ((exec step (start .tcp invokedSurroundings) invokedChoices).map fun p =>
      (p.pool.destructor, p.world.session.handlerCalls)) = some (.joining 1, 1) := by
    decide +kernel
  obtain ⟨p, hp, he⟩ := Option.map_eq_some_iff.mp hrun
  obtain ⟨hdestructor, hcalls⟩ := Prod.mk.inj he
  exact ⟨p, hp, hdestructor, hcalls, session_runs_on_pool .tcp invokedSurroundings invokedChoices p hp⟩

end Results

end Pooled

end Steps

end XconnCpp.Sessions

import XconnCpp.ThreadPool
import Mathlib.Data.List.FinRange
import Mathlib.Data.List.Perm.Basic

namespace XconnCpp.Pool

open Library Library.Lock Library.Transition

variable {T A : Type} {t : T} {q q' : Shared T A}

section Threads

def Enqueue.inside : Enqueue A → Bool
  | .emplacing _ | .unlocking => true
  | _ => false

def Enqueue.owes : Enqueue A → Bool
  | .unlocking | .notifying => true
  | _ => false

def Worker.inside : Worker A → Bool
  | .testing | .blocking | .deciding | .leaving | .taking | .unlocking _ => true
  | .enqueueing _ call => call.inside
  | _ => false

def Worker.job : Worker A → Option (Job A)
  | .unlocking job | .running job | .enqueueing job _ => some job
  | _ => none

def Worker.asleep (w : Worker A) : Bool := w.isBlocked || w.isReturned

theorem Worker.eq_blocked {w : Worker A} (h : w.isBlocked = true) : w = .blocked := by
  cases w with
  | blocked => rfl
  | _ => cases h

def Worker.Knows (tasks : List (Job A)) (stop : Bool) : Worker A → Prop
  | .blocking => tasks = []
  | .deciding => stop = true ∨ tasks ≠ []
  | .leaving => tasks = [] ∧ stop = true
  | .taking => tasks ≠ []
  | .returned => stop = true
  | _ => True

theorem Worker.Knows.mono {w : Worker A} {tasks tasks' : List (Job A)} {stop stop' : Bool}
    (h : w.Knows tasks stop) (htasks : w.inside = true → tasks' = tasks)
    (hstop : stop = true → stop' = true) : w.Knows tasks' stop' := by
  cases w with
  | blocking => exact (htasks rfl).trans h
  | deciding => exact h.imp hstop fun hfull => (htasks rfl).symm ▸ hfull
  | leaving => exact ⟨(htasks rfl).trans h.1, hstop h.2⟩
  | taking => exact (htasks rfl).symm ▸ h
  | returned => exact hstop h
  | _ => trivial

def Ledger.emplace (l : Ledger A) (task : Code A) : Ledger A :=
  { l with tasks := l.tasks ++ [⟨l.enqueued, task⟩], enqueued := l.enqueued + 1,
           submitted := l.submitted ++ [task] }

inductive Ledger.Step (l : Ledger A) : Option (Job A) → Ledger A → Option (Job A) → Prop
  | idle (job : Option (Job A)) : Step l job l job
  | emplace (job : Option (Job A)) (task : Code A) : Step l job (l.emplace task) job
  | take (job : Job A) (tasks : List (Job A)) (h : l.tasks = job :: tasks) :
      Step l none { l with tasks := tasks, taken := l.taken ++ [job.number] } (some job)
  | perform (k : ℕ) (a : A) (rest : Code A) : Step l (some ⟨k, .step a rest⟩)
      { l with performed := l.performed ++ [(k, a)] } (some ⟨k, rest⟩)
  | call (k : ℕ) (task rest : Code A) : Step l (some ⟨k, .enqueue task rest⟩) l (some ⟨k, rest⟩)
  | finish (k : ℕ) (code : Code A) (h : code = .returned ∨ code = .threw) :
      Step l (some ⟨k, code⟩) { l with finished := l.finished ++ [k] } none

variable {w w' : Worker A} {call call' : Enqueue A}

structure Enqueue.Stepped (t : T) (q : Shared T A) (call : Enqueue A) (q' : Shared T A)
    (call' : Enqueue A) : Prop where
  stop : q'.stop = q.stop
  turn : Turn t q.queueMutex q'.queueMutex (call.inside = true) (call'.inside = true)
  ledger (job : Option (Job A)) : q.toLedger.Step job q'.toLedger job
  tasks : call.inside = true ∧ call'.owes = true ∨ q'.tasks = q.tasks
  owes : call.owes = true → call'.owes = true

theorem Enqueue.stepped (h : call.advance t q = some (call', q')) : call.Stepped t q q' call' := by
  cases call with
  | locking task =>
    obtain ⟨hfree, he⟩ := Option.ite_none_right_eq_some.mp h
    cases he
    exact ⟨rfl, .inr (.inl ⟨Option.isNone_iff_eq_none.mp hfree, rfl, rfl⟩), .idle, .inr rfl, by simp [owes]⟩
  | emplacing task =>
    cases h
    exact ⟨rfl, .inl ⟨rfl, Iff.rfl⟩, fun job => .emplace job task, .inl ⟨rfl, rfl⟩, fun _ => rfl⟩
  | unlocking =>
    cases h
    exact ⟨rfl, .inr (.inr ⟨rfl, rfl, by simp [inside]⟩), .idle, .inr rfl, fun _ => rfl⟩
  | notifying => cases h

structure Worker.Stepped (t : T) (q : Shared T A) (w : Worker A) (q' : Shared T A) (w' : Worker A) :
    Prop where
  stop : q'.stop = q.stop
  turn : Turn t q.queueMutex q'.queueMutex (w.inside = true) (w'.inside = true)
  ledger : q.toLedger.Step w.job q'.toLedger w'.job
  tasks : w.inside = true ∨ q'.tasks = q.tasks
  knows : w.Knows q.tasks q.stop → w'.Knows q'.tasks q'.stop
  asleep : w.Knows q.tasks q.stop → w'.asleep = true → q'.tasks = []

theorem Worker.Stepped.awake (hinside : w.inside = w'.inside) (hstop : q'.stop = q.stop)
    (hmutex : q'.queueMutex = q.queueMutex) (htasks : q'.tasks = q.tasks) (hawake : w'.asleep = false)
    (hledger : q.toLedger.Step w.job q'.toLedger w'.job)
    (hknows : w.Knows q.tasks q.stop → w'.Knows q'.tasks q'.stop) : w.Stepped t q q' w' where
  stop := hstop
  turn := .inl ⟨hmutex, by rw [hinside]⟩
  ledger := hledger
  tasks := .inr htasks
  knows := hknows
  asleep _ hasleep := by
    rw [hawake] at hasleep
    cases hasleep

theorem Worker.stepped (h : w.advance t q = some (w', q')) : w.Stepped t q q' w' := by
  cases w with
  | locking =>
    obtain ⟨hfree, he⟩ := Option.ite_none_right_eq_some.mp h
    cases he
    exact ⟨rfl, .inr (.inl ⟨Option.isNone_iff_eq_none.mp hfree, rfl, rfl⟩), .idle none, .inr rfl,
      fun _ => trivial, fun _ hasleep => by cases hasleep⟩
  | testing =>
    cases h
    split
    next hready =>
      exact .awake rfl rfl rfl rfl rfl (.idle none) fun _ => by simpa [Knows] using hready
    next hidle =>
      have hidle : q.stop = false ∧ q.tasks = [] := by simpa using hidle
      exact .awake rfl rfl rfl rfl rfl (.idle none) fun _ => hidle.2
  | blocking =>
    cases h
    exact ⟨rfl, .inr (.inr ⟨rfl, rfl, by simp [inside]⟩), .idle none, .inr rfl, fun _ => trivial,
      fun hempty _ => hempty⟩
  | blocked => cases h
  | deciding =>
    cases h
    split
    next hempty =>
      exact .awake rfl rfl rfl rfl rfl (.idle none) fun _ => by simpa [Knows, and_comm] using hempty
    next hfull =>
      have hfull : q.stop = true → q.tasks ≠ [] := by simpa using hfull
      exact .awake rfl rfl rfl rfl rfl (.idle none) fun hknows => hknows.elim hfull id
  | leaving =>
    cases h
    exact ⟨rfl, .inr (.inr ⟨rfl, rfl, by simp [inside]⟩), .idle none, .inr rfl, fun hknows => hknows.2,
      fun hknows _ => hknows.1⟩
  | taking =>
    cases ht : q.tasks with
    | nil => simp [Worker.advance, ht] at h
    | cons job tasks =>
      simp only [Worker.advance, ht, Option.some.injEq, Prod.mk.injEq] at h
      obtain ⟨rfl, rfl⟩ := h
      exact ⟨rfl, .inl ⟨rfl, Iff.rfl⟩, .take job tasks ht, .inl rfl, fun _ => trivial,
        fun _ hasleep => by cases hasleep⟩
  | unlocking job =>
    cases h
    exact ⟨rfl, .inr (.inr ⟨rfl, rfl, by simp [inside]⟩), .idle (some job), .inr rfl, fun _ => trivial,
      fun _ hasleep => by cases hasleep⟩
  | running job =>
    obtain ⟨k, code⟩ := job
    cases code with
    | returned =>
      cases h
      exact .awake rfl rfl rfl rfl rfl (.finish k .returned (.inl rfl)) fun _ => trivial
    | threw =>
      cases h
      exact .awake rfl rfl rfl rfl rfl (.finish k .threw (.inr rfl)) fun _ => trivial
    | step a rest =>
      cases h
      exact .awake rfl rfl rfl rfl rfl (.perform k a rest) fun _ => trivial
    | enqueue task rest =>
      cases h
      exact .awake rfl rfl rfl rfl rfl (.call k task rest) fun _ => trivial
  | enqueueing job call =>
    obtain ⟨⟨call', r⟩, hc, he⟩ := Option.map_eq_some_iff.mp h
    cases he
    have hstepped := Enqueue.stepped hc
    exact ⟨hstepped.stop, hstepped.turn, hstepped.ledger (some job), hstepped.tasks.imp And.left id,
      fun _ => trivial, fun _ hasleep => by cases hasleep⟩
  | returned => cases h

def Enqueue.task? : Enqueue A → Option (Code A)
  | .locking task | .emplacing task => some task
  | _ => none

def Worker.isEnqueueing : Worker A → Bool
  | .enqueueing _ _ => true
  | _ => false

theorem Worker.isEnqueueing_advance (hw : w.isEnqueueing = false) (h : w.advance t q = some (w', q'))
    (hjob : ∀ k task rest, w.job ≠ some ⟨k, .enqueue task rest⟩) : w'.isEnqueueing = false := by
  cases w with
  | locking =>
    obtain ⟨-, he⟩ := Option.ite_none_right_eq_some.mp h
    cases he
    rfl
  | testing | deciding =>
    cases h
    split <;> rfl
  | taking =>
    cases ht : q.tasks with
    | nil => simp [Worker.advance, ht] at h
    | cons job tasks =>
      simp only [Worker.advance, ht, Option.some.injEq, Prod.mk.injEq] at h
      obtain ⟨rfl, rfl⟩ := h
      rfl
  | running job =>
    obtain ⟨k, code⟩ := job
    cases code with
    | enqueue task rest => exact absurd rfl (hjob k task rest)
    | _ =>
      cases h
      rfl
  | enqueueing => cases hw
  | blocked | returned => cases h
  | blocking | leaving | unlocking =>
    cases h
    rfl

def Worker.isBetween : Worker A → Bool
  | .taking | .running _ | .enqueueing _ _ => false
  | _ => true

theorem Worker.advance_of_between (hw : w.isBetween = true) (h : w.advance t q = some (w', q')) :
    q'.toLedger = q.toLedger ∧ w'.job = w.job := by
  cases w with
  | locking =>
    obtain ⟨-, he⟩ := Option.ite_none_right_eq_some.mp h
    cases he
    exact ⟨rfl, rfl⟩
  | testing | deciding =>
    cases h
    split <;> exact ⟨rfl, rfl⟩
  | taking | running | enqueueing => cases hw
  | blocked | returned => cases h
  | blocking | leaving | unlocking =>
    cases h
    exact ⟨rfl, rfl⟩

end Threads

section Accounts

variable {n : ℕ} {jobs : Fin n → Option (Job A)} {job : Option (Job A)} {l l' : Ledger A} {i : Fin n}

def running (jobs : Fin n → Option (Job A)) : List ℕ :=
  (List.finRange n).filterMap fun i => (jobs i).map Job.number

theorem filterMap_perm {α β : Type} [DecidableEq α] {xs : List α} {x : α} (hx : x ∈ xs)
    (f : α → Option β) : (xs.filterMap f).Perm ((f x).toList ++ (xs.erase x).filterMap f) := by
  have hperm := (List.perm_cons_erase hx).filterMap f
  cases hf : f x with
  | none => simpa [hf] using hperm
  | some y => simpa [hf] using hperm

theorem held_update {Q : Job A → Prop} (h : ∀ j job, j ≠ i → jobs j = some job → Q job)
    (hi : ∀ job', job = some job' → Q job') (j : Fin n) (job' : Job A)
    (hj : Function.update jobs i job j = some job') : Q job' := by
  by_cases hji : j = i
  · subst hji
    rw [Function.update_self] at hj
    exact hi job' hj
  · rw [Function.update_of_ne hji] at hj
    exact h j job' hji hj

theorem held_injective {j : Fin n} {job job' : Job A} (h : (running jobs).Nodup) (hi : jobs i = some job)
    (hj : jobs j = some job') (hnumber : job.number = job'.number) : i = j := by
  by_contra hne
  have hperm := filterMap_perm (List.mem_finRange i) fun j => (jobs j).map Job.number
  rw [hi] at hperm
  apply (List.nodup_cons.mp (hperm.nodup h)).1
  rw [hnumber]
  apply List.mem_filterMap.mpr
  exact ⟨j, (List.mem_erase_of_ne (Ne.symm hne)).mpr (List.mem_finRange j), by simp [hj]⟩

theorem running_update (jobs : Fin n → Option (Job A)) (i : Fin n) : ∃ rest, ∀ job : Option (Job A),
    (running (Function.update jobs i job)).Perm ((job.map Job.number).toList ++ rest) := by
  refine ⟨((List.finRange n).erase i).filterMap fun j => (jobs j).map Job.number, fun job => ?_⟩
  have hperm := filterMap_perm (List.mem_finRange i) fun j =>
    (Function.update jobs i job j).map Job.number
  rw [Function.update_self] at hperm
  refine hperm.trans (List.Perm.of_eq (congrArg _ (List.filterMap_congr fun j hj => ?_)))
  have hne : j ≠ i := fun he => (List.nodup_finRange n).not_mem_erase (he ▸ hj)
  rw [Function.update_of_ne hne]

structure Accounted (l : Ledger A) (running : List ℕ) : Prop where
  order : l.taken ++ l.tasks.map Job.number = List.range l.enqueued
  held : (running ++ l.finished).Perm l.taken

theorem Accounted.perm {running running' : List ℕ} (h : Accounted l running)
    (hperm : running'.Perm running) : Accounted l running' :=
  ⟨h.order, (hperm.append_right _).trans h.held⟩

theorem Accounted.nodup {running : List ℕ} (h : Accounted l running) : (running ++ l.finished).Nodup := by
  apply h.held.nodup_iff.mpr
  apply List.Nodup.of_append_left
  rw [h.order]
  exact List.nodup_range

theorem Accounted.not_taken {running : List ℕ} {job : Job A} (h : Accounted l running)
    (hjob : job ∈ l.tasks) : job.number ∉ l.taken := by
  have hnodup : (l.taken ++ l.tasks.map Job.number).Nodup := h.order ▸ List.nodup_range
  intro htaken
  exact (List.nodup_append.mp hnodup).2.2 _ htaken _ (List.mem_map_of_mem hjob) rfl

theorem Accounted.emplace {running : List ℕ} (h : Accounted l running) (task : Code A) :
    Accounted (l.emplace task) running := by
  refine ⟨?_, h.held⟩
  rw [Ledger.emplace, List.map_append, ← List.append_assoc, h.order]
  exact List.range_succ.symm

theorem Accounted.call {running : List ℕ} (h : Accounted l running) (hstep : l.Step none l' none) :
    Accounted l' running := by
  cases hstep with
  | idle => exact h
  | emplace _ task => exact h.emplace task

theorem Accounted.step (h : Accounted l (running jobs)) (hstep : l.Step (jobs i) l' job) :
    Accounted l' (running (Function.update jobs i job)) := by
  obtain ⟨rest, hrest⟩ := running_update jobs i
  have hbefore : (running jobs).Perm (((jobs i).map Job.number).toList ++ rest) := by
    simpa using hrest (jobs i)
  have h := h.perm hbefore.symm
  apply Accounted.perm _ (hrest job)
  generalize jobs i = before at h hstep
  cases hstep with
  | idle => exact h
  | emplace _ task => exact h.emplace task
  | take job tasks ht =>
    constructor
    · rw [← h.order, ht]
      simp
    · have hheld : (rest ++ l.finished).Perm l.taken := h.held
      exact (hheld.cons job.number).trans (List.perm_append_singleton job.number l.taken).symm
  | perform k a rest' => exact ⟨h.order, h.held⟩
  | call k task rest' => exact ⟨h.order, h.held⟩
  | finish k code hended =>
    refine ⟨h.order, ?_⟩
    have hheld : (k :: (rest ++ l.finished)).Perm l.taken := h.held
    rw [Option.map_none, Option.toList_none, List.nil_append, ← List.append_assoc]
    exact (List.perm_append_singleton k (rest ++ l.finished)).trans hheld

end Accounts

namespace ThreadPool

variable {n : ℕ} {C : Type} {s s' : ThreadPool n C A} {l : Label n C A}

def inside (s : ThreadPool n C A) : Fin n ⊕ C → Prop
  | .inl i => (s.workers i).inside = true
  | .inr c => (s.callers c).any Enqueue.inside = true

def jobs (s : ThreadPool n C A) (i : Fin n) : Option (Job A) := (s.workers i).job

def Attended (s : ThreadPool n C A) : Prop :=
  s.tasks ≠ [] → (∃ i, (s.workers i).asleep = false) ∨ ∃ c, (s.callers c).any Enqueue.owes = true

structure Sound (s : ThreadPool n C A) : Prop where
  exclusive : Exclusive s.queueMutex s.inside
  accounted : Accounted s.toLedger (running s.jobs)
  knows : ∀ i, (s.workers i).Knows s.tasks s.stop
  closed : s.stop = true → ∀ c, s.callers c = none
  opened : s.destructor = .before ↔ s.stop = false

section Workers

variable {i : Fin n} {w : Worker A} {q : Shared (Fin n ⊕ C) A}

@[simp] theorem setWorker_jobs (s : ThreadPool n C A) (i : Fin n) (w : Worker A) :
    (s.setWorker i w).jobs = Function.update s.jobs i w.job := by
  funext j
  by_cases hj : j = i
  · subst hj
    simp [jobs]
  · simp [jobs, hj]

theorem setWorker_jobs_of_same (h : w.job = (s.workers i).job) : (s.setWorker i w).jobs = s.jobs := by
  rw [setWorker_jobs, Function.update_eq_self_iff]
  exact h

theorem wakeAll_jobs (s : ThreadPool n C A) : s.wakeAll.jobs = s.jobs := by
  funext j
  by_cases hj : (s.workers j).isBlocked = true
  · simp [jobs, wakeAll, Worker.eq_blocked hj, Worker.isBlocked, Worker.job]
  · simp [jobs, wakeAll, hj]

theorem setWorker_inside_self : (s.setWorker i w).inside (.inl i) ↔ w.inside = true := by
  simp [inside]

theorem setWorker_inside_of_ne {u : Fin n ⊕ C} (hu : u ≠ .inl i) :
    (s.setWorker i w).inside u ↔ s.inside u := by
  cases u with
  | inl j =>
    have hj : j ≠ i := fun he => hu (he ▸ rfl)
    simp [inside, hj]
  | inr c => exact Iff.rfl

theorem Sound.setWorker (h : s.Sound) (hin : w.inside = (s.workers i).inside)
    (hjob : w.job = (s.workers i).job) (hknows : w.Knows s.tasks s.stop) : (s.setWorker i w).Sound := by
  refine ⟨?_, ?_, ?_, h.closed, h.opened⟩
  · apply h.exclusive.same
    intro u
    by_cases hu : u = .inl i
    · subst hu
      rw [setWorker_inside_self, hin]
      exact Iff.rfl
    · exact setWorker_inside_of_ne hu
  · rw [setWorker_jobs_of_same hjob]
    exact h.accounted
  · intro j
    by_cases hj : j = i
    · subst hj
      simpa using hknows
    · simpa [hj] using h.knows j

theorem Sound.worker_step (h : s.Sound) (hs : (s.workers i).Stepped (.inl i) s.toShared q w) :
    ((s.setShared q).setWorker i w).Sound := by
  refine ⟨?_, ?_, ?_, ?_, ?_⟩
  · apply h.exclusive.turn (t := .inl i)
    · rw [setWorker_inside_self]
      exact hs.turn
    · exact fun u hu => setWorker_inside_of_ne hu
  · rw [setWorker_jobs]
    exact h.accounted.step hs.ledger
  · intro j
    by_cases hj : j = i
    · subst hj
      simpa using hs.knows (h.knows j)
    · have hother : (s.workers j).inside = true → q.tasks = s.tasks := by
        intro hin
        apply hs.tasks.resolve_left
        intro hi
        exact hj (Sum.inl.inj (h.exclusive.alone hin hi))
      have hknows := (h.knows j).mono hother fun hstop => hs.stop.trans hstop
      simpa [hj] using hknows
  · intro hstop
    exact h.closed (hs.stop ▸ hstop)
  · exact hs.stop ▸ h.opened

theorem Sound.wakeAll (h : s.Sound) : s.wakeAll.Sound := by
  refine ⟨?_, ?_, ?_, h.closed, h.opened⟩
  · apply h.exclusive.same
    rintro (j | c)
    · by_cases hj : (s.workers j).isBlocked = true
      · simp [inside, ThreadPool.wakeAll, Worker.eq_blocked hj, Worker.isBlocked, Worker.inside]
      · simp [inside, ThreadPool.wakeAll, hj]
    · exact Iff.rfl
  · rw [wakeAll_jobs]
    exact h.accounted
  · intro j
    by_cases hj : (s.workers j).isBlocked = true
    · simp [ThreadPool.wakeAll, hj, Worker.Knows]
    · simpa [ThreadPool.wakeAll, hj] using h.knows j

end Workers

section Callers

theorem Sound.open_of_call (h : s.Sound) {c : C} {call : Enqueue A} (hc : s.callers c = some call) :
    s.stop = false := by
  by_contra hstop
  have hnone := h.closed (by simpa using hstop) c
  simp [hc] at hnone

variable [DecidableEq C] {c : C} {call : Option (Enqueue A)} {q : Shared (Fin n ⊕ C) A}

theorem setCaller_inside_self :
    (s.setCaller c call).inside (.inr c) ↔ call.any Enqueue.inside = true := by
  simp [inside]

theorem setCaller_inside_of_ne {u : Fin n ⊕ C} (hu : u ≠ .inr c) :
    (s.setCaller c call).inside u ↔ s.inside u := by
  cases u with
  | inl i => exact Iff.rfl
  | inr d =>
    have hd : d ≠ c := fun he => hu (he ▸ rfl)
    simp [inside, hd]

theorem Sound.setCaller (h : s.Sound) (hopen : s.stop = false)
    (hin : call.any Enqueue.inside = (s.callers c).any Enqueue.inside) : (s.setCaller c call).Sound := by
  refine ⟨?_, h.accounted, h.knows, ?_, h.opened⟩
  · apply h.exclusive.same
    intro u
    by_cases hu : u = .inr c
    · subst hu
      rw [setCaller_inside_self, hin]
      exact Iff.rfl
    · exact setCaller_inside_of_ne hu
  · intro hstop
    rw [setCaller_toShared, hopen] at hstop
    cases hstop

theorem Sound.caller_step {call call' : Enqueue A} (h : s.Sound) (hc : s.callers c = some call)
    (hs : call.Stepped (.inr c) s.toShared q call') :
    ((s.setShared q).setCaller c (some call')).Sound := by
  have hopen := h.open_of_call hc
  refine ⟨?_, h.accounted.call (hs.ledger none), ?_, ?_, ?_⟩
  · apply h.exclusive.turn (t := .inr c)
    · rw [setCaller_inside_self]
      simpa [inside, hc] using hs.turn
    · exact fun u hu => setCaller_inside_of_ne hu
  · intro j
    have hother : (s.workers j).inside = true → q.tasks = s.tasks := by
      intro hin
      apply hs.tasks.resolve_left
      rintro ⟨hcall, -⟩
      have hworker : s.inside (.inl j) := hin
      have hcaller : s.inside (.inr c) := by simpa [inside, hc] using hcall
      cases h.exclusive.alone hworker hcaller
    exact (h.knows j).mono hother fun hstop => hs.stop.trans hstop
  · intro hstop
    have hclosed : q.stop = true := hstop
    rw [hs.stop, hopen] at hclosed
    cases hclosed
  · exact hs.stop ▸ h.opened

end Callers

section Steps

inductive Woken (s : ThreadPool n C A) : ThreadPool n C A → Prop
  | worker (i : Fin n) (h : s.workers i = .blocked) : Woken s (s.setWorker i .locking)
  | nobody (h : ∀ i, (s.workers i).isBlocked = false) : Woken s s

theorem woken_of {woken : Option (Fin n)} (h : s.wakeOne woken = some s') : s.Woken s' := by
  cases woken with
  | none =>
    obtain ⟨hnone, he⟩ := Option.ite_none_right_eq_some.mp h
    cases he
    exact .nobody hnone
  | some i =>
    obtain ⟨hblocked, he⟩ := Option.ite_none_right_eq_some.mp h
    cases he
    exact .worker i (Worker.eq_blocked hblocked)

theorem Woken.ledger (h : s.Woken s') : s'.toLedger = s.toLedger ∧ s'.jobs = s.jobs := by
  cases h with
  | worker i hblocked => exact ⟨rfl, setWorker_jobs_of_same (by rw [hblocked]; rfl)⟩
  | nobody => exact ⟨rfl, rfl⟩

variable [DecidableEq C]

inductive Notified (s : ThreadPool n C A) : Fin n ⊕ C → ThreadPool n C A → Prop
  | worker (i : Fin n) (job : Job A) (h : s.workers i = .enqueueing job .notifying) :
      Notified s (.inl i) (s.setWorker i (.running job))
  | caller (c : C) (h : s.callers c = some .notifying) : Notified s (.inr c) (s.setCaller c none)

theorem notified_of {t : Fin n ⊕ C} (h : s.notified t = some s') : s.Notified t s' := by
  cases t with
  | inl i =>
    simp only [notified] at h
    split at h
    next job hw =>
      cases h
      exact .worker i job hw
    next => cases h
  | inr c =>
    simp only [notified] at h
    split at h
    next hc =>
      cases h
      exact .caller c hc
    next => cases h

inductive Stepped (s : ThreadPool n C A) : Label n C A → ThreadPool n C A → Prop
  | worker (i : Fin n) (w : Worker A) (q : Shared (Fin n ⊕ C) A)
      (h : (s.workers i).advance (.inl i) s.toShared = some (w, q)) :
      Stepped s (.worker i) ((s.setShared q).setWorker i w)
  | wake (i : Fin n) (h : s.workers i = .blocked) : Stepped s (.wake i) (s.setWorker i .locking)
  | call (c : C) (task : Code A) (hbefore : s.destructor = .before) (h : s.callers c = none) :
      Stepped s (.call c task) (s.setCaller c (some (.locking task)))
  | caller (c : C) (call call' : Enqueue A) (q : Shared (Fin n ⊕ C) A) (hc : s.callers c = some call)
      (h : call.advance (.inr c) s.toShared = some (call', q)) :
      Stepped s (.caller c) ((s.setShared q).setCaller c (some call'))
  | notify (t : Fin n ⊕ C) (woken : Option (Fin n)) (u s' : ThreadPool n C A) (hn : s.Notified t u)
      (h : u.Woken s') : Stepped s (.notify t woken) s'
  | stop (hbefore : s.destructor = .before) (h : ∀ c, s.callers c = none) :
      Stepped s .destructor { s with stop := true, destructor := .notifying }
  | wakeAll (h : s.destructor = .notifying) :
      Stepped s .destructor { s.wakeAll with destructor := .joining 0 }
  | join (k : ℕ) (h : s.destructor = .joining k) :
      Stepped s .destructor { s with destructor := .joining (k + 1) }

theorem Notified.ledger {t : Fin n ⊕ C} (h : s.Notified t s') :
    s'.toLedger = s.toLedger ∧ s'.jobs = s.jobs := by
  cases h with
  | worker i job hi => exact ⟨rfl, setWorker_jobs_of_same (by rw [hi]; rfl)⟩
  | caller c hc => exact ⟨rfl, rfl⟩

theorem Stepped.ledger (h : s.Stepped l s') :
    (∃ i job, s.toLedger.Step (s.jobs i) s'.toLedger job ∧ s'.jobs = Function.update s.jobs i job) ∨
      s.toLedger.Step none s'.toLedger none ∧ s'.jobs = s.jobs := by
  cases h with
  | worker i w q hw => exact .inl ⟨i, w.job, (Worker.stepped hw).ledger, setWorker_jobs _ i w⟩
  | caller c call call' q hc hcall => exact .inr ⟨(Enqueue.stepped hcall).ledger none, rfl⟩
  | wake i hblocked =>
    obtain ⟨hledger, hjobs⟩ := (Woken.worker i hblocked).ledger
    exact .inr ⟨hledger ▸ .idle none, hjobs⟩
  | notify t woken u s' hn hw =>
    obtain ⟨hledger, hjobs⟩ := hn.ledger
    obtain ⟨hledger', hjobs'⟩ := hw.ledger
    exact .inr ⟨hledger'.trans hledger ▸ .idle none, hjobs'.trans hjobs⟩
  | wakeAll => exact .inr ⟨.idle none, wakeAll_jobs s⟩
  | call | stop | join => exact .inr ⟨.idle none, rfl⟩

variable [Fintype C]

theorem stepped (h : step s l = some s') : s.Stepped l s' := by
  cases l with
  | worker i =>
    obtain ⟨⟨w, q⟩, hw, he⟩ := Option.map_eq_some_iff.mp h
    cases he
    exact .worker i w q hw
  | wake i =>
    obtain ⟨hblocked, he⟩ := Option.ite_none_right_eq_some.mp h
    cases he
    exact .wake i (Worker.eq_blocked hblocked)
  | call c task =>
    obtain ⟨⟨hbefore, hnone⟩, he⟩ := Option.ite_none_right_eq_some.mp h
    cases he
    exact .call c task hbefore (Option.isNone_iff_eq_none.mp hnone)
  | caller c =>
    obtain ⟨call, hc, h⟩ := Option.bind_eq_some_iff.mp h
    obtain ⟨⟨call', q⟩, hcall, he⟩ := Option.map_eq_some_iff.mp h
    cases he
    exact .caller c call call' q hc hcall
  | notify t woken =>
    obtain ⟨u, hu, h⟩ := Option.bind_eq_some_iff.mp h
    exact .notify t woken u s' (notified_of hu) (woken_of h)
  | destructor =>
    cases hd : s.destructor with
    | before =>
      simp only [step, hd] at h
      obtain ⟨hnone, he⟩ := Option.ite_none_right_eq_some.mp h
      cases he
      exact .stop hd fun c => Option.isNone_iff_eq_none.mp (hnone c)
    | notifying =>
      simp only [step, hd] at h
      cases h
      exact .wakeAll hd
    | joining k =>
      simp only [step, hd] at h
      split at h
      next hlt =>
        obtain ⟨-, he⟩ := Option.ite_none_right_eq_some.mp h
        cases he
        exact .join k hd
      next => cases h

end Steps

section Invariants

theorem setWorker_apart {i j : Fin n} {w : Worker A} (h : ∀ i, (s.workers i).isEnqueueing = false)
    (hw : w.isEnqueueing = false) : ((s.setWorker i w).workers j).isEnqueueing = false := by
  by_cases hj : j = i
  · subst hj
    simpa using hw
  · simpa [hj] using h j

theorem Woken.apart (h : ∀ i, (s.workers i).isEnqueueing = false) (hw : s.Woken s') (i : Fin n) :
    (s'.workers i).isEnqueueing = false := by
  cases hw with
  | worker j => exact setWorker_apart h rfl
  | nobody => exact h i

theorem Stepped.apart [DecidableEq C] (hs : s.Stepped l s') (h : ∀ i, (s.workers i).isEnqueueing = false)
    (hjobs : ∀ i k task rest, s.jobs i ≠ some ⟨k, .enqueue task rest⟩) (i : Fin n) :
    (s'.workers i).isEnqueueing = false := by
  cases hs with
  | worker j w q hw =>
    exact setWorker_apart (s := s.setShared q) h (Worker.isEnqueueing_advance (h j) hw (hjobs j))
  | wake j hblocked => exact setWorker_apart h rfl
  | notify t woken u _ hn hw =>
    refine hw.apart (fun j => ?_) i
    cases hn with
    | worker i' job hi => exact setWorker_apart h rfl
    | caller c hc => exact h j
  | wakeAll =>
    by_cases hi : (s.workers i).isBlocked = true
    · simp [ThreadPool.wakeAll, hi, Worker.isEnqueueing]
    · simpa [ThreadPool.wakeAll, hi] using h i
  | call | caller | stop | join => exact h i

theorem Stepped.entering [DecidableEq C] (hs : s.Stepped l s') (hl : ∀ c task, l ≠ .call c task) {c : C}
    {task : Code A} (htask : (s'.callers c).bind Enqueue.task? = some task) :
    (s.callers c).bind Enqueue.task? = some task ∧
      ∀ task', ¬ (l = .caller c ∧ s.callers c = some (.emplacing task')) := by
  have hwoken {u u' : ThreadPool n C A} (hw : u.Woken u') : u'.callers = u.callers := by
    cases hw <;> rfl
  cases hs with
  | caller d call call' q hd hcall =>
    by_cases hc : c = d
    · subst hc
      rw [setCaller_callers, Function.update_self] at htask
      cases call with
      | locking task' =>
        obtain ⟨-, he⟩ := Option.ite_none_right_eq_some.mp hcall
        cases he
        exact ⟨hd ▸ htask, fun task'' h => by cases hd.symm.trans h.2⟩
      | notifying => cases hcall
      | _ =>
        cases hcall
        cases htask
    · rw [setCaller_callers, Function.update_of_ne hc] at htask
      exact ⟨htask, fun task' h => hc (Label.caller.inj h.1).symm⟩
  | call d task' => exact absurd rfl (hl d task')
  | notify t woken u _ hn hw =>
    rw [hwoken hw] at htask
    refine ⟨?_, by simp⟩
    cases hn with
    | worker => exact htask
    | caller d hd =>
      by_cases hc : c = d
      · subst hc
        simp at htask
      · simpa [hc] using htask
  | _ => exact ⟨htask, by simp⟩

theorem running_start : running (start : ThreadPool n C A).jobs = [] :=
  List.filterMap_eq_nil_iff.mpr fun _ _ => rfl

theorem Sound.start : (start : ThreadPool n C A).Sound where
  exclusive t := by cases t <;> simp [inside, ThreadPool.start, Worker.inside]
  accounted := running_start ▸ ⟨rfl, List.Perm.refl []⟩
  knows _ := trivial
  closed h := by cases h
  opened := ⟨fun _ => rfl, fun _ => rfl⟩

theorem Attended.of_awake {i : Fin n} (h : (s.workers i).asleep = false) : s.Attended :=
  fun _ => .inl ⟨i, h⟩

theorem Attended.setWorker {i : Fin n} {w : Worker A} (h : w.asleep = false) :
    (s.setWorker i w).Attended := by
  apply Attended.of_awake (i := i)
  simpa using h

theorem Sound.woken (h : s.Sound) (hw : s.Woken s') : s'.Sound := by
  cases hw with
  | worker i hblocked =>
    apply h.setWorker
    · rw [hblocked]
      rfl
    · rw [hblocked]
      rfl
    · trivial
  | nobody => exact h

theorem Attended.worker_step {i : Fin n} {w : Worker A} {q : Shared (Fin n ⊕ C) A} (h : s.Sound)
    (hw : (s.workers i).Stepped (.inl i) s.toShared q w) : ((s.setShared q).setWorker i w).Attended := by
  cases hasleep : w.asleep with
  | true => exact fun htasks => absurd (hw.asleep (h.knows i) hasleep) htasks
  | false => exact .setWorker hasleep

variable [DecidableEq C]

theorem Sound.notified {t : Fin n ⊕ C} (h : s.Sound) (hn : s.Notified t s') : s'.Sound := by
  cases hn with
  | worker i job hw =>
    apply h.setWorker
    · rw [hw]
      rfl
    · rw [hw]
      rfl
    · trivial
  | caller c hc =>
    apply h.setCaller (h.open_of_call hc)
    rw [hc]
    rfl

theorem Sound.stepped (h : s.Sound) (hs : s.Stepped l s') : s'.Sound := by
  cases hs with
  | worker i w q hw => exact h.worker_step (Worker.stepped hw)
  | wake i hblocked => exact h.woken (.worker i hblocked)
  | call c task hbefore hc =>
    apply h.setCaller (h.opened.mp hbefore)
    rw [hc]
    rfl
  | caller c call call' q hc hcall => exact h.caller_step hc (Enqueue.stepped hcall)
  | notify t woken u s' hn hw => exact (h.notified hn).woken hw
  | stop hbefore hnone =>
    refine ⟨h.exclusive, h.accounted, ?_, fun _ => hnone, by simp⟩
    exact fun i => (h.knows i).mono (fun _ => rfl) fun _ => rfl
  | wakeAll hnotifying =>
    have hwoken := h.wakeAll
    have hopened := hnotifying ▸ hwoken.opened
    exact ⟨hwoken.exclusive, hwoken.accounted, hwoken.knows, hwoken.closed, by simpa using hopened⟩
  | join k hk =>
    have hopened := hk ▸ h.opened
    exact ⟨h.exclusive, h.accounted, h.knows, h.closed, by simpa using hopened⟩

theorem Attended.setCaller {c : C} {call : Option (Enqueue A)} {q : Shared (Fin n ⊕ C) A}
    (ha : s.Attended) (hq : call.any Enqueue.owes = true ∨ q.tasks = s.tasks)
    (howes : (s.callers c).any Enqueue.owes = true → call.any Enqueue.owes = true) :
    ((s.setShared q).setCaller c call).Attended := by
  intro htasks
  by_cases hcall : call.any Enqueue.owes = true
  · exact .inr ⟨c, by simpa using hcall⟩
  · rcases ha ((hq.resolve_left hcall) ▸ htasks) with ⟨i, hi⟩ | ⟨d, hd⟩
    · exact .inl ⟨i, hi⟩
    · have hne : d ≠ c := fun he => hcall (howes (he ▸ hd))
      exact .inr ⟨d, by simpa [hne] using hd⟩

theorem Attended.notified (hn : 0 < n) (h : s.Sound) {t : Fin n ⊕ C} {u : ThreadPool n C A}
    (ht : s.Notified t u) (hw : u.Woken s') : s'.Attended := by
  cases hw with
  | worker i hblocked => exact .setWorker rfl
  | nobody hnone =>
    cases ht with
    | worker i job hi => exact .setWorker rfl
    | caller c hc =>
      -- no worker is blocked, and none has returned while a call from outside is under way
      have hopen := h.open_of_call hc
      have hknows := h.knows ⟨0, hn⟩
      have hblocked : (s.workers ⟨0, hn⟩).isBlocked = false := hnone ⟨0, hn⟩
      apply Attended.of_awake (i := ⟨0, hn⟩)
      show (s.workers ⟨0, hn⟩).asleep = false
      cases hworker : s.workers ⟨0, hn⟩ with
      | returned =>
        rw [hworker] at hknows
        exact absurd hknows (by simp [Worker.Knows, hopen])
      | blocked => simp [hworker, Worker.isBlocked] at hblocked
      | _ => rfl

theorem Attended.stepped (hn : 0 < n) (h : s.Sound) (ha : s.Attended) (hs : s.Stepped l s') :
    s'.Attended := by
  cases hs with
  | worker i w q hw => exact .worker_step h (Worker.stepped hw)
  | wake i hblocked => exact .setWorker rfl
  | call c task hbefore hc => exact ha.setCaller (.inr rfl) (by simp [hc])
  | caller c call call' q hc hcall =>
    have hs := Enqueue.stepped hcall
    apply ha.setCaller
    · exact hs.tasks.imp And.right id
    · simpa [hc] using hs.owes
  | notify t woken u s' ht hw => exact .notified hn h ht hw
  | stop hbefore hnone => exact ha
  | wakeAll hnotifying =>
    intro htasks
    rcases ha htasks with ⟨i, hi⟩ | howed
    · have hblocked : (s.workers i).isBlocked = false := by
        simp only [Worker.asleep, Bool.or_eq_false_iff] at hi
        exact hi.1
      exact .inl ⟨i, by simpa [ThreadPool.wakeAll, hblocked] using hi⟩
    · exact .inr howed
  | join k hk => exact ha

end Invariants

section Reached

theorem Sound.partition (h : s.Sound) :
    (s.tasks.map Job.number ++ (running s.jobs ++ s.finished)).Perm (List.range s.enqueued) := by
  rw [← h.accounted.order]
  exact (h.accounted.held.append_left _).trans List.perm_append_comm

theorem Sound.taken_eq_range (hs : s.Sound) : s.taken = List.range s.taken.length := by
  have hle : s.taken.length ≤ s.enqueued := by
    have hlength := congrArg List.length hs.accounted.order
    simp only [List.length_append, List.length_map, List.length_range] at hlength
    omega
  have htake := congrArg (List.take s.taken.length) hs.accounted.order
  rwa [List.take_left, List.take_range, min_eq_left hle] at htake

theorem Attended.not_all_asleep (ha : s.Attended) : ¬ (s.tasks ≠ [] ∧
    (∀ i, (s.workers i).isReturned = false → (s.workers i).isBlocked = true) ∧
    ∀ c, (s.callers c).any Enqueue.owes = false) := by
  rintro ⟨htasks, hasleep, howes⟩
  rcases ha htasks with ⟨i, hi⟩ | ⟨c, hc⟩
  · obtain ⟨hblocked, hreturned⟩ := Bool.or_eq_false_iff.mp hi
    rw [hasleep i hreturned] at hblocked
    cases hblocked
  · rw [howes c] at hc
    cases hc

theorem Worker.eq_returned {w : Worker A} (h : w.isReturned = true) : w = .returned := by
  cases w with
  | returned => rfl
  | _ => cases h

theorem Sound.drained (hn : 0 < n) (h : s.Sound) (ha : s.Attended)
    (hreturned : ∀ i, (s.workers i).isReturned = true) : s.finished.Perm (List.range s.enqueued) := by
  have hworker (i : Fin n) : s.workers i = .returned := Worker.eq_returned (hreturned i)
  have hstop : s.stop = true := by
    have hknows := h.knows ⟨0, hn⟩
    rwa [hworker] at hknows
  have hempty : s.tasks = [] := by
    by_contra htasks
    rcases ha htasks with ⟨i, hi⟩ | ⟨c, hc⟩
    · simp [hworker, Worker.asleep, Worker.isReturned] at hi
    · simp [h.closed hstop c] at hc
  have hidle : running s.jobs = [] := by
    apply List.filterMap_eq_nil_iff.mpr
    intro i _
    simp [jobs, hworker, Worker.job]
  simpa [hempty, hidle] using h.partition

variable [DecidableEq C] [Fintype C] {labels : List (Label n C A)}

theorem sound_of_exec (hrun : exec step start labels = some s) : s.Sound :=
  exec_invariant (fun _ _ _ h hstep => h.stepped (stepped hstep)) .start hrun

theorem attended_of_exec (hn : 0 < n) (hrun : exec step start labels = some s) : s.Attended := by
  have hboth : s.Sound ∧ s.Attended := by
    apply exec_invariant (I := fun t => t.Sound ∧ t.Attended) ?_ ⟨.start, fun htasks => absurd rfl htasks⟩ hrun
    intro t l t' ht hstep
    have hs := stepped hstep
    exact ⟨ht.1.stepped hs, .stepped hn ht.1 ht.2 hs⟩
  exact hboth.2

end Reached

end ThreadPool

end XconnCpp.Pool

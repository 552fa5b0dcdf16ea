import XconnCpp.PoolRuns

namespace XconnCpp.Pool

open Library Library.Transition

variable {A : Type}

section Carried

variable {n : ℕ} {l l' : Ledger A} {jobs : Fin n → Option (Job A)} {job : Option (Job A)} {i : Fin n}
  {k k' : ℕ} {a : A} {code : Code A}

def Code.actions : Code A → List A
  | .step a rest => a :: rest.actions
  | .enqueue _ rest => rest.actions
  | _ => []

def Ledger.performedBy (l : Ledger A) (k : ℕ) : List A :=
  (l.performed.filter (·.1 = k)).map Prod.snd

def Ledger.Carries (l : Ledger A) (k : ℕ) (code : Code A) : Prop :=
  ∃ task, l.submitted[k]? = some task ∧ task.actions = l.performedBy k ++ code.actions

structure Carried (l : Ledger A) (jobs : Fin n → Option (Job A)) : Prop where
  submitted : l.submitted.length = l.enqueued
  below : ∀ p ∈ l.performed, p.1 < l.enqueued
  queued : ∀ job ∈ l.tasks, l.submitted[job.number]? = some job.code ∧ l.performedBy job.number = []
  held : ∀ i job, jobs i = some job → l.Carries job.number job.code
  finished : ∀ k ∈ l.finished, ∃ task, l.submitted[k]? = some task ∧ l.performedBy k = task.actions

theorem performedBy_perform : ({ l with performed := l.performed ++ [(k, a)] } : Ledger A).performedBy k' =
    l.performedBy k' ++ if k = k' then [a] else [] := by
  by_cases hk : k = k' <;> simp [Ledger.performedBy, hk]

theorem performedBy_perform_of_ne (hk : k' ≠ k) :
    ({ l with performed := l.performed ++ [(k, a)] } : Ledger A).performedBy k' = l.performedBy k' := by
  simp [performedBy_perform, Ne.symm hk]

theorem getElem?_snoc {α : Type} {xs : List α} {x : α} (h : xs[k]? = some x) (y : α) :
    (xs ++ [y])[k]? = some x := by
  rw [List.getElem?_append_left (List.getElem?_eq_some_iff.mp h).1]
  exact h

theorem Carried.emplace (h : Carried l jobs) (task : Code A) : Carried (l.emplace task) jobs where
  submitted := by simp [Ledger.emplace, h.submitted]
  below p hp := Nat.lt_succ_of_lt (h.below p hp)
  queued job hjob := by
    rcases List.mem_append.mp hjob with hjob | hjob
    · obtain ⟨hcode, hnone⟩ := h.queued job hjob
      exact ⟨getElem?_snoc hcode task, hnone⟩
    · obtain rfl := List.mem_singleton.mp hjob
      refine ⟨by simp [Ledger.emplace, ← h.submitted], ?_⟩
      simp only [Ledger.performedBy, Ledger.emplace, List.map_eq_nil_iff, List.filter_eq_nil_iff]
      intro p hp
      simpa using Nat.ne_of_lt (h.below p hp)
  held i job hi := by
    obtain ⟨task', htask, hactions⟩ := h.held i job hi
    exact ⟨task', getElem?_snoc htask task, hactions⟩
  finished k hk := by
    obtain ⟨task', htask, hactions⟩ := h.finished k hk
    exact ⟨task', getElem?_snoc htask task, hactions⟩

theorem Carried.call (h : Carried l jobs) (hstep : l.Step none l' none) : Carried l' jobs := by
  cases hstep with
  | idle => exact h
  | emplace _ task => exact h.emplace task

theorem Carried.step (h : Carried l jobs) (ha : Accounted l (running jobs))
    (hstep : l.Step (jobs i) l' job) : Carried l' (Function.update jobs i job) := by
  have hheld := h.held i
  have hothers (j : Fin n) (job' : Job A) (_ : j ≠ i) (hj : jobs j = some job') := h.held j job' hj
  have hne (j : Fin n) (job' : Job A) (hji : j ≠ i) (hj : jobs j = some job') (job : Job A)
      (hi : jobs i = some job) : job'.number ≠ job.number :=
    fun he => hji (held_injective ha.nodup.of_append_left hj hi he)
  have hrunning (job : Job A) (hi : jobs i = some job) : job.number ∈ running jobs :=
    List.mem_filterMap.mpr ⟨i, List.mem_finRange i, by simp [hi]⟩
  generalize jobs i = before at hstep hheld hne hrunning
  cases hstep with
  | idle => exact ⟨h.submitted, h.below, h.queued, held_update hothers hheld, h.finished⟩
  | emplace _ task =>
    have hemplaced := h.emplace task
    refine ⟨hemplaced.submitted, hemplaced.below, hemplaced.queued, ?_, hemplaced.finished⟩
    refine held_update (fun j job' _ hj => hemplaced.held j job' hj) fun job' hjob' => ?_
    obtain ⟨task', htask, hactions⟩ := hheld job' hjob'
    exact ⟨task', getElem?_snoc htask task, hactions⟩
  | take job tasks ht =>
    refine ⟨h.submitted, h.below, fun job' hjob' => ?_, held_update hothers fun job' hjob' => ?_, h.finished⟩
    · exact h.queued job' (ht ▸ List.mem_cons_of_mem job hjob')
    · obtain rfl := Option.some.inj hjob'
      obtain ⟨hcode, hnone⟩ := h.queued job (ht ▸ List.mem_cons_self)
      refine ⟨job.code, hcode, ?_⟩
      show job.code.actions = l.performedBy job.number ++ job.code.actions
      rw [hnone, List.nil_append]
  | perform k a rest =>
    have hk := hrunning _ rfl
    obtain ⟨task, htask, hactions⟩ := hheld _ rfl
    have hlt : k < l.enqueued := h.submitted ▸ (List.getElem?_eq_some_iff.mp htask).1
    refine ⟨h.submitted, fun p hp => ?_, fun job' hjob' => ?_, held_update (fun j job' hji hj => ?_) ?_,
      fun k' hk' => ?_⟩
    · rcases List.mem_append.mp hp with hp | hp
      · exact h.below p hp
      · obtain rfl := List.mem_singleton.mp hp
        exact hlt
    · have hnot : job'.number ≠ k := by
        rintro rfl
        exact ha.not_taken hjob' (ha.held.mem_iff.mp (List.mem_append_left _ hk))
      rw [performedBy_perform_of_ne hnot]
      exact h.queued job' hjob'
    · obtain ⟨task', htask', hactions'⟩ := hothers j job' hji hj
      refine ⟨task', htask', ?_⟩
      rw [performedBy_perform_of_ne (hne j job' hji hj _ rfl)]
      exact hactions'
    · rintro job' hjob'
      obtain rfl := Option.some.inj hjob'
      refine ⟨task, htask, ?_⟩
      rw [performedBy_perform, if_pos rfl, List.append_assoc]
      exact hactions
    · have hnot : k' ≠ k := by
        rintro rfl
        exact (List.nodup_append.mp ha.nodup).2.2 _ hk _ hk' rfl
      rw [performedBy_perform_of_ne hnot]
      exact h.finished k' hk'
  | call k task rest =>
    refine ⟨h.submitted, h.below, h.queued, held_update hothers ?_, h.finished⟩
    rintro job' hjob'
    obtain rfl := Option.some.inj hjob'
    obtain ⟨task', htask', hactions⟩ := hheld _ rfl
    exact ⟨task', htask', hactions⟩
  | finish k code hended =>
    refine ⟨h.submitted, h.below, h.queued, held_update hothers fun job' hjob' => (by cases hjob'), ?_⟩
    intro k' hk'
    rcases List.mem_append.mp hk' with hk' | hk'
    · exact h.finished k' hk'
    · obtain rfl := List.mem_singleton.mp hk'
      obtain ⟨task, htask, hactions⟩ := hheld _ rfl
      have hnothing : code.actions = [] := by
        rcases hended with rfl | rfl <;> rfl
      rw [hnothing, List.append_nil] at hactions
      exact ⟨task, htask, hactions.symm⟩

end Carried

namespace ThreadPool

variable {n : ℕ} {C : Type} [DecidableEq C] {s s' : ThreadPool n C A} {l : Label n C A}
  {labels : List (Label n C A)}

theorem carried_stepped (h : Carried s.toLedger s.jobs) (hs : s.Sound) (hstep : s.Stepped l s') :
    Carried s'.toLedger s'.jobs := by
  rcases hstep.ledger with ⟨i, job, hledger, hjobs⟩ | ⟨hledger, hjobs⟩
  · exact hjobs ▸ h.step hs.accounted hledger
  · exact hjobs ▸ h.call hledger

/-- Every task that has been enqueued is in the queue, with one worker or has ended, and it is in one
of these places once; one that has ended has taken its steps, each once and in order. A queue that is not
empty is never left to workers that are all blocked. -/
structure RunsEachTaskOnce (s : ThreadPool n C A) : Prop where
  partition : (s.tasks.map Job.number ++ (running s.jobs ++ s.finished)).Perm (List.range s.enqueued)
  order : s.taken ++ s.tasks.map Job.number = List.range s.enqueued
  submitted : s.submitted.length = s.enqueued
  performed : ∀ k ∈ s.finished, ∃ task, s.submitted[k]? = some task ∧ s.performedBy k = task.actions
  attended : ¬ (s.tasks ≠ [] ∧
    (∀ i, (s.workers i).isReturned = false → (s.workers i).isBlocked = true) ∧
    ∀ c, (s.callers c).any Enqueue.owes = false)
  drained : (∀ i, (s.workers i).isReturned = true) → s.finished.Perm (List.range s.enqueued)

variable [Fintype C]

theorem carried_of_exec (hrun : exec step start labels = some s) : Carried s.toLedger s.jobs := by
  have hboth : s.Sound ∧ Carried s.toLedger s.jobs := by
    apply exec_invariant (I := fun s : ThreadPool n C A => s.Sound ∧ Carried s.toLedger s.jobs) _ _ hrun
    · exact fun _ _ _ h hstep => ⟨h.1.stepped (stepped hstep), carried_stepped h.2 h.1 (stepped hstep)⟩
    · exact ⟨.start, rfl, by simp [start], by simp [start], fun i job hjob => (by cases hjob), by simp [start]⟩
  exact hboth.2

theorem runs_each_task_once (hn : 0 < n) (hrun : exec step start labels = some s) :
    s.RunsEachTaskOnce := by
  have hsound := sound_of_exec hrun
  have hattended := attended_of_exec hn hrun
  have hcarried := carried_of_exec hrun
  constructor
  · exact hsound.partition
  · exact hsound.accounted.order
  · exact hcarried.submitted
  · exact hcarried.finished
  · exact hattended.not_all_asleep
  · exact hsound.drained hn hattended

def nestedLabels : List (Label 1 Unit Unit) :=
  [.call () (.enqueue (.step () .threw) .returned), .caller (), .caller (), .caller (),
    .notify (.inr ()) none, .destructor, .destructor] ++
    List.replicate 9 (.worker onlyWorker) ++ [.notify (.inl onlyWorker) none] ++
    List.replicate 12 (.worker onlyWorker) ++ [.destructor]

theorem runs_each_task_once_nested : ∃ s, exec step start nestedLabels = some s ∧
    s.finished = [0, 1] ∧ s.destructor = .joining 1 ∧ s.RunsEachTaskOnce := by
  have hrun : ((exec step start nestedLabels).map fun s => (s.finished, s.destructor)) =
    some ([0, 1], .joining 1) := by decide
  obtain ⟨s, hs, he⟩ := Option.map_eq_some_iff.mp hrun
  obtain ⟨hfinished, hdestructor⟩ := Prod.mk.inj he
  exact ⟨s, hs, hfinished, hdestructor, runs_each_task_once (by decide) hs⟩

end ThreadPool

end XconnCpp.Pool

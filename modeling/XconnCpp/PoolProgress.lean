import XconnCpp.PoolShutdown
import Mathlib.Algebra.BigOperators.Group.Finset.Piecewise
import Mathlib.Algebra.Order.BigOperators.Group.Finset
import Mathlib.Data.Fintype.Option
import Mathlib.Data.Fintype.Sum
import Mathlib.Algebra.GroupWithZero.Nat

namespace XconnCpp.Pool

open Library Library.Lock Library.Transition

variable {T A : Type} {t : T} {q q' : Shared T A}

def Code.cost : Code A → ℕ
  | .returned | .threw => 0
  | .step _ rest => rest.cost + 1
  | .enqueue task rest => task.cost + rest.cost + 16

def Enqueue.weight : Enqueue A → ℕ
  | .locking task => task.cost + 15
  | .emplacing task => task.cost + 14
  | .unlocking => 7
  -- the worker that `notify_one` wakes goes back to `.locking`
  | .notifying => 6

def Worker.weight : Worker A → ℕ
  | .locking => 5
  | .testing => 4
  | .deciding => 3
  | .taking => 2
  | .blocking | .leaving => 1
  | .blocked | .returned => 0
  | .unlocking job => job.code.cost + 7
  | .running job => job.code.cost + 6
  | .enqueueing job call => job.code.cost + 6 + call.weight

def weigh (tasks : List (Job A)) : ℕ := (tasks.map fun job => job.code.cost + 6).sum

@[simp] theorem weigh_nil : weigh ([] : List (Job A)) = 0 := rfl

@[simp] theorem weigh_cons (job : Job A) (tasks : List (Job A)) :
    weigh (job :: tasks) = job.code.cost + 6 + weigh tasks := by
  simp [weigh]

@[simp] theorem weigh_append (tasks tasks' : List (Job A)) :
    weigh (tasks ++ tasks') = weigh tasks + weigh tasks' := by
  simp [weigh]

theorem Enqueue.advance_lighter {call call' : Enqueue A} (h : call.advance t q = some (call', q')) :
    call'.weight + weigh q'.tasks + 1 ≤ call.weight + weigh q.tasks := by
  cases call with
  | locking task =>
    obtain ⟨-, he⟩ := Option.ite_none_right_eq_some.mp h
    cases he
    simp only [Enqueue.weight]
    omega
  | emplacing task =>
    cases h
    simp only [Enqueue.weight, weigh_append, weigh_cons, weigh_nil]
    omega
  | unlocking =>
    cases h
    simp only [Enqueue.weight]
    omega
  | notifying => cases h

theorem Worker.advance_lighter {w w' : Worker A} (h : w.advance t q = some (w', q')) :
    w'.weight + weigh q'.tasks + 1 ≤ w.weight + weigh q.tasks := by
  cases w with
  | locking =>
    obtain ⟨-, he⟩ := Option.ite_none_right_eq_some.mp h
    cases he
    simp only [Worker.weight]
    omega
  | testing =>
    cases h
    split <;> simp only [Worker.weight] <;> omega
  | deciding =>
    cases h
    split <;> simp only [Worker.weight] <;> omega
  | taking =>
    cases htasks : q.tasks with
    | nil => simp [Worker.advance, htasks] at h
    | cons job tasks =>
      simp only [Worker.advance, htasks] at h
      cases h
      simp only [Worker.weight, weigh_cons]
      omega
  | running job =>
    obtain ⟨k, code⟩ := job
    cases code <;> cases h <;> simp only [Worker.weight, Code.cost, Enqueue.weight] <;> omega
  | enqueueing job call =>
    obtain ⟨⟨call', q'⟩, hcall, he⟩ := Option.map_eq_some_iff.mp h
    cases he
    have hlighter := Enqueue.advance_lighter hcall
    simp only [Worker.weight]
    omega
  | blocked | returned => cases h
  | blocking | leaving | unlocking =>
    cases h
    simp only [Worker.weight]
    omega

def Destructor.weight (n : ℕ) : Destructor → ℕ
  | .before => 6 * n + 2
  | .notifying => 6 * n + 1
  | .joining k => n - k

theorem sum_update {ι α : Type} [Fintype ι] [DecidableEq ι] (f : α → ℕ) (g : ι → α) (i : ι) (a : α) :
    ∑ j, f (Function.update g i a j) + f (g i) = ∑ j, f (g j) + f a := by
  have hupdate : ∀ j, f (Function.update g i a j) = Function.update (f ∘ g) i (f a) j :=
    fun j => congrFun (Function.comp_update f g i a) j
  have hafter := Finset.sum_update_of_mem (Finset.mem_univ i) (f ∘ g) (f a)
  have hbefore := Finset.sum_eq_sum_sdiff_singleton_add (Finset.mem_univ i) (f ∘ g)
  simp only [hupdate, Function.comp_apply] at *
  omega

def Label.supply {n : ℕ} {C : Type} : Label n C A → ℕ
  | .wake _ => 6
  | .call _ task => task.cost + 16
  | _ => 0

namespace ThreadPool

variable {n : ℕ} {C : Type} {s s' : ThreadPool n C A} {l : Label n C A}

section Energy

variable [Fintype C]

def callerWeight (call : Option (Enqueue A)) : ℕ := call.elim 0 Enqueue.weight

def energy (s : ThreadPool n C A) : ℕ :=
  ∑ i, (s.workers i).weight + weigh s.tasks + ∑ c, callerWeight (s.callers c) + s.destructor.weight n

theorem energy_start : (start : ThreadPool n C A).energy = 11 * n + 2 := by
  simp [energy, start, Worker.weight, callerWeight, Destructor.weight]
  omega

theorem energy_setWorker (s : ThreadPool n C A) (i : Fin n) (w : Worker A) :
    (s.setWorker i w).energy + (s.workers i).weight = s.energy + w.weight := by
  have hsum := sum_update Worker.weight s.workers i w
  simp only [energy, setWorker_workers, setWorker_toShared, setWorker_callers, setWorker_destructor]
  omega

theorem energy_setShared (s : ThreadPool n C A) (q : Shared (Fin n ⊕ C) A) :
    (s.setShared q).energy + weigh s.tasks = s.energy + weigh q.tasks := by
  simp only [energy, setShared_workers, setShared_toShared, setShared_callers, setShared_destructor]
  omega

theorem energy_wakeAll (s : ThreadPool n C A) : s.wakeAll.energy ≤ s.energy + 5 * n := by
  have hsum : ∑ i, (s.wakeAll.workers i).weight ≤ ∑ i, ((s.workers i).weight + 5) := by
    apply Finset.sum_le_sum
    intro i _
    by_cases hi : (s.workers i).isBlocked = true
    · simp [wakeAll, hi, Worker.weight]
    · simp [wakeAll, hi]
  simp only [Finset.sum_add_distrib, Finset.sum_const, Finset.card_univ, Fintype.card_fin,
    Nat.nsmul_eq_mul] at hsum
  change ∑ i, (s.wakeAll.workers i).weight + weigh s.tasks + ∑ c, callerWeight (s.callers c) +
    s.destructor.weight n ≤ s.energy + 5 * n
  simp only [energy]
  omega

theorem Woken.energy (h : s.Woken s') : s'.energy ≤ s.energy + 5 := by
  cases h with
  | worker i hi =>
    have hset := energy_setWorker s i .locking
    simp only [hi, Worker.weight] at hset
    omega
  | nobody => omega

variable [DecidableEq C]

theorem energy_setCaller (s : ThreadPool n C A) (c : C) (call : Option (Enqueue A)) :
    (s.setCaller c call).energy + callerWeight (s.callers c) = s.energy + callerWeight call := by
  have hsum := sum_update callerWeight s.callers c call
  simp only [energy, setCaller_workers, setCaller_toShared, setCaller_callers, setCaller_destructor]
  omega

theorem Notified.energy {u : Fin n ⊕ C} (h : s.Notified u s') : s'.energy + 6 = s.energy := by
  cases h with
  | worker i job hi =>
    have hset := energy_setWorker s i (.running job)
    simp only [hi, Worker.weight, Enqueue.weight] at hset
    omega
  | caller c hc =>
    have hset := energy_setCaller s c none
    simp only [hc, callerWeight, Option.elim, Enqueue.weight] at hset
    omega

theorem energy_step (h : step s l = some s') : s'.energy + 1 ≤ s.energy + l.supply := by
  have hs := stepped h
  cases hs with
  | worker i w q hw =>
    have hshared := energy_setShared s q
    have hworker := energy_setWorker (s.setShared q) i w
    have hlighter := Worker.advance_lighter hw
    simp only [setShared_workers, Label.supply] at *
    omega
  | wake i hi =>
    have hworker := energy_setWorker s i .locking
    simp only [hi, Worker.weight, Label.supply] at *
    omega
  | call c task hbefore hc =>
    have hcaller := energy_setCaller s c (some (.locking task))
    simp only [hc, callerWeight, Option.elim, Enqueue.weight, Label.supply] at *
    omega
  | caller c call call' q hc hcall =>
    have hshared := energy_setShared s q
    have hcaller := energy_setCaller (s.setShared q) c (some call')
    have hlighter := Enqueue.advance_lighter hcall
    simp only [setShared_callers, hc, callerWeight, Option.elim, Label.supply] at *
    omega
  | notify u woken v s' hn hw =>
    have hnotified := hn.energy
    have hwoken := hw.energy
    simp only [Label.supply]
    omega
  | stop hbefore hnone =>
    simp only [energy, hbefore, Destructor.weight, Label.supply]
    omega
  | wakeAll hd =>
    have hwake := energy_wakeAll s
    have hdestructor : s.wakeAll.destructor = .notifying := hd
    simp only [energy, hd, hdestructor, Destructor.weight, Label.supply] at *
    omega
  | join k hd =>
    have hk : k < n := by
      by_contra hk
      simp [step, hd, hk] at h
    simp only [energy, hd, Destructor.weight, Label.supply]
    omega

end Energy

def Resting [DecidableEq C] [Fintype C] (s : ThreadPool n C A) : Prop :=
  (∀ i, (step s (.worker i)).isNone) ∧ (∀ c, (step s (.caller c)).isNone) ∧
    ∀ t woken, (step s (.notify t woken)).isNone

structure WorkedOff [DecidableEq C] [Fintype C] (s : ThreadPool n C A) : Prop where
  tasks : s.tasks = []
  finished : s.finished.Perm (List.range s.enqueued)
  queueMutex : s.queueMutex = none
  callers : ∀ c, s.callers c = none
  workers : ∀ i, (s.workers i).asleep = true
  destructor : step s .destructor = none →
    ∃ k, s.destructor = .joining k ∧ ∀ h : k < n, s.workers ⟨k, h⟩ = .blocked

section Resting

theorem Enqueue.advance_of_inside {call : Enqueue A} (h : call.inside = true) :
    (call.advance t q).isNone = false := by
  cases call with
  | emplacing | unlocking => rfl
  | locking | notifying => cases h

theorem Worker.advance_of_inside {w : Worker A} (h : w.inside = true) (hknows : w.Knows q.tasks q.stop) :
    (w.advance t q).isNone = false := by
  cases w with
  | testing | blocking | deciding | leaving | unlocking => rfl
  | taking =>
    cases htasks : q.tasks with
    | nil => exact absurd htasks hknows
    | cons => simp [Worker.advance, htasks]
  | enqueueing job call =>
    have hcall : (call.advance t q).isNone = false := Enqueue.advance_of_inside h
    simpa [Worker.advance] using hcall
  | _ => cases h

theorem Enqueue.eq_notifying {call : Enqueue A} (hfree : q.queueMutex = none)
    (h : (call.advance t q).isNone = true) : call = .notifying := by
  cases call with
  | notifying => rfl
  | locking => simp [Enqueue.advance, hfree] at h
  | emplacing | unlocking => cases h

theorem Worker.asleep_or_notifying {w : Worker A} (hfree : q.queueMutex = none)
    (hout : w.inside = false) (h : (w.advance t q).isNone = true) :
    w.asleep = true ∨ ∃ job, w = .enqueueing job .notifying := by
  cases w with
  | blocked | returned => exact .inl rfl
  | locking => simp [Worker.advance, hfree] at h
  | running job =>
    obtain ⟨k, code⟩ := job
    cases code <;> cases h
  | enqueueing job call =>
    have hcall : (call.advance t q).isNone = true := by simpa [Worker.advance] using h
    exact .inr ⟨job, by rw [Enqueue.eq_notifying hfree hcall]⟩
  | _ => cases hout

theorem wakeOne_enabled (s : ThreadPool n C A) : ∃ woken, (s.wakeOne woken).isNone = false := by
  by_cases hblocked : ∃ i, (s.workers i).isBlocked = true
  · obtain ⟨i, hi⟩ := hblocked
    exact ⟨some i, by simp [wakeOne, hi]⟩
  · exact ⟨none, by simpa [wakeOne] using hblocked⟩

variable [DecidableEq C] [Fintype C]

theorem Resting.notified (h : s.Resting) (t : Fin n ⊕ C) : s.notified t = none := by
  cases hn : s.notified t with
  | none => rfl
  | some u =>
    obtain ⟨woken, hw⟩ := wakeOne_enabled u
    have hnone := h.2.2 t woken
    simp [step, hn, hw] at hnone

theorem Resting.worker (h : s.Resting) (i : Fin n) :
    ((s.workers i).advance (.inl i) s.toShared).isNone = true := by
  simpa [step] using h.1 i

theorem Resting.caller (h : s.Resting) {c : C} {call : Enqueue A} (hc : s.callers c = some call) :
    (call.advance (.inr c) s.toShared).isNone = true := by
  simpa [step, hc] using h.2.1 c

theorem Resting.queueMutex (h : s.Resting) (hs : s.Sound) : s.queueMutex = none := by
  cases hmutex : s.queueMutex with
  | none => rfl
  | some t =>
    have hinside : s.inside t := (hs.exclusive t).mpr hmutex
    cases t with
    | inl i =>
      have hsome := Worker.advance_of_inside (t := .inl i) hinside (hs.knows i)
      rw [h.worker i] at hsome
      cases hsome
    | inr c =>
      have hany : (s.callers c).any Enqueue.inside = true := hinside
      cases hc : s.callers c with
      | none => simp [hc] at hany
      | some call =>
        rw [hc] at hany
        have hsome := Enqueue.advance_of_inside (t := .inr c) (q := s.toShared) hany
        rw [h.caller hc] at hsome
        cases hsome

theorem Resting.callers (h : s.Resting) (hs : s.Sound) (c : C) : s.callers c = none := by
  cases hc : s.callers c with
  | none => rfl
  | some call =>
    have hcall := Enqueue.eq_notifying (h.queueMutex hs) (h.caller hc)
    have hnone := h.notified (.inr c)
    simp [ThreadPool.notified, hc, hcall] at hnone

theorem Resting.workers (h : s.Resting) (hs : s.Sound) (i : Fin n) : (s.workers i).asleep = true := by
  have hfree := h.queueMutex hs
  have hout : (s.workers i).inside = false := by
    by_contra hin
    have hheld := (hs.exclusive (.inl i)).mp ((Bool.not_eq_false _).mp hin)
    rw [hfree] at hheld
    cases hheld
  rcases Worker.asleep_or_notifying hfree hout (h.worker i) with hasleep | ⟨job, hw⟩
  · exact hasleep
  · have hnone := h.notified (.inl i)
    simp [ThreadPool.notified, hw] at hnone

theorem Resting.tasks (h : s.Resting) (hs : s.Sound) (ha : s.Attended) : s.tasks = [] := by
  by_contra htasks
  rcases ha htasks with ⟨i, hi⟩ | ⟨c, hc⟩
  · rw [h.workers hs i] at hi
    cases hi
  · simp [h.callers hs c] at hc

theorem Resting.finished (h : s.Resting) (hs : s.Sound) (ha : s.Attended) :
    s.finished.Perm (List.range s.enqueued) := by
  have hidle : running s.jobs = [] := by
    apply List.filterMap_eq_nil_iff.mpr
    intro i _
    have hasleep := h.workers hs i
    cases hw : s.workers i <;> simp [jobs, hw, Worker.job] <;> simp [hw, Worker.asleep,
      Worker.isBlocked, Worker.isReturned] at hasleep
  simpa [h.tasks hs ha, hidle] using hs.partition

theorem Resting.destructor (h : s.Resting) (hs : s.Sound) (hd : step s .destructor = none) :
    ∃ k, s.destructor = .joining k ∧ ∀ h : k < n, s.workers ⟨k, h⟩ = .blocked := by
  cases hdestructor : s.destructor with
  | before =>
    simp [step, hdestructor, h.callers hs] at hd
  | notifying => simp [step, hdestructor] at hd
  | joining k =>
    refine ⟨k, rfl, fun hk => ?_⟩
    have hasleep := h.workers hs ⟨k, hk⟩
    have hreturned : (s.workers ⟨k, hk⟩).isReturned = false := by
      simpa [step, hdestructor, hk] using hd
    rw [Worker.asleep, hreturned, Bool.or_false] at hasleep
    exact Worker.eq_blocked hasleep

end Resting

section Joining

variable {i : Fin n}

theorem setWorker_returned {j : Fin n} {w : Worker A} (hi : s.workers i = .returned)
    (hj : s.workers j ≠ .returned) : (s.setWorker j w).workers i = .returned := by
  have hne : i ≠ j := fun he => hj (he ▸ hi)
  simpa [hne] using hi

theorem Woken.returned (hi : s.workers i = .returned) (h : s.Woken s') : s'.workers i = .returned := by
  cases h with
  | worker j hj => exact setWorker_returned hi (by simp [hj])
  | nobody => exact hi

variable [DecidableEq C] [Fintype C] {labels : List (Label n C A)}

theorem returned_of_step (hi : s.workers i = .returned) (h : step s l = some s') :
    s'.workers i = .returned := by
  cases stepped h with
  | worker j w q hw =>
    apply setWorker_returned (s := s.setShared q) hi
    intro hj
    rw [show s.workers j = .returned from hj] at hw
    cases hw
  | wake j hj => exact setWorker_returned hi (by simp [hj])
  | notify t woken u s' hn hw =>
    cases hn with
    | worker j job hj => exact Woken.returned (setWorker_returned hi (by simp [hj])) hw
    | caller c hc => exact Woken.returned (s := s.setCaller c none) hi hw
  | wakeAll => simp [wakeAll, hi, Worker.isBlocked]
  | _ => exact hi

theorem joined_of_step {k : ℕ} (h : step s l = some s') (hk : s'.destructor = .joining k) :
    s.destructor = .joining k ∨ k = 0 ∨
      ∃ j : Fin n, s.destructor = .joining j.val ∧ s.workers j = .returned ∧ k = j + 1 := by
  cases stepped h with
  | stop => cases hk
  | wakeAll =>
    obtain rfl : 0 = k := Destructor.joining.inj hk
    exact .inr (.inl rfl)
  | join j hj =>
    obtain rfl : j + 1 = k := Destructor.joining.inj hk
    simp only [step, hj] at h
    split at h
    next hlt =>
      obtain ⟨hreturned, -⟩ := Option.ite_none_right_eq_some.mp h
      exact .inr (.inr ⟨⟨j, hlt⟩, hj, Worker.eq_returned hreturned, rfl⟩)
    next => cases h
  | notify t woken u s' hn hw => exact .inl ((hn.destructor.symm.trans hw.destructor.symm).trans hk)
  | _ => exact .inl hk

theorem returned_of_joining {k : ℕ} (hrun : exec step start labels = some s) (hk : s.destructor = .joining k)
    (hi : i.val < k) : s.workers i = .returned := by
  have hinvariant : ∀ k, s.destructor = .joining k → ∀ i : Fin n, i.val < k → s.workers i = .returned := by
    apply exec_invariant (I := fun t : ThreadPool n C A => ∀ k, t.destructor = .joining k →
      ∀ i : Fin n, i.val < k → t.workers i = .returned) _ _ hrun
    · intro t l t' ht hstep k hk i hi
      rcases joined_of_step hstep hk with hsame | rfl | ⟨j, hj, hreturned, rfl⟩
      · exact returned_of_step (ht k hsame i hi) hstep
      · exact absurd hi (Nat.not_lt_zero _)
      · apply returned_of_step _ hstep
        rcases Nat.lt_succ_iff_lt_or_eq.mp hi with hlt | heq
        · exact ht j hj i hlt
        · exact Fin.ext heq ▸ hreturned
    · intro k hk
      cases hk
  exact hinvariant k hk i hi

end Joining

section Progress

variable [DecidableEq C] [Fintype C] {labels : List (Label n C A)}

/-- A run is as long as its calls of `enqueue` and its wake-ups for no reason let it be, and where it
comes to rest the work is done. -/
theorem pool_works_off (hn : 0 < n) (hrun : exec step start labels = some s) :
    labels.length ≤ 11 * n + 2 + (labels.map Label.supply).sum ∧ (s.Resting → s.WorkedOff) := by
  have hsound := sound_of_exec hrun
  have hattended := attended_of_exec hn hrun
  constructor
  · have henergy := exec_energy (fun _ _ _ hstep => energy_step hstep) hrun
    rw [energy_start] at henergy
    omega
  · intro h
    constructor
    · exact h.tasks hsound hattended
    · exact h.finished hsound hattended
    · exact h.queueMutex hsound
    · exact h.callers hsound
    · exact h.workers hsound
    · exact h.destructor hsound

instance (s : ThreadPool n C A) : Decidable s.Resting := inferInstanceAs (Decidable (_ ∧ _ ∧ _))

def restingLabels : List (Label 1 Unit Unit) :=
  [.worker onlyWorker, .worker onlyWorker, .worker onlyWorker,
    .call () (.enqueue (.step () .threw) .returned), .caller (), .caller (), .caller (),
    .notify (.inr ()) (some onlyWorker)] ++
    List.replicate 9 (.worker onlyWorker) ++ [.notify (.inl onlyWorker) none] ++
    List.replicate 11 (.worker onlyWorker)

theorem pool_works_off_nested : ∃ s, exec step start restingLabels = some s ∧
    s.finished = [0, 1] ∧ s.WorkedOff := by
  have hrun : ((exec step start restingLabels).map fun s => (s.finished, decide s.Resting)) =
    some ([0, 1], true) := by decide
  obtain ⟨s, hs, he⟩ := Option.map_eq_some_iff.mp hrun
  obtain ⟨hfinished, hresting⟩ := Prod.mk.inj he
  exact ⟨s, hs, hfinished, (pool_works_off (by decide) hs).2 (of_decide_eq_true hresting)⟩

end Progress

end ThreadPool

end XconnCpp.Pool

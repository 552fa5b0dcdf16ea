import XconnCpp.PoolRuns

namespace XconnCpp.Pool

open Library.Transition

variable {T A : Type} {t : T} {q q' : Shared T A} {w w' : Worker A}

def Worker.isBlocking : Worker A → Bool
  | .blocking => true
  | _ => false

theorem Worker.eq_blocking (h : w.isBlocking = true) : w = .blocking := by
  cases w with
  | blocking => rfl
  | _ => cases h

def Worker.dozing (w : Worker A) : Bool := w.isBlocking || w.isBlocked

theorem Worker.dozing_advance (h : w.advance t q = some (w', q')) (hstop : q.stop = true)
    (hw : w.dozing = false) : w'.dozing = false := by
  cases w with
  | locking =>
    obtain ⟨-, he⟩ := Option.ite_none_right_eq_some.mp h
    cases he
    rfl
  | testing =>
    simp only [Worker.advance, hstop, Bool.true_or] at h
    cases h
    rfl
  | blocking => cases hw
  | blocked => cases hw
  | returned => cases h
  | deciding =>
    cases h
    split <;> rfl
  | taking =>
    cases ht : q.tasks with
    | nil => simp [Worker.advance, ht] at h
    | cons job tasks =>
      simp only [Worker.advance, ht] at h
      cases h
      rfl
  | running job =>
    obtain ⟨k, code⟩ := job
    cases code <;> cases h <;> rfl
  | enqueueing job call =>
    obtain ⟨⟨call', r⟩, hc, he⟩ := Option.map_eq_some_iff.mp h
    cases he
    rfl
  | _ =>
    cases h
    rfl

namespace ThreadPool

variable {n : ℕ} {C : Type} {s s' : ThreadPool n C A} {l : Label n C A}

def NoneLeftBlocked (s : ThreadPool n C A) : Prop :=
  ∀ k, s.destructor = .joining k → ∀ i, (s.workers i).isBlocked = false

/-- `notify_all` is not called between the failed test of a worker and its blocking. -/
def NotifiesInTime (s : ThreadPool n C A) : Label n C A → Prop
  | .destructor => s.destructor = .notifying → ∀ i, (s.workers i).isBlocking = false
  | _ => True

instance (s : ThreadPool n C A) (l : Label n C A) : Decidable (s.NotifiesInTime l) :=
  match l with
  | .destructor =>
    inferInstanceAs (Decidable (s.destructor = .notifying → ∀ i, (s.workers i).isBlocking = false))
  | .worker _ | .wake _ | .call _ _ | .caller _ | .notify _ _ => isTrue trivial

structure Released (s : ThreadPool n C A) : Prop where
  past : ∃ k, s.destructor = .joining k
  stop : s.stop = true
  awake : ∀ i, (s.workers i).dozing = false

theorem Released.none_left_blocked (h : s.Released) : s.NoneLeftBlocked :=
  fun _ _ i => (Bool.or_eq_false_iff.mp (h.awake i)).2

theorem Released.setWorker {i : Fin n} {q : Shared (Fin n ⊕ C) A} (h : s.Released)
    (hstop : q.stop = s.stop) (hw : w.dozing = false) : ((s.setShared q).setWorker i w).Released := by
  refine ⟨h.past, hstop.trans h.stop, fun j => ?_⟩
  by_cases hj : j = i
  · subst hj
    simpa using hw
  · simpa [hj] using h.awake j

theorem Released.of_notify (h : s.Sound) (hd : s.destructor = .notifying)
    (hl : ∀ i, (s.workers i).isBlocking = false) :
    Released { s.wakeAll with destructor := .joining 0 } := by
  refine ⟨⟨0, rfl⟩, ?_, fun i => ?_⟩
  · have hopened := hd ▸ h.opened
    have hstop : s.stop = true := by simpa using hopened
    exact hstop
  · cases hi : (s.workers i).isBlocked with
    | true =>
      simp only [ThreadPool.wakeAll, hi, if_true]
      rfl
    | false => simp [ThreadPool.wakeAll, hi, Worker.dozing, hl i]

def InTime (s : ThreadPool n C A) : Prop := (∀ k, s.destructor ≠ .joining k) ∨ s.Released

theorem InTime.none_left_blocked (h : s.InTime) : s.NoneLeftBlocked := by
  intro k hk
  rcases h with hnone | hreleased
  · exact absurd hk (hnone k)
  · exact hreleased.none_left_blocked k hk

theorem Woken.destructor (h : s.Woken s') : s'.destructor = s.destructor := by
  cases h <;> rfl

theorem Released.woken (h : s.Released) (hw : s.Woken s') : s'.Released := by
  cases hw with
  | worker i hblocked => exact h.setWorker rfl rfl
  | nobody => exact h

variable [DecidableEq C]

theorem Released.notified {u : Fin n ⊕ C} (h : s.Released) (hn : s.Notified u s') : s'.Released := by
  cases hn with
  | worker i job hw => exact h.setWorker rfl rfl
  | caller c hc => exact ⟨h.past, h.stop, h.awake⟩

theorem Notified.destructor {u : Fin n ⊕ C} (h : s.Notified u s') : s'.destructor = s.destructor := by
  cases h <;> rfl

theorem Stepped.destructor (hs : s.Stepped l s') (hl : l ≠ .destructor) : s'.destructor = s.destructor := by
  cases hs with
  | notify t woken u _ hn hw => exact hw.destructor.trans hn.destructor
  | stop | wakeAll | join => exact absurd rfl hl
  | _ => rfl

theorem Released.stepped (h : s.Released) (hs : s.Stepped l s') : s'.Released := by
  obtain ⟨k, hk⟩ := h.past
  cases hs with
  | worker i w q hw =>
    exact h.setWorker (Worker.stepped hw).stop (Worker.dozing_advance hw h.stop (h.awake i))
  | wake i hblocked => exact h.setWorker rfl rfl
  | call c task hbefore hc => exact ⟨h.past, h.stop, h.awake⟩
  | caller c call call' q hc hcall =>
    exact ⟨h.past, (Enqueue.stepped hcall).stop.trans h.stop, h.awake⟩
  | notify t woken u s' hn hw => exact (h.notified hn).woken hw
  | stop hbefore hnone => simp [hk] at hbefore
  | wakeAll hnotifying => simp [hk] at hnotifying
  | join k' hk' => exact ⟨⟨k' + 1, rfl⟩, h.stop, h.awake⟩

theorem InTime.stepped (h : s.InTime) (hsound : s.Sound) (hl : s.NotifiesInTime l)
    (hs : s.Stepped l s') : s'.InTime := by
  rcases h with hnone | hreleased
  · cases hs with
    | wakeAll hd => exact .inr (.of_notify hsound hd (hl hd))
    | join k hk => exact absurd hk (hnone k)
    | stop hbefore _ => exact .inl fun k hk => by cases hk
    | notify u woken v s' hn hw => exact .inl (hw.destructor ▸ hn.destructor ▸ hnone)
    | _ => exact .inl hnone
  · exact .inr (hreleased.stepped hs)

variable [Fintype C] {labels : List (Label n C A)}

theorem in_time_of_along (hc : Along step NotifiesInTime start labels)
    (hrun : exec step start labels = some s) : s.InTime := by
  induction labels using List.reverseRecOn generalizing s with
  | nil =>
    cases hrun
    exact .inl fun k hk => by cases hk
  | append_singleton labels l ih =>
    obtain ⟨t, ht, hstep⟩ := exec_snoc_iff.mp hrun
    exact (ih hc.initial ht).stepped (sound_of_exec ht) (hc labels l [] t rfl ht) (stepped hstep)

theorem throughout_of_notify (h : s.Sound) (hd : s.destructor = .notifying)
    (hl : ∀ i, (s.workers i).isBlocking = false) (more : List (Label n C A)) :
    Throughout step NoneLeftBlocked s (.destructor :: more) := by
  rintro pre post t hp ht
  cases pre with
  | nil =>
    cases ht
    intro k hk
    simp [hd] at hk
  | cons l pre =>
    obtain ⟨rfl, -⟩ := List.cons.inj hp
    obtain ⟨u, hu, ht⟩ := exec_cons_iff.mp ht
    simp only [step, hd, Option.some.injEq] at hu
    subst hu
    have hreleased : t.Released :=
      exec_invariant (fun _ _ _ hr hstep => hr.stepped (stepped hstep)) (.of_notify h hd hl) ht
    exact hreleased.none_left_blocked

theorem left_blocked_of_blocking {i : Fin n} (hd : s.destructor = .notifying)
    (hi : s.workers i = .blocking) :
    ¬ Throughout step NoneLeftBlocked s [.destructor, .worker i] := by
  intro hall
  let u : ThreadPool n C A := { s.wakeAll with destructor := .joining 0 }
  have hu : step s .destructor = some u := by simp only [step, hd, u]
  have hblocking : u.workers i = .blocking := by simp [u, wakeAll, hi, Worker.isBlocked]
  have ht : step u (.worker i) =
      some ((u.setShared { u.toShared with queueMutex := none }).setWorker i .blocked) := by
    simp only [step, hblocking, Worker.advance, Option.map_some]
  have hrun := exec_cons_iff.mpr ⟨u, hu, exec_cons_iff.mpr ⟨_, ht, exec_nil⟩⟩
  have hnone := hall [.destructor, .worker i] [] _ rfl hrun 0 rfl i
  simp [Worker.isBlocked] at hnone

/-- The destructor leaves nobody blocked exactly when no worker is between its failed test and its
blocking as `notify_all` is called. -/
theorem none_left_blocked_iff_notifies_in_time (labels : List (Label n C A)) :
    (Along step NotifiesInTime start labels → Throughout step NoneLeftBlocked start labels) ∧
    ∀ s : ThreadPool n C A, exec step start labels = some s → s.destructor = .notifying →
      ((∀ more, Throughout step NoneLeftBlocked s (.destructor :: more)) ↔
        ∀ i, (s.workers i).isBlocking = false) := by
  constructor
  · rintro hc pre post t rfl ht
    exact (in_time_of_along hc.initial ht).none_left_blocked
  · intro s hrun hd
    constructor
    · intro hall i
      by_contra hi
      exact left_blocked_of_blocking hd (Worker.eq_blocking (by simpa using hi)) (hall [.worker i])
    · intro hl
      exact throughout_of_notify (sound_of_exec hrun) hd hl

def idleLabels : List (Label 2 Unit Unit) :=
  List.replicate 3 (.worker 0) ++ List.replicate 3 (.worker 1) ++ [.destructor, .destructor] ++
    List.replicate 4 (.worker 0) ++ List.replicate 4 (.worker 1) ++ [.destructor, .destructor]

theorem none_left_blocked_of_idle_pool : ∃ s, exec step start idleLabels = some s ∧
    s.destructor = .joining 2 ∧ s.NoneLeftBlocked := by
  have hrun : ((exec step start idleLabels).map ThreadPool.destructor) = some (.joining 2) := by decide
  obtain ⟨s, hs, hd⟩ := Option.map_eq_some_iff.mp hrun
  have hthroughout := (none_left_blocked_iff_notifies_in_time idleLabels).1 (by decide)
  exact ⟨s, hs, hd, hthroughout idleLabels [] s (by simp) hs⟩

def lateLabels : List (Label 1 Unit Unit) :=
  [.worker onlyWorker, .worker onlyWorker, .destructor, .destructor, .worker onlyWorker]

theorem not_always_none_left_blocked :
    ¬ ∀ labels : List (Label 1 Unit Unit), Throughout step NoneLeftBlocked start labels := by
  intro hall
  have hrun : ((exec step start lateLabels).map fun s => (s.destructor, (s.workers 0).isBlocked)) =
    some (.joining 0, true) := by decide
  obtain ⟨s, hs, he⟩ := Option.map_eq_some_iff.mp hrun
  obtain ⟨hd, hblocked⟩ := Prod.mk.inj he
  have hnone := hall lateLabels lateLabels [] s (by simp) hs 0 hd 0
  simp [hblocked] at hnone

end ThreadPool

end XconnCpp.Pool

import XconnCpp.Interleaving

namespace XconnCpp.Sessions

open Library Library.Program Library.Program.Prog Library.Transition

variable {P E : Type}

section Others

variable {w w' : World P E} {l : Choice P E} {t t' : Thread P E} {o : Op P E} {s s' : Session P E}
  {surroundings : Surroundings P E} {choices : List (Choice P E)}

def Thread.KeepsTo : Thread P E → Prop
  | .request _ rest => rest.Uses Op.OfRequest
  | .leaving rest => rest.Uses Op.OfLeave
  | .worker rest => rest.Uses Op.OfTask

theorem Thread.KeepsTo.head (h : t.KeepsTo) (ho : t.head? = some o) : o.ByOthers := by
  cases t with
  | request operation rest => exact .inl (Uses.head h ho)
  | leaving rest => exact .inr (.inl (Uses.head h ho))
  | worker rest => exact .inr (.inr (Uses.head h ho))

theorem Thread.KeepsTo.advance (h : t.KeepsTo) (ha : t.advance s = some (t', s')) : t'.KeepsTo := by
  rcases advance_cases ha with
    ⟨operation, o, k, rfl, -, rfl⟩ | ⟨o, k, rfl, -, rfl⟩ | ⟨o, k, rfl, -, rfl⟩
  all_goals exact h.2 _

theorem threads_keepTo_step (h : ∀ t ∈ w.threads, t.KeepsTo) (hstep : w.step l = some w') :
    ∀ t ∈ w'.threads, t.KeepsTo := by
  intro t ht
  obtain ⟨i, hi⟩ := List.mem_iff_getElem?.mp ht
  rcases thread_before_step hstep hi with
    hi | ⟨-, u, hi, ha⟩ | ⟨operation, -, rfl⟩ | rfl | ⟨-, task, -, rfl⟩
  · exact h t (List.mem_of_getElem? hi)
  · exact (h u (List.mem_of_getElem? hi)).advance ha
  · exact uses_operation operation
  · exact uses_leave
  · exact uses_task task

theorem threads_keepTo (hrun : exec World.step (World.start surroundings) choices = some w) :
    ∀ t ∈ w.threads, t.KeepsTo := by
  apply exec_invariant (I := fun w : World P E => ∀ t ∈ w.threads, t.KeepsTo) _ _ hrun
  · exact fun t l t' ht hstep => threads_keepTo_step ht hstep
  · simp [World.start]

theorem byOthers_of_exec {i : ℕ} (hrun : exec World.step (World.start surroundings) choices = some w)
    (ho : w.performs (.thread i) = some o) : o.ByOthers := by
  obtain ⟨t, ht, hhead⟩ := Option.bind_eq_some_iff.mp ho
  exact (threads_keepTo hrun t (List.mem_of_getElem? ht)).head hhead

end Others

section Rule

variable {Q : Type} {protocol : Protocol Q (Op P E) Res} {between : Q → Prop} {others : Op P E → Prop}
  {I : Session P E → Q → Prop}

/-- `I` relates the session to the phase that the receive thread has reached in its protocol: every
operation keeps it, of the receive thread and of the others. -/
structure Guards (protocol : Protocol Q (Op P E) Res) (between : Q → Prop) (others : Op P E → Prop)
    (I : Session P E → Q → Prop) : Prop where
  round : ∀ q, between q → (waitRound : Code P E Bool).Follows protocol between between q
  own : ∀ s q o, I s q → protocol.allows q o → I (interp o s).2 (protocol.next q o (interp o s).1)
  other : ∀ s q o, I s q → others o → I (interp o s).2 q
  dequeue : ∀ s q t tasks, I s q → s.tasks = t :: tasks → I { s with tasks := tasks } q

def OthersPerform (others : Op P E → Prop) (w : World P E) (l : Choice P E) : Prop :=
  ∀ i o, l = .thread i → w.performs l = some o → others o

def Guarded (protocol : Protocol Q (Op P E) Res) (between : Q → Prop) (I : Session P E → Q → Prop)
    (w : World P E) : Prop :=
  ∃ q, w.receiver.Follows protocol between between q ∧ I w.session q

variable {w w' : World P E} {l : Choice P E}

theorem Guards.step (h : Guards protocol between others I) (hw : Guarded protocol between I w)
    (hl : OthersPerform others w l) (hstep : w.step l = some w') : Guarded protocol between I w' := by
  obtain ⟨q, hfollows, hI⟩ := hw
  cases l with
  | receiver =>
    rcases step_receiver_iff.mp hstep with ⟨hr, rfl⟩ | ⟨o, k, hr, rfl⟩
    · rw [hr] at hfollows
      exact ⟨q, h.round q hfollows, hI⟩
    · rw [hr] at hfollows
      exact ⟨_, hfollows.2 _, h.own _ _ o hI hfollows.1⟩
  | thread i =>
    rcases step_thread_cases hstep with
      ⟨operation, o, k, ht, rfl⟩ | ⟨o, k, ht, rfl⟩ | ⟨o, k, ht, rfl⟩
    all_goals
      have ho : others o := hl i o rfl (by simp [World.performs, ht, Thread.head?])
      exact ⟨q, hfollows, h.other _ _ o hI ho⟩
  | work =>
    obtain ⟨t, tasks, ht, rfl⟩ := step_work_iff.mp hstep
    exact ⟨q, hfollows, h.dequeue _ _ t tasks hI ht⟩
  | request operation =>
    cases hstep
    exact ⟨q, hfollows, hI⟩
  | leave =>
    cases hstep
    exact ⟨q, hfollows, hI⟩

variable {surroundings : Surroundings P E} {choices : List (Choice P E)}

theorem Guards.of_along (h : Guards protocol between others I) {q : Q} (hq : between q)
    (hs : I (Session.start surroundings) q)
    (hothers : Along World.step (OthersPerform others) (World.start surroundings) choices)
    (hrun : exec World.step (World.start surroundings) choices = some w) :
    Guarded protocol between I w := by
  apply exec_preserves _ _ hothers hrun
  · exact fun t l t' ht hl hstep => h.step ht hl hstep
  · exact ⟨q, h.round q hq, hs⟩

theorem Guards.of_exec (h : Guards protocol between Op.ByOthers I) {q : Q} (hq : between q)
    (hs : I (Session.start surroundings) q)
    (hrun : exec World.step (World.start surroundings) choices = some w) :
    Guarded protocol between I w := by
  apply h.of_along hq hs _ hrun
  rintro pre l post t - ht i o rfl ho
  exact byOthers_of_exec ht ho

theorem Guarded.allows {o : Op P E} (h : Guarded protocol between I w)
    (ho : w.performs .receiver = some o) : ∃ q, I w.session q ∧ protocol.allows q o := by
  obtain ⟨q, hfollows, hI⟩ := h
  exact ⟨q, hI, hfollows.head ho⟩

end Rule

end XconnCpp.Sessions

import XconnCpp.ClosedSending
import XconnCpp.ReceiverInvariants

namespace XconnCpp.Sessions

open Library Library.Program Library.Program.Prog Library.Transition

variable {P E : Type}

section Closing

inductive Standing
  | up
  | stopped
  | closed
  deriving DecidableEq

def Session.standing (s : Session P E) : Standing :=
  if s.closed then .closed else if s.running then .up else .stopped

def closingProtocol : Protocol Standing (Op P E) Res where
  allows q o :=
    match o with
    | .receive => q = .up
    | .storeRunning b => b = false ∧ q = .up
    | .close => q = .stopped
    | _ => True
  next q o r :=
    match o, r with
    | .loadRunning, true => .up
    | .storeRunning _, _ => .stopped
    | .close, _ => .closed
    | _, _ => q

abbrev Closes {α : Type} (p : Code P E α) (post : Standing → Prop) (q : Standing) : Prop :=
  p.Follows closingProtocol post (fun _ => True) q

def Op.KeepsStanding (o : Op P E) : Prop :=
  ∀ s, (interp o s).2.running = s.running ∧ (interp o s).2.closed = s.closed

theorem Op.ByOthers.keepsStanding {o : Op P E} (h : o.ByOthers) : o.KeepsStanding := by
  cases o <;> simp_all [Op.ByOthers, Op.OfRequest, Op.OfLeave, Op.OfTask, Op.KeepsStanding, interp]

theorem closes_sendMessage {q : Standing} (m : Outgoing) :
    Closes (sendMessage m : Code P E Unit) (· = q) q := by
  refine ⟨trivial, fun connected => ?_⟩
  cases connected with
  | true => exact ⟨trivial, fun _ => rfl⟩
  | false => trivial

theorem closes_goodbyeBranch : Closes (goodbyeBranch : Code P E Unit) (fun _ => True) .up := by
  have hend : Closes (goodbyeEnd : Code P E Unit) (fun _ => True) .up := by
    refine ⟨trivial, fun satisfied => ?_⟩
    cases satisfied with
    | true =>
      refine ⟨⟨rfl, rfl⟩, fun _ => ⟨rfl, fun closed => ?_⟩⟩
      cases closed <;> trivial
    | false => trivial
  refine ⟨trivial, fun sent => ?_⟩
  cases sent with
  | true => exact hend
  | false =>
    refine Follows.bind (· = .up) (Follows.bind (· = .up) (closes_sendMessage _) ?_) ?_
    · rintro - q rfl
      exact ⟨trivial, fun _ => rfl⟩
    · rintro - q rfl
      exact hend

theorem closes_waitRound (q : Standing) : Closes (waitRound : Code P E Bool) (fun _ => True) q := by
  refine ⟨trivial, fun running => ?_⟩
  cases running with
  | false => trivial
  | true =>
    refine Follows.bind (fun _ => True) ?_ fun _ _ _ => trivial
    refine Follows.tryCatch ⟨rfl, fun i => ?_⟩ fun _ _ _ => trivial
    cases i with
    | message m =>
      by_cases hm : m = .goodbye
      · subst hm
        exact closes_goodbyeBranch
      · apply (uses_processIncomingMessage hm).follows (I := fun _ => True) _ (fun _ h => h) (fun _ h => h)
          trivial
        intro o ho q _
        cases o <;> first | exact ho.elim | exact ⟨trivial, fun _ => trivial⟩
    | _ => trivial

structure Closing (s : Session P E) (q : Standing) : Prop where
  standing : s.standing = q
  stopped : s.closed = true → s.running = false

theorem Closing.keeps {s : Session P E} {q : Standing} {o : Op P E} (h : Closing s q)
    (ho : o.KeepsStanding) : Closing (interp o s).2 q := by
  obtain ⟨hrunning, hclosed⟩ := ho s
  constructor
  · rw [← h.standing]
    simp [Session.standing, hrunning, hclosed]
  · rw [hrunning, hclosed]
    exact h.stopped

theorem Closing.own {s : Session P E} {q : Standing} {o : Op P E} (h : Closing s q)
    (ho : closingProtocol.allows q o) :
    Closing (interp o s).2 (closingProtocol.next q o (interp o s).1) := by
  have hstanding := h.standing
  have hstopped := h.stopped
  cases o with
  | loadRunning =>
    cases hr : s.running with
    | true =>
      have hclosed : s.closed = false := by
        cases hc : s.closed with
        | true => simp [hstopped hc] at hr
        | false => rfl
      constructor <;> simp [interp, closingProtocol, Session.standing, hr, hclosed]
    | false => simpa [interp, closingProtocol, hr] using h
  | storeRunning b =>
    obtain ⟨rfl, rfl⟩ := ho
    have hclosed : s.closed = false := by
      cases hc : s.closed with
      | true => simp [Session.standing, hc] at hstanding
      | false => rfl
    constructor <;> simp [interp, closingProtocol, Session.standing, hclosed]
  | close =>
    obtain rfl : q = .stopped := ho
    have hrunning : s.running = false := by
      cases hr : s.running with
      | true => cases hc : s.closed <;> simp [Session.standing, hc, hr] at hstanding
      | false => rfl
    constructor <;> simp [interp, closingProtocol, Session.standing, hrunning]
  | receive =>
    apply h.keeps
    intro s
    cases hi : s.inbox <;> simp [interp, hi]
  | _ => exact h.keeps fun s => ⟨rfl, rfl⟩

theorem guards_closing :
    Guards (P := P) (E := E) closingProtocol (fun _ => True) Op.ByOthers Closing where
  round q _ := closes_waitRound q
  own _ _ _ h ho := h.own ho
  other _ _ _ h ho := h.keeps ho.keepsStanding
  dequeue _ _ _ _ h _ := ⟨h.standing, h.stopped⟩

end Closing

section AfterClose

variable {w w' : World P E} {l : Choice P E} {surroundings : Surroundings P E}
  {choices more : List (Choice P E)}

theorem closing_of_exec (hrun : exec World.step (World.start surroundings) choices = some w) :
    Guarded closingProtocol (fun _ => True) Closing w :=
  guards_closing.of_exec (q := .up) trivial ⟨rfl, by simp [Session.start]⟩ hrun

def Op.OfClosing : Op P E → Prop
  | .receive | .storeRunning _ | .close => True
  | _ => False

theorem closing_by_receiver (hrun : exec World.step (World.start surroundings) choices = some w)
    {o : Op P E} (ho : o.OfClosing) (hl : w.performs l = some o) : l = .receiver := by
  cases l with
  | receiver => rfl
  | thread i =>
    have hothers := byOthers_of_exec hrun hl
    cases o <;> simp_all [Op.ByOthers, Op.OfRequest, Op.OfLeave, Op.OfTask, Op.OfClosing]
  | _ => cases hl

theorem closed_step (h : w.step l = some w') (hclosed : w.session.closed = true) :
    w'.session.closed = true := by
  rcases session_of_step h with ⟨o, -, hs⟩ | ⟨-, tasks, hs⟩
  · rw [hs]
    cases o with
    | receive => cases hi : w.session.inbox <;> simp [interp, hi, hclosed]
    | close => rfl
    | _ => exact hclosed
  · rw [hs]
    exact hclosed

theorem silent_after_close (hrun : exec World.step (World.start surroundings) choices = some w)
    (hclosed : w.session.closed = true) (hmore : exec World.step w more = some w') {o : Op P E}
    (hl : w'.performs l = some o) : ¬ o.OfClosing := by
  intro ho
  have hlater : exec World.step (World.start surroundings) (choices ++ more) = some w' :=
    exec_append_iff.mpr ⟨w, hrun, hmore⟩
  have hstill : w'.session.closed = true :=
    exec_invariant (I := fun v : World P E => v.session.closed = true)
      (fun _ _ _ hv hstep => closed_step hstep hv) hclosed hmore
  obtain rfl := closing_by_receiver hlater ho hl
  obtain ⟨q, hq, hallows⟩ := (closing_of_exec hlater).allows hl
  have hq : q = .closed := by
    rw [← hq.standing]
    simp [Session.standing, hstill]
  subst hq
  cases o with
  | receive => cases hallows
  | storeRunning b => cases hallows.2
  | close => cases hallows
  | _ => exact ho

end AfterClose

section AfterEnd

variable {w w' : World P E} {l : Choice P E} {surroundings : Surroundings P E}
  {choices more : List (Choice P E)}

inductive World.Looping (w : World P E) : Prop
  | before (h : w.receiver = waitRound)
  | within (p : Code P E Unit) (h : w.receiver = p >>= fun _ => .pure true)
  | ended (h : w.receiver = .pure false) (hrunning : w.session.running = false)

theorem World.Looping.step (h : w.Looping) (hw : w.Careful) (hstep : w.step l = some w') : w'.Looping := by
  rcases receiver_of_step hstep with ⟨-, hr⟩ | ⟨-, ⟨-, hr⟩ | ⟨o, k, ho, hs, hr⟩⟩
  · cases h with
    | before h => exact .before (hr.trans h)
    | within p h => exact .within p (hr.trans h)
    | ended h hrunning => exact .ended (hr.trans h) (hw.closed_step hstep hrunning)
  · exact .before hr
  · cases h with
    | before h =>
      cases ho.symm.trans h
      cases hrunning : w.session.running with
      | true => exact .within waitBody (by simp [hr, interp, hrunning])
      | false => exact .ended (by simp [hr, interp, hrunning]) (by simp [hs, interp, hrunning])
    | within p h =>
      have hp := ho.symm.trans h
      cases p with
      | op o' k' =>
        cases hp
        exact .within (k' _) hr
      | _ => cases hp
    | ended h =>
      cases ho.symm.trans h

theorem looping_of_exec (hrun : exec World.step (World.start surroundings) choices = some w) :
    w.Looping := by
  have hboth := exec_invariant (I := fun v : World P E => v.Careful ∧ v.Looping)
    (fun _ _ _ h hstep => ⟨h.1.step hstep, h.2.step h.1 hstep⟩) ⟨.start surroundings, .before rfl⟩ hrun
  exact hboth.2

theorem running_of_ended (hrun : exec World.step (World.start surroundings) choices = some w)
    (hend : w.receiver = .pure false) : w.session.running = false := by
  cases looping_of_exec hrun with
  | before h => cases hend.symm.trans h
  | within p h =>
    have hp := hend.symm.trans h
    cases p <;> cases hp
  | ended _ hrunning => exact hrunning

/-- What comes after the end of the receive loop finds the tables, the promises and the flags as they
are; requests are still entered, and tasks still taken. -/
structure Session.Final (s s' : Session P E) : Prop where
  promises : s'.promises = s.promises
  registrations : s'.registrations = s.registrations
  subscriptions : s'.subscriptions = s.subscriptions
  inbox : s'.inbox = s.inbox
  goodbye : s'.goodbyeValue = s.goodbyeValue
  running : s'.running = s.running
  closed : s'.closed = s.closed
  requests : ∀ k requestId r, (s.requests k).lookup requestId = some r →
    (s'.requests k).lookup requestId = some r
  tasks : s'.tasks <:+ s.tasks

theorem Session.Final.refl (s : Session P E) : s.Final s := by
  constructor <;> first | rfl | exact fun _ _ _ h => h

theorem Session.Final.trans {s t u : Session P E} (h : s.Final t) (h' : t.Final u) : s.Final u where
  promises := h'.promises.trans h.promises
  registrations := h'.registrations.trans h.registrations
  subscriptions := h'.subscriptions.trans h.subscriptions
  inbox := h'.inbox.trans h.inbox
  goodbye := h'.goodbye.trans h.goodbye
  running := h'.running.trans h.running
  closed := h'.closed.trans h.closed
  requests k requestId r hr := h'.requests k requestId r (h.requests k requestId r hr)
  tasks := h'.tasks.trans h.tasks

theorem Op.ByOthers.final {o : Op P E} (h : o.ByOthers) (s : Session P E) : s.Final (interp o s).2 := by
  cases o with
  | emplaceRequest k requestId payload =>
    refine ⟨rfl, rfl, rfl, rfl, rfl, rfl, rfl, fun j id r hr => ?_, List.suffix_rfl⟩
    by_cases hj : j = k
    · subst hj
      simpa [interp] using Table.lookup_emplace_of_some hr
    · simpa [interp, hj] using hr
  | loadRunning | storeRunning | loadGoodbyeSent | setGoodbyeValue | findRequest | emplaceRegistration
  | findRegistration | emplaceSubscription | findSubscription | setPromise | close | receive | enqueue =>
    simp [Op.ByOthers, Op.OfRequest, Op.OfLeave, Op.OfTask] at h
  | _ => exact ⟨rfl, rfl, rfl, rfl, rfl, rfl, rfl, fun _ _ _ hr => hr, List.suffix_rfl⟩

def acceptingProtocol : Protocol Bool (Op P E) Res where
  allows accepted o :=
    match o with
    | .send _ | .waitFor _ | .waitGoodbye => accepted = true
    | _ => True
  next accepted o r :=
    match o, r with
    | .isConnected, connected => accepted || connected
    | _, _ => accepted

abbrev Accepting {α : Type} (p : Code P E α) (accepted : Bool) : Prop :=
  p.Follows acceptingProtocol (· = true) (fun _ => True) accepted

theorem accepting_sendMessage (m : Outgoing) :
    (sendMessage m : Code P E Unit).Follows acceptingProtocol (· = true) (fun _ => True) false := by
  refine ⟨trivial, fun connected => ?_⟩
  cases connected with
  | true => exact ⟨rfl, fun _ => rfl⟩
  | false => trivial

theorem accepting_request (k : RequestKind) (requestId : UInt64) (payload : Payload P E k) (m : Outgoing) :
    Accepting (request k requestId payload m) false := by
  refine ⟨trivial, fun p => Follows.bind (· = true) (accepting_sendMessage m) ?_⟩
  rintro - q rfl
  refine ⟨rfl, fun r => ?_⟩
  cases r with
  | none => trivial
  | some r => cases r <;> trivial

theorem accepting_operation (operation : Operation P E) : Accepting operation.code false := by
  cases operation with
  | publish topic args kwargs options =>
    refine ⟨trivial, fun requestId => ?_⟩
    cases ha : acknowledge options with
    | none => trivial
    | some b =>
      cases b with
      | true => exact accepting_request _ _ _ _
      | false => exact Follows.bind (· = true) (accepting_sendMessage _) fun _ _ hq => hq
  | _ => exact ⟨trivial, fun requestId => accepting_request _ _ _ _⟩

theorem accepting_leave : Accepting (leave : Code P E ℤ) false := by
  refine ⟨trivial, fun retrieved => ?_⟩
  cases retrieved with
  | false => trivial
  | true =>
    refine Follows.bind (· = true) (accepting_sendMessage _) ?_
    rintro - q rfl
    refine ⟨trivial, fun _ => ⟨rfl, fun v => ?_⟩⟩
    cases v <;> trivial

def Thread.Refused : Thread P E → Prop
  | .request _ rest => Accepting rest false
  | .leaving rest => Accepting rest false
  | .worker _ => True

theorem Thread.Refused.advance {s s' : Session P E} {t t' : Thread P E} (h : t.Refused)
    (hs : s.running = false) (ha : t.advance s = some (t', s')) : t'.Refused := by
  have hnext {o : Op P E} : acceptingProtocol.next false o (interp o s).1 = false := by
    cases o <;> first | rfl | simp [acceptingProtocol, interp, hs]
  rcases advance_cases ha with
    ⟨operation, o, k, rfl, -, rfl⟩ | ⟨o, k, rfl, -, rfl⟩ | ⟨o, k, rfl, -, rfl⟩
  · have hrest := h.2 (interp o s).1
    rwa [hnext] at hrest
  · have hrest := h.2 (interp o s).1
    rwa [hnext] at hrest
  · trivial

structure Ended (w w' : World P E) : Prop where
  receiver : w'.receiver = .pure false
  final : w.session.Final w'.session
  refused : ∀ i t, w.threads.length ≤ i → w'.threads[i]? = some t → t.Refused

theorem Ended.step {v : World P E} (h : Ended w v) (hkeep : ∀ t ∈ v.threads, t.KeepsTo)
    (hrunning : w.session.running = false) (hstep : v.step l = some w') : Ended w w' := by
  have hv : v.session.running = false := h.final.running.trans hrunning
  obtain ⟨hl, hreceiver⟩ := receiver_stays h.receiver hstep
  refine ⟨hreceiver, ?_, fun i t hi ht => ?_⟩
  · cases l with
    | receiver => exact absurd rfl hl
    | thread i =>
      obtain ⟨t, t', s', ht, ha, rfl⟩ := step_thread_iff.mp hstep
      have ho : ∃ o, t.head? = some o ∧ s' = (interp o v.session).2 := by
        rcases advance_cases ha with
          ⟨operation, o, k, rfl, hs, -⟩ | ⟨o, k, rfl, hs, -⟩ | ⟨o, k, rfl, hs, -⟩
        all_goals exact ⟨o, rfl, hs⟩
      obtain ⟨o, ho, rfl⟩ := ho
      exact h.final.trans (((hkeep t (List.mem_of_getElem? ht)).head ho).final _)
    | work =>
      obtain ⟨t, tasks, ht, rfl⟩ := step_work_iff.mp hstep
      have hsuffix : tasks <:+ v.session.tasks := ht ▸ List.suffix_cons t tasks
      exact { h.final with tasks := hsuffix.trans h.final.tasks }
    | request operation =>
      cases hstep
      exact h.final
    | leave =>
      cases hstep
      exact h.final
  · rcases thread_before_step hstep ht with
      hsame | ⟨-, u, hu, ha⟩ | ⟨operation, -, rfl⟩ | rfl | ⟨-, task, -, rfl⟩
    · exact h.refused i t hi hsame
    · exact (h.refused i u hi hu).advance hv ha
    · exact accepting_operation operation
    · exact accepting_leave
    · trivial

theorem ended_of_exec (hrun : exec World.step (World.start surroundings) choices = some w)
    (hend : w.receiver = .pure false) (hmore : exec World.step w more = some w') : Ended w w' := by
  have hrunning := running_of_ended hrun hend
  have hstart : Ended w w := by
    refine ⟨hend, .refl _, fun i t hi ht => ?_⟩
    rw [List.getElem?_eq_none hi] at ht
    cases ht
  have hboth := exec_invariant (I := fun v : World P E => (∀ t ∈ v.threads, t.KeepsTo) ∧ Ended w v)
    (fun _ _ _ h hstep => ⟨threads_keepTo_step h.1 hstep, h.2.step h.1 hrunning hstep⟩)
    ⟨threads_keepTo hrun, hstart⟩ hmore
  exact hboth.2

theorem Accepting.not_sends {α : Type} {p : Code P E α} (h : Accepting p false) (m : Outgoing) :
    p.head? ≠ some (.send m) := by
  intro hhead
  cases h.head hhead

theorem Accepting.not_returns {α : Type} {p : Code P E α} (h : Accepting p false) (a : α) :
    p ≠ .pure a := by
  rintro rfl
  cases h

/-- After the receive loop has ended nothing is answered any more: promises, handlers and flags stay as
they are, and a call that begins then sends nothing and does not return. -/
theorem final_after_end (surroundings : Surroundings P E) (choices more : List (Choice P E)) (w w' : World P E)
    (hrun : exec World.step (World.start surroundings) choices = some w) (hend : w.receiver = .pure false)
    (hmore : exec World.step w more = some w') :
    w.session.Final w'.session ∧ ∀ i, w.threads.length ≤ i →
      (∀ operation rest, w'.threads[i]? = some (.request operation rest) →
        (∀ m, rest.head? ≠ some (.send m)) ∧ ∀ r, rest ≠ .pure r) ∧
      ∀ rest, w'.threads[i]? = some (.leaving rest) →
        (∀ m, rest.head? ≠ some (.send m)) ∧ ∀ v, rest ≠ .pure v := by
  have h := ended_of_exec hrun hend hmore
  refine ⟨h.final, fun i hi => ⟨fun operation rest ht => ?_, fun rest ht => ?_⟩⟩
  · have hrefused : Accepting rest false := h.refused i _ hi ht
    exact ⟨hrefused.not_sends, hrefused.not_returns⟩
  · have hrefused : Accepting rest false := h.refused i _ hi ht
    exact ⟨hrefused.not_sends, hrefused.not_returns⟩

def goodbyeReceived : Surroundings Unit Unit :=
  .receiving [.message .goodbye]

def goodbyeChoices : List (Choice Unit Unit) := List.replicate 11 .receiver

theorem final_after_goodbye : ∃ w w' : World Unit Unit,
    exec World.step (World.start goodbyeReceived) goodbyeChoices = some w ∧ w.receiver = .pure false ∧
      exec World.step w [.request (.unregister 3), .thread 0, .thread 0, .thread 0] = some w' ∧
      w.session.Final w'.session :=
  ⟨_, _, rfl, rfl, rfl, (final_after_end goodbyeReceived goodbyeChoices
    [.request (.unregister 3), .thread 0, .thread 0, .thread 0] _ _ rfl rfl rfl).1⟩

end AfterEnd

end XconnCpp.Sessions

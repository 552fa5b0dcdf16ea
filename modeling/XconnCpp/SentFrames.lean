import XconnCpp.HandlerCauses

namespace XconnCpp.Sessions

open Library Library.Program Library.Program.Prog Library.Transition Values

variable {P E : Type}

def closeRealm : Outgoing := .goodbye [] (ascii "wamp.close.close_realm")

def goodbyeAndOut : Outgoing := .goodbye [] (ascii "wamp.close.goodbye_and_out")

def Operation.frame (requestId : UInt64) : Operation P E → Outgoing
  | .call procedure args kwargs options => .call requestId (unorderedMapToDict options) (cStr procedure)
    (vectorToList args) (unorderedMapToDict kwargs)
  | .register procedure _ options => .register requestId (unorderedMapToDict options) (cStr procedure)
  | .unregister registrationId => .unregister requestId registrationId
  | .publish topic args kwargs options => .publish requestId (unorderedMapToDict options) (cStr topic)
    (vectorToList args) (unorderedMapToDict kwargs)
  | .subscribe topic _ options => .subscribe requestId (unorderedMapToDict options) (cStr topic)
  | .unsubscribe subscriptionId => .unsubscribe requestId subscriptionId

theorem request_frame (operation : Operation P E) (requestId : UInt64) :
    ∃ k, (operation.frame requestId).request = some (k, requestId) := by
  cases operation <;> exact ⟨_, rfl⟩

section Filing

def Replies (P E : Type) (requestId : UInt64) (outcome : HandlerOutcome) (m : Outgoing) : Prop :=
  (replyTo requestId outcome : Code P E Unit).head? = some (.send m)

theorem Replies.isReply {requestId : UInt64} {outcome : HandlerOutcome} {m : Outgoing}
    (h : Replies P E requestId outcome m) : m.isReply = true := by
  cases outcome <;> cases h <;> rfl

inductive Filing (P : Type)
  | fresh (frame : UInt64 → Outgoing)
  | calling (f : P) (invocation : Invocation) (requestId : UInt64)
  | ready (A : Outgoing → Prop)
  | filed

def filingProtocol : Protocol (Filing P) (Op P E) Res where
  allows q o :=
    match o with
    | .nextId => ∃ frame, q = .fresh frame
    | .callProcedure f invocation => ∃ requestId, q = .calling f invocation requestId
    | .send m => ∃ A, q = .ready A ∧ A m
    | .waitFor _ => q = .filed
    | _ => True
  next q o r :=
    match o, r, q with
    | .nextId, requestId, .fresh frame => .ready (· = frame requestId)
    | .callProcedure _ _, outcome, .calling _ _ requestId => .ready (Replies P E requestId outcome)
    | .send _, _, _ => .filed
    | _, _, q => q

def Task.filing : Task P E → Filing P
  | .procedure handler invocation requestId =>
    match handler.target with
    | none => .ready (Replies P E requestId .exception)
    | some f => .calling f invocation requestId
  | .event _ _ => .ready fun _ => False

abbrev Files {α : Type} (post : Filing P → Prop) (p : Code P E α) (q : Filing P) : Prop :=
  p.Follows filingProtocol post (fun _ => True) q

theorem files_sendMessage {A : Outgoing → Prop} {m : Outgoing} (hm : A m) :
    Files (· = .filed) (sendMessage m : Code P E Unit) (.ready A) := by
  refine ⟨trivial, fun connected => ?_⟩
  cases connected with
  | true => exact ⟨⟨A, rfl, hm⟩, fun _ => rfl⟩
  | false => trivial

theorem files_waitWithTimeout (p : PromiseId) :
    Files (· = .filed) (waitWithTimeout p : Code P E Reply) .filed := by
  refine ⟨rfl, fun r => ?_⟩
  cases r with
  | none => trivial
  | some r => cases r <;> first | rfl | trivial

theorem files_request (k : RequestKind) (requestId : UInt64) (payload : Payload P E k) (m : Outgoing) :
    Files (· = .filed) (request k requestId payload m) (.ready (· = m)) := by
  refine ⟨trivial, fun p => Follows.bind (· = .filed) (files_sendMessage (A := (· = m)) rfl) ?_⟩
  rintro - q rfl
  exact files_waitWithTimeout p

theorem files_operation (operation : Operation P E) :
    Files (· = .filed) operation.code (.fresh fun requestId => operation.frame requestId) := by
  cases operation with
  | publish topic args kwargs options =>
    refine ⟨⟨_, rfl⟩, fun requestId => ?_⟩
    cases ha : acknowledge options with
    | none => trivial
    | some b =>
      cases b with
      | true => exact files_request .publish requestId () _
      | false =>
        refine Follows.bind (· = .filed) (files_sendMessage (A := (· = _)) rfl) ?_
        rintro - q rfl
        rfl
  | _ => exact ⟨⟨_, rfl⟩, fun requestId => files_request _ requestId _ _⟩

theorem files_leave : Files (fun _ => True) (leave : Code P E ℤ) (.ready (· = closeRealm)) := by
  refine ⟨trivial, fun retrieved => ?_⟩
  cases retrieved with
  | true =>
    have hsend : Files (· = .filed) (sendMessage closeRealm : Code P E Unit) (.ready (· = closeRealm)) :=
      files_sendMessage rfl
    refine Follows.bind (fun _ => True) (hsend.mono (fun _ _ => trivial) fun _ _ => trivial) ?_
    refine fun _ q _ => ⟨trivial, fun _ => ⟨trivial, fun v => ?_⟩⟩
    cases v <;> trivial
  | false => trivial

theorem files_replyTo (requestId : UInt64) (outcome : HandlerOutcome) :
    Files (fun _ => True) (replyTo requestId outcome : Code P E Unit)
      (.ready (Replies P E requestId outcome)) := by
  cases outcome with
  | other => trivial
  | _ => exact ⟨⟨_, rfl, rfl⟩, fun _ => trivial⟩

theorem files_task (t : Task P E) : Files (fun _ => True) t.code t.filing := by
  cases t with
  | procedure handler invocation requestId =>
    cases ht : handler.target with
    | none =>
      rw [code_of_empty ht]
      simpa [Task.filing, ht] using files_replyTo requestId .exception
    | some f =>
      rw [code_of_target ht]
      simp only [Task.filing, ht]
      exact ⟨⟨requestId, rfl⟩, fun outcome => files_replyTo requestId outcome⟩
  | event handler e =>
    cases ht : handler.target with
    | none =>
      rw [event_code_of_empty ht]
      trivial
    | some f =>
      rw [event_code_of_target ht]
      exact ⟨trivial, fun _ => trivial⟩

end Filing

section Origins

inductive Origin (P E : Type)
  | request (operation : Operation P E)
  | leave
  | worker (task : Task P E)

def Thread.HasOrigin (took : List (ℕ × Task P E)) (i : ℕ) : Thread P E → Origin P E → Prop
  | .request operation _, origin => origin = .request operation
  | .leaving _, origin => origin = .leave
  | .worker _, origin => ∃ task, (i, task) ∈ took ∧ origin = .worker task

/-- What has come of the handler of a task: nothing but an exception if it is empty, else what the call
of it gives that the thread has made, the `n`-th of the session. -/
def OutcomeOf (surroundings : Surroundings P E) (called : List (ℕ × HandlerCall P E)) (i : ℕ)
    (handler : StdFunction P) (invocation : Invocation) (outcome : HandlerOutcome) : Prop :=
  match handler.target with
  | none => outcome = .exception
  | some f => ∃ n, called[n]? = some (i, .procedure f invocation) ∧
    outcome = surroundings.outcomes n f invocation

def Origin.Authors (surroundings : Surroundings P E) (called : List (ℕ × HandlerCall P E)) (i : ℕ)
    (draw : Option ℕ) : Origin P E → Outgoing → Prop
  | .request operation, m => ∃ k, draw = some k ∧ m = operation.frame (surroundings.ids k)
  | .leave, m => m = closeRealm
  | .worker task, m => ∃ handler invocation requestId outcome,
    task = .procedure handler invocation requestId ∧
      OutcomeOf surroundings called i handler invocation outcome ∧ Replies P E requestId outcome m

def Thread.Files (q : Filing P) : Thread P E → Prop
  | .request _ rest => Sessions.Files (· = .filed) rest q
  | .leaving rest => Sessions.Files (fun _ => True) rest q
  | .worker rest => Sessions.Files (fun _ => True) rest q

variable {t t' : Thread P E} {s s' : Session P E} {q : Filing P} {took : List (ℕ × Task P E)}
  {surroundings : Surroundings P E} {called : List (ℕ × HandlerCall P E)} {i : ℕ} {draw : Option ℕ}
  {origin : Origin P E} {m : Outgoing}

theorem Origin.Authors.mono (h : origin.Authors surroundings called i draw m)
    (more : List (ℕ × HandlerCall P E)) : origin.Authors surroundings (called ++ more) i draw m := by
  cases origin with
  | request operation => exact h
  | leave => exact h
  | worker task =>
    obtain ⟨handler, invocation, requestId, outcome, htask, houtcome, hm⟩ := h
    refine ⟨handler, invocation, requestId, outcome, htask, ?_, hm⟩
    unfold OutcomeOf at houtcome ⊢
    split at houtcome
    next => exact houtcome
    next f _ =>
      obtain ⟨n, hn, he⟩ := houtcome
      refine ⟨n, ?_, he⟩
      rw [List.getElem?_append_left (List.getElem?_eq_some_iff.mp hn).1]
      exact hn

theorem Thread.HasOrigin.mono (h : t.HasOrigin took i origin) (more : List (ℕ × Task P E)) :
    t.HasOrigin (took ++ more) i origin := by
  cases t with
  | request operation rest => exact h
  | leaving rest => exact h
  | worker rest =>
    obtain ⟨task, htask, he⟩ := h
    exact ⟨task, List.mem_append_left _ htask, he⟩

theorem Thread.Files.advance (h : t.Files q) (ha : t.advance s = some (t', s')) :
    ∃ o, t.head? = some o ∧ s' = (interp o s).2 ∧ filingProtocol.allows q o ∧
      t'.Files (filingProtocol.next q o (interp o s).1) ∧
      ∀ origin, t.HasOrigin took i origin → t'.HasOrigin took i origin := by
  rcases advance_cases ha with
    ⟨operation, o, k, rfl, rfl, rfl⟩ | ⟨o, k, rfl, rfl, rfl⟩ | ⟨o, k, rfl, rfl, rfl⟩
  all_goals exact ⟨o, rfl, rfl, h.1, h.2 _, fun _ horigin => horigin⟩

theorem origin_after_set {threads : List (Thread P E)} {j : ℕ} {v : Thread P E} (hi : threads[i]? = some t)
    (ht : ∀ origin, t.HasOrigin took i origin → t'.HasOrigin took i origin) (hj : threads[j]? = some v)
    (hv : v.HasOrigin took j origin) :
    ∃ u, (threads.set i t')[j]? = some u ∧ u.HasOrigin took j origin := by
  by_cases hne : j = i
  · subst hne
    obtain rfl := Option.some.inj (hi.symm.trans hj)
    exact ⟨t', List.getElem?_set_self (List.getElem?_eq_some_iff.mp hj).1, ht origin hv⟩
  · exact ⟨v, by rwa [List.getElem?_set_ne (Ne.symm hne)], hv⟩

end Origins

section Signatures

def Op.message : Op P E → Option Outgoing
  | .send m => some m
  | _ => none

def Choice.author : Choice P E → Option ℕ
  | .thread i => some i
  | _ => none

def World.sends (w : World P E) (l : Choice P E) : List (Option ℕ × Outgoing) :=
  ((w.performs l).bind Op.message).toList.map (l.author, ·)

def sends (surroundings : Surroundings P E) (choices : List (Choice P E)) : List (Option ℕ × Outgoing) :=
  observe World.step World.sends (World.start surroundings) choices

def World.takes (w : World P E) : Choice P E → List (ℕ × Task P E)
  | .work => w.session.tasks.head?.toList.map (w.threads.length, ·)
  | _ => []

def takes (surroundings : Surroundings P E) (choices : List (Choice P E)) : List (ℕ × Task P E) :=
  observe World.step World.takes (World.start surroundings) choices

variable {surroundings : Surroundings P E} {choices : List (Choice P E)} {w w' : World P E} {l : Choice P E}

theorem sent_append_message (o : Op P E) (s : Session P E) :
    (interp o s).2.sent = s.sent ++ o.message.toList := by
  cases o with
  | receive => cases hi : s.inbox <;> simp [interp, hi, Op.message]
  | _ => simp [interp, Op.message]

theorem sent_append_sends (h : w.step l = some w') :
    w'.session.sent = w.session.sent ++ (w.sends l).map Prod.snd := by
  rcases session_of_step h with ⟨o, ho, hs⟩ | ⟨hnone, tasks, hs⟩
  · rw [hs, sent_append_message]
    simp [World.sends, ho, Function.comp_def]
  · rw [hs]
    simp [World.sends, hnone]

theorem sends_snoc (hrun : exec World.step (World.start surroundings) choices = some w) (l : Choice P E) :
    sends surroundings (choices ++ [l]) = sends surroundings choices ++ w.sends l :=
  observe_snoc hrun

theorem takes_snoc (hrun : exec World.step (World.start surroundings) choices = some w) (l : Choice P E) :
    takes surroundings (choices ++ [l]) = takes surroundings choices ++ w.takes l :=
  observe_snoc hrun

theorem sends_eq_sent (hrun : exec World.step (World.start surroundings) choices = some w) :
    (sends surroundings choices).map Prod.snd = w.session.sent := by
  induction choices using List.reverseRecOn generalizing w with
  | nil =>
    cases hrun
    rfl
  | append_singleton choices l ih =>
    obtain ⟨v, hv, hstep⟩ := exec_snoc_iff.mp hrun
    rw [sends_snoc hv, List.map_append, ih hv, sent_append_sends hstep]

def Op.SendsGoodbye (o : Op P E) : Prop :=
  (∀ m, o.message = some m → m = goodbyeAndOut) ∧ o.handlerCall = none

theorem sendsGoodbye_of_none {o : Op P E} (h : o.message = none) (hc : o.handlerCall = none) :
    o.SendsGoodbye :=
  ⟨fun m hm => by simp [h] at hm, hc⟩

theorem uses_goodbyeBranch_sendsGoodbye : (goodbyeBranch : Code P E Unit).Uses Op.SendsGoodbye := by
  have hend : (goodbyeEnd : Code P E Unit).Uses Op.SendsGoodbye := by
    refine ⟨sendsGoodbye_of_none rfl rfl, fun satisfied => ?_⟩
    cases satisfied with
    | true =>
      refine ⟨sendsGoodbye_of_none rfl rfl, fun _ => ⟨sendsGoodbye_of_none rfl rfl, fun closed => ?_⟩⟩
      cases closed <;> trivial
    | false => trivial
  refine ⟨sendsGoodbye_of_none rfl rfl, fun sent => ?_⟩
  cases sent with
  | true => exact hend
  | false =>
    refine Uses.bind (Uses.bind ?_ fun _ => ?_) fun _ => hend
    · exact uses_sendMessage (sendsGoodbye_of_none rfl rfl) ⟨fun m hm => (Option.some.inj hm).symm, rfl⟩
    · exact uses_perform_iff.mpr (sendsGoodbye_of_none rfl rfl)

theorem uses_waitRound_sendsGoodbye : (waitRound : Code P E Bool).Uses Op.SendsGoodbye := by
  refine ⟨sendsGoodbye_of_none rfl rfl, fun running => ?_⟩
  cases running with
  | false => trivial
  | true =>
    refine Uses.bind ?_ fun _ => trivial
    refine Uses.tryCatch ⟨sendsGoodbye_of_none rfl rfl, fun received => ?_⟩ fun _ => trivial
    cases received with
    | message m =>
      by_cases hm : m = .goodbye
      · subst hm
        exact uses_goodbyeBranch_sendsGoodbye
      · apply (uses_processIncomingMessage hm).mono
        intro o ho
        cases o <;> first | exact ho.elim | exact sendsGoodbye_of_none rfl rfl
    | null => trivial
    | failed => trivial

theorem receiver_sends (hrun : exec World.step (World.start surroundings) choices = some w) :
    w.receiver.Uses Op.SendsGoodbye := by
  apply exec_invariant (I := fun w : World P E => w.receiver.Uses Op.SendsGoodbye) _ _ hrun
  · intro t l t' ht hstep
    rcases receiver_of_step hstep with ⟨-, hr⟩ | ⟨-, ⟨-, hr⟩ | ⟨o, k, hr, -, hr'⟩⟩
    · rw [hr]
      exact ht
    · rw [hr]
      exact uses_waitRound_sendsGoodbye
    · rw [hr] at ht
      rw [hr']
      exact ht.2 _
  · exact uses_waitRound_sendsGoodbye

def Filing.Stands (surroundings : Surroundings P E) (called : List (ℕ × HandlerCall P E)) (i : ℕ)
    (draw : Option ℕ) (origin : Origin P E) (signed : Prop) : Filing P → Prop
  | .fresh frame => draw = none ∧ ¬ signed ∧
    ∃ operation, origin = .request operation ∧ frame = fun requestId => operation.frame requestId
  | .calling f invocation requestId => ¬ signed ∧
    ∃ handler, origin = .worker (.procedure handler invocation requestId) ∧ handler.target = some f
  | .ready A => ¬ signed ∧ ∀ m, A m → origin.Authors surroundings called i draw m
  | .filed => signed

theorem Filing.Stands.mono {called : List (ℕ × HandlerCall P E)} {i : ℕ} {draw : Option ℕ}
    {origin : Origin P E} {signed : Prop} {q : Filing P}
    (h : q.Stands surroundings called i draw origin signed) (more : List (ℕ × HandlerCall P E)) :
    q.Stands surroundings (called ++ more) i draw origin signed := by
  cases q with
  | ready A => exact ⟨h.1, fun m hm => (h.2 m hm).mono more⟩
  | _ => exact h

structure Signed (surroundings : Surroundings P E) (w : World P E) (drawn : ℕ → Option ℕ)
    (took : List (ℕ × Task P E)) (called : List (ℕ × HandlerCall P E)) (made : List (Option ℕ × Outgoing)) :
    Prop where
  outside : w.session.ids = surroundings.ids ∧ w.session.outcomes = surroundings.outcomes
  calls : w.session.handlerCalls = called.length
  filing : ∀ (i : ℕ) (t : Thread P E), w.threads[i]? = some t →
    ∃ origin q, t.HasOrigin took i origin ∧ t.Files q ∧
      q.Stands surroundings called i (drawn i) origin (i ∈ made.filterMap Prod.fst)
  authors : ∀ i m, (some i, m) ∈ made → ∃ t origin, w.threads[i]? = some t ∧ t.HasOrigin took i origin ∧
    origin.Authors surroundings called i (drawn i) m
  receiver : ∀ m, (none, m) ∈ made → m = goodbyeAndOut
  once : (made.filterMap Prod.fst).Nodup
  draws : ∀ i k, drawn i = some k → k < w.session.idsGiven ∧ i < w.threads.length
  apart : ∀ i j k, drawn i = some k → drawn j = some k → i = j

variable {drawn : ℕ → Option ℕ} {took : List (ℕ × Task P E)} {called : List (ℕ × HandlerCall P E)}
  {made : List (Option ℕ × Outgoing)} {i : ℕ} {t t' : Thread P E}

theorem outside_interp (o : Op P E) (s : Session P E) :
    (interp o s).2.ids = s.ids ∧ (interp o s).2.outcomes = s.outcomes := by
  cases o with
  | receive => cases hi : s.inbox <;> simp [interp, hi]
  | _ => exact ⟨rfl, rfl⟩

theorem idsGiven_le (o : Op P E) (s : Session P E) : s.idsGiven ≤ (interp o s).2.idsGiven := by
  cases o with
  | nextId => exact Nat.le_succ _
  | receive => cases hi : s.inbox <;> simp [interp, hi]
  | _ => exact le_rfl

theorem handlerCalls_interp (o : Op P E) (s : Session P E) :
    (interp o s).2.handlerCalls = s.handlerCalls + o.handlerCall.toList.length := by
  cases o with
  | receive => cases hi : s.inbox <;> simp [interp, hi, Op.handlerCall]
  | _ => rfl

theorem Signed.receiver_step (h : Signed surroundings w drawn took called made)
    (hrun : exec World.step (World.start surroundings) choices = some w)
    (hstep : w.step .receiver = some w') : Signed surroundings w' drawn took called (made ++ w.sends .receiver) := by
  have hsends : ∀ x ∈ w.sends .receiver, x = (none, goodbyeAndOut) := by
    intro x hx
    obtain ⟨m, hm, rfl⟩ := List.mem_map.mp hx
    obtain ⟨o, ho, hmessage⟩ := Option.bind_eq_some_iff.mp (Option.mem_toList.mp hm)
    rw [(Uses.head (receiver_sends hrun) ho).1 m hmessage]
    rfl
  have hsigned : (made ++ w.sends .receiver).filterMap Prod.fst = made.filterMap Prod.fst := by
    have hnone : (w.sends .receiver).filterMap Prod.fst = [] := by
      rw [List.filterMap_eq_nil_iff]
      exact fun x hx => by rw [hsends x hx]
    rw [List.filterMap_append, hnone, List.append_nil]
  obtain ⟨hthreads, houtside, hgiven, hcalls⟩ : w'.threads = w.threads ∧
      (w'.session.ids = w.session.ids ∧ w'.session.outcomes = w.session.outcomes) ∧
      w.session.idsGiven ≤ w'.session.idsGiven ∧ w'.session.handlerCalls = w.session.handlerCalls := by
    rcases step_receiver_iff.mp hstep with ⟨-, rfl⟩ | ⟨o, k, ho, rfl⟩
    · exact ⟨rfl, ⟨rfl, rfl⟩, le_rfl, rfl⟩
    · have hquiet : o.handlerCall = none := by
        have hsends := receiver_sends hrun
        rw [ho] at hsends
        exact hsends.1.2
      refine ⟨rfl, outside_interp o w.session, idsGiven_le o w.session, ?_⟩
      simpa [hquiet] using handlerCalls_interp o w.session
  constructor
  · exact ⟨houtside.1.trans h.outside.1, houtside.2.trans h.outside.2⟩
  · exact hcalls.trans h.calls
  · rw [hthreads, hsigned]
    exact h.filing
  · intro i m hm
    rw [hthreads]
    rcases List.mem_append.mp hm with hm | hm
    · exact h.authors i m hm
    · cases hsends _ hm
  · intro m hm
    rcases List.mem_append.mp hm with hm | hm
    · exact h.receiver m hm
    · exact congrArg Prod.snd (hsends _ hm)
  · rw [hsigned]
    exact h.once
  · intro i k hk
    rw [hthreads]
    exact ⟨Nat.lt_of_lt_of_le (h.draws i k hk).1 hgiven, (h.draws i k hk).2⟩
  · exact h.apart

variable {q : Filing P} {s : Session P E} {origin : Origin P E}

theorem Signed.authored_after_set (h : Signed surroundings w drawn took called made)
    (hi : w.threads[i]? = some t) (hkeep : ∀ origin, t.HasOrigin took i origin → t'.HasOrigin took i origin)
    {j : ℕ} {m : Outgoing} (hm : (some j, m) ∈ made) :
    ∃ u origin, (w.threads.set i t')[j]? = some u ∧ u.HasOrigin took j origin ∧
      origin.Authors surroundings called j (drawn j) m := by
  obtain ⟨v, origin, hv, horigin, hauthors⟩ := h.authors j m hm
  obtain ⟨u, hu, hsame⟩ := origin_after_set hi hkeep hv horigin
  exact ⟨u, origin, hu, hsame, hauthors⟩

theorem Signed.keep {o : Op P E} (h : Signed surroundings w drawn took called made)
    (hi : w.threads[i]? = some t) (hkeep : ∀ origin, t.HasOrigin took i origin → t'.HasOrigin took i origin)
    (horigin : t.HasOrigin took i origin) (hfiles : t'.Files q)
    (hstands : q.Stands surroundings (called ++ o.handlerCall.toList.map (i, ·)) i (drawn i) origin
      (i ∈ made.filterMap Prod.fst)) :
    Signed surroundings { w with session := (interp o w.session).2, threads := w.threads.set i t' } drawn took
      (called ++ o.handlerCall.toList.map (i, ·)) made where
  outside := by
    obtain ⟨hids, houtcomes⟩ := outside_interp o w.session
    exact ⟨hids.trans h.outside.1, houtcomes.trans h.outside.2⟩
  calls := by
    rw [List.length_append, List.length_map, ← h.calls]
    exact handlerCalls_interp o w.session
  filing j v hj := by
    rcases getElem?_set_cases hj with ⟨rfl, rfl⟩ | ⟨-, hj⟩
    · exact ⟨origin, q, hkeep origin horigin, hfiles, hstands⟩
    · obtain ⟨origin', q', horigin', hfiles', hstands'⟩ := h.filing j v hj
      exact ⟨origin', q', horigin', hfiles', hstands'.mono _⟩
  authors j m hm := by
    obtain ⟨u, origin', hu, horigin', hauthors⟩ := h.authored_after_set hi hkeep hm
    exact ⟨u, origin', hu, horigin', hauthors.mono _⟩
  receiver := h.receiver
  once := h.once
  draws j k hk := by
    obtain ⟨hlt, hj⟩ := h.draws j k hk
    exact ⟨Nat.lt_of_lt_of_le hlt (idsGiven_le o w.session), by simpa using hj⟩
  apart := h.apart

theorem Signed.sign {A : Outgoing → Prop} {m : Outgoing} (h : Signed surroundings w drawn took called made)
    (hi : w.threads[i]? = some t) (hkeep : ∀ origin, t.HasOrigin took i origin → t'.HasOrigin took i origin)
    (horigin : t.HasOrigin took i origin) (hfiles : t'.Files .filed)
    (hstands : (Filing.ready A).Stands surroundings called i (drawn i) origin (i ∈ made.filterMap Prod.fst))
    (hm : A m) :
    Signed surroundings { w with session := (interp (.send m) w.session).2, threads := w.threads.set i t' }
      drawn took called (made ++ [(some i, m)]) := by
  have hsigned : (made ++ [(some i, m)]).filterMap Prod.fst = made.filterMap Prod.fst ++ [i] := by
    simp
  obtain ⟨hnot, hauthors⟩ := hstands
  refine ⟨h.outside, h.calls, ?_, ?_, ?_, ?_, ?_, h.apart⟩
  · intro j v hj
    rw [hsigned]
    rcases getElem?_set_cases hj with ⟨rfl, rfl⟩ | ⟨hne, hj⟩
    · have hmem := List.mem_append_right (made.filterMap Prod.fst) (List.mem_singleton_self j)
      exact ⟨origin, .filed, hkeep origin horigin, hfiles, hmem⟩
    · have hmem : j ∈ made.filterMap Prod.fst ++ [i] ↔ j ∈ made.filterMap Prod.fst := by simp [hne]
      rw [hmem]
      exact h.filing j v hj
  · intro j m' hm'
    rcases List.mem_append.mp hm' with hm' | hm'
    · exact h.authored_after_set hi hkeep hm'
    · cases List.mem_singleton.mp hm'
      obtain ⟨u, hu, hsame⟩ := origin_after_set hi hkeep hi horigin
      exact ⟨u, origin, hu, hsame, hauthors m hm⟩
  · intro m' hm'
    rcases List.mem_append.mp hm' with hm' | hm'
    · exact h.receiver m' hm'
    · cases List.mem_singleton.mp hm'
  · rw [hsigned]
    simpa using List.Nodup.concat hnot h.once
  · intro j k hk
    obtain ⟨hlt, hj⟩ := h.draws j k hk
    exact ⟨hlt, by simpa using hj⟩

theorem Signed.draw {frame : UInt64 → Outgoing} (h : Signed surroundings w drawn took called made)
    (hi : w.threads[i]? = some t) (hkeep : ∀ origin, t.HasOrigin took i origin → t'.HasOrigin took i origin)
    (horigin : t.HasOrigin took i origin)
    (hfiles : t'.Files (.ready (· = frame (w.session.ids w.session.idsGiven))))
    (hstands : (Filing.fresh frame).Stands surroundings called i (drawn i) origin
      (i ∈ made.filterMap Prod.fst)) :
    Signed surroundings { w with session := (interp .nextId w.session).2, threads := w.threads.set i t' }
      (Function.update drawn i (some w.session.idsGiven)) took called made := by
  obtain ⟨hdrawn, hnot, operation, rfl, rfl⟩ := hstands
  have hlt : i < w.threads.length := (List.getElem?_eq_some_iff.mp hi).1
  have hother {j k : ℕ} (hk : Function.update drawn i (some w.session.idsGiven) j = some k) :
      j = i ∧ k = w.session.idsGiven ∨ j ≠ i ∧ drawn j = some k := by
    by_cases hj : j = i
    · subst hj
      rw [Function.update_self] at hk
      exact .inl ⟨rfl, (Option.some.inj hk).symm⟩
    · rw [Function.update_of_ne hj] at hk
      exact .inr ⟨hj, hk⟩
  refine ⟨h.outside, h.calls, ?_, ?_, h.receiver, h.once, ?_, ?_⟩
  · intro j v hj
    rcases getElem?_set_cases hj with ⟨rfl, rfl⟩ | ⟨hne, hj⟩
    · rw [Function.update_self]
      refine ⟨.request operation, _, hkeep _ horigin, hfiles, hnot, ?_⟩
      rintro m rfl
      exact ⟨w.session.idsGiven, rfl, by rw [h.outside.1]⟩
    · rw [Function.update_of_ne hne]
      exact h.filing j v hj
  · intro j m hm
    have hne : j ≠ i := by
      rintro rfl
      exact hnot (List.mem_filterMap.mpr ⟨_, hm, rfl⟩)
    rw [Function.update_of_ne hne]
    exact h.authored_after_set hi hkeep hm
  · intro j k hk
    rcases hother hk with ⟨rfl, rfl⟩ | ⟨-, hk⟩
    · exact ⟨Nat.lt_succ_self _, by simpa using hlt⟩
    · obtain ⟨hk', hj⟩ := h.draws j k hk
      exact ⟨Nat.lt_succ_of_lt hk', by simpa using hj⟩
  · intro j j' k hk hk'
    rcases hother hk with ⟨hj, hnew⟩ | ⟨-, hold⟩
    · rcases hother hk' with ⟨hj', -⟩ | ⟨-, hold'⟩
      · exact hj.trans hj'.symm
      · exact absurd hnew (Nat.ne_of_lt (h.draws j' k hold').1)
    · rcases hother hk' with ⟨-, hnew'⟩ | ⟨-, hold'⟩
      · exact absurd hnew' (Nat.ne_of_lt (h.draws j k hold).1)
      · exact h.apart j j' k hold hold'

theorem Signed.thread_step (h : Signed surroundings w drawn took called made)
    (hstep : w.step (.thread i) = some w') :
    ∃ drawn', Signed surroundings w' drawn' took (called ++ w.calls (.thread i))
      (made ++ w.sends (.thread i)) := by
  obtain ⟨t, t', s', hi, ha, rfl⟩ := step_thread_iff.mp hstep
  obtain ⟨origin, q, horigin, hfiles, hstands⟩ := h.filing i t hi
  obtain ⟨o, hhead, rfl, hallows, hnext, hkeep⟩ := hfiles.advance ha
  have ho : w.performs (.thread i) = some o := by simp [World.performs, hi, hhead]
  have hcalls : w.calls (.thread i) = o.handlerCall.toList.map (i, ·) := by simp [World.calls, ho]
  have hsends : w.sends (.thread i) = o.message.toList.map (some i, ·) := by
    simp [World.sends, ho, Choice.author]
  rw [hcalls, hsends]
  cases o with
  | nextId =>
    obtain ⟨frame, rfl⟩ := hallows
    refine ⟨Function.update drawn i (some w.session.idsGiven), ?_⟩
    simpa [Op.handlerCall, Op.message] using h.draw hi hkeep horigin hnext hstands
  | send m =>
    obtain ⟨A, rfl, hm⟩ := hallows
    refine ⟨drawn, ?_⟩
    simpa [Op.handlerCall, Op.message] using h.sign hi hkeep horigin hnext hstands hm
  | callProcedure f invocation =>
    obtain ⟨requestId, rfl⟩ := hallows
    obtain ⟨hnot, handler, rfl, htarget⟩ := hstands
    refine ⟨drawn, ?_⟩
    rw [show (Op.callProcedure f invocation : Op P E).message = none from rfl, Option.toList_none,
      List.map_nil, List.append_nil]
    refine h.keep hi hkeep horigin hnext ⟨hnot, fun m hm => ⟨handler, invocation, requestId, _, rfl, ?_, hm⟩⟩
    rw [OutcomeOf, htarget]
    refine ⟨called.length, by simp [Op.handlerCall], ?_⟩
    rw [← h.calls, ← h.outside.2]
    rfl
  | _ =>
    refine ⟨drawn, ?_⟩
    simpa [Op.message] using h.keep hi hkeep horigin hnext (hstands.mono _)

theorem Signed.newThread {more : List (ℕ × Task P E)} (h : Signed surroundings w drawn took called made)
    (horigin : t.HasOrigin (took ++ more) w.threads.length origin) (hfiles : t.Files q)
    (hstands : q.Stands surroundings called w.threads.length none origin False)
    (hs : (s.ids = w.session.ids ∧ s.outcomes = w.session.outcomes) ∧ s.idsGiven = w.session.idsGiven ∧
      s.handlerCalls = w.session.handlerCalls) :
    Signed surroundings { w with session := s, threads := w.threads ++ [t] } drawn (took ++ more) called
      made where
  outside := ⟨hs.1.1.trans h.outside.1, hs.1.2.trans h.outside.2⟩
  calls := hs.2.2.trans h.calls
  filing j v hj := by
    rcases getElem?_concat_cases hj with hj | ⟨rfl, rfl⟩
    · obtain ⟨origin', q', horigin', hfiles', hstands'⟩ := h.filing j v hj
      exact ⟨origin', q', horigin'.mono more, hfiles', hstands'⟩
    · have hdrawn : drawn w.threads.length = none := by
        rw [Option.eq_none_iff_forall_not_mem]
        exact fun k hk => absurd rfl (Nat.ne_of_lt (h.draws _ k hk).2)
      have hnot : w.threads.length ∈ made.filterMap Prod.fst ↔ False := by
        refine ⟨fun hmem => ?_, False.elim⟩
        obtain ⟨⟨a, m⟩, hm, rfl⟩ := List.mem_filterMap.mp hmem
        obtain ⟨v, origin', hv, -⟩ := h.authors _ m hm
        exact Nat.lt_irrefl _ (List.getElem?_eq_some_iff.mp hv).1
      rw [hdrawn, hnot]
      exact ⟨origin, q, horigin, hfiles, hstands⟩
  authors j m hm := by
    obtain ⟨v, origin', hv, horigin', hauthors⟩ := h.authors j m hm
    refine ⟨v, origin', ?_, horigin'.mono more, hauthors⟩
    rwa [List.getElem?_append_left (List.getElem?_eq_some_iff.mp hv).1]
  receiver := h.receiver
  once := h.once
  draws j k hk := by
    obtain ⟨hlt, hj⟩ := h.draws j k hk
    refine ⟨hs.2.1 ▸ hlt, ?_⟩
    rw [List.length_append]
    exact Nat.lt_add_right _ hj
  apart := h.apart

theorem signed_start (surroundings : Surroundings P E) :
    Signed surroundings (World.start surroundings : World P E) (fun _ => none) [] [] [] where
  outside := ⟨rfl, rfl⟩
  calls := rfl
  filing i t hi := by simp [World.start] at hi
  authors i m hm := by simp at hm
  receiver m hm := by simp at hm
  once := .nil
  draws i k hk := by cases hk
  apart i j k hk := by cases hk

theorem stands_task (task : Task P E) :
    task.filing.Stands surroundings called i none (.worker task) False := by
  cases task with
  | procedure handler invocation requestId =>
    cases ht : handler.target with
    | none =>
      simp only [Task.filing, ht]
      refine ⟨not_false, fun m hm => ⟨handler, invocation, requestId, .exception, rfl, ?_, hm⟩⟩
      simp [OutcomeOf, ht]
    | some f =>
      simp only [Task.filing, ht]
      exact ⟨not_false, handler, rfl, ht⟩
  | event handler e => exact ⟨not_false, fun m hm => hm.elim⟩

theorem Signed.step (h : Signed surroundings w drawn took called made)
    (hrun : exec World.step (World.start surroundings) choices = some w) (hstep : w.step l = some w') :
    ∃ drawn', Signed surroundings w' drawn' (took ++ w.takes l) (called ++ w.calls l)
      (made ++ w.sends l) := by
  cases l with
  | receiver =>
    refine ⟨drawn, ?_⟩
    simpa [World.takes, World.calls] using h.receiver_step hrun hstep
  | thread i =>
    simpa [World.takes] using h.thread_step hstep
  | request operation =>
    cases hstep
    refine ⟨drawn, ?_⟩
    rw [show w.sends (.request operation) = [] from rfl, show w.calls (.request operation) = [] from rfl,
      List.append_nil, List.append_nil]
    exact h.newThread rfl (files_operation operation) ⟨rfl, not_false, operation, rfl, rfl⟩
      ⟨⟨rfl, rfl⟩, rfl, rfl⟩
  | leave =>
    cases hstep
    refine ⟨drawn, ?_⟩
    rw [show w.sends .leave = [] from rfl, show w.calls .leave = [] from rfl, List.append_nil,
      List.append_nil]
    exact h.newThread rfl files_leave ⟨not_false, fun m hm => hm⟩ ⟨⟨rfl, rfl⟩, rfl, rfl⟩
  | work =>
    obtain ⟨task, tasks, htasks, rfl⟩ := step_work_iff.mp hstep
    refine ⟨drawn, ?_⟩
    rw [show w.sends .work = [] from rfl, show w.calls .work = [] from rfl, List.append_nil,
      List.append_nil]
    have htakes : w.takes .work = [(w.threads.length, task)] := by simp [World.takes, htasks]
    rw [htakes]
    exact h.newThread ⟨task, by simp, rfl⟩ (files_task task) (stands_task task) ⟨⟨rfl, rfl⟩, rfl, rfl⟩

theorem signed_of_exec (hrun : exec World.step (World.start surroundings) choices = some w) :
    ∃ drawn, Signed surroundings w drawn (takes surroundings choices) (calls surroundings choices)
      (sends surroundings choices) := by
  induction choices using List.reverseRecOn generalizing w with
  | nil =>
    cases hrun
    exact ⟨_, signed_start surroundings⟩
  | append_singleton choices l ih =>
    obtain ⟨v, hv, hstep⟩ := exec_snoc_iff.mp hrun
    obtain ⟨drawn, hsigned⟩ := ih hv
    rw [sends_snoc hv, takes_snoc hv, calls, observe_snoc hv]
    exact hsigned.step hv hstep

theorem takes_of_exec (hrun : exec World.step (World.start surroundings) choices = some w) :
    ((takes surroundings choices).map Prod.fst).Nodup ∧
      ∀ x ∈ takes surroundings choices, x.1 < w.threads.length ∧ ∃ b, MadeOf surroundings b x.2 := by
  induction choices using List.reverseRecOn generalizing w with
  | nil => simp [takes, observe]
  | append_singleton choices l ih =>
    obtain ⟨v, hv, hstep⟩ := exec_snoc_iff.mp hrun
    obtain ⟨hnodup, htakes⟩ := ih hv
    have hkept (x : ℕ × Task P E) (hx : x ∈ takes surroundings choices) :
        x.1 < w.threads.length ∧ ∃ b, MadeOf surroundings b x.2 :=
      ⟨lt_length_of_step hstep (htakes x hx).1, (htakes x hx).2⟩
    rw [takes_snoc hv]
    cases l with
    | work =>
      obtain ⟨task, tasks, htasks, rfl⟩ := step_work_iff.mp hstep
      obtain ⟨q, n, cause, pending, -, -, haccounts⟩ := known_of_exec hv
      obtain ⟨b, pending', hb, -⟩ := List.forall₂_cons_right_iff.mp (htasks ▸ haccounts.queue)
      have hnew : v.takes .work = [(v.threads.length, task)] := by simp [World.takes, htasks]
      rw [hnew]
      refine ⟨?_, fun x hx => ?_⟩
      · rw [List.map_append]
        have hnot : v.threads.length ∉ (takes surroundings choices).map Prod.fst := by
          intro hmem
          obtain ⟨x, hx, he⟩ := List.mem_map.mp hmem
          exact Nat.ne_of_lt (htakes x hx).1 he
        simpa using List.Nodup.concat hnot hnodup
      · rcases List.mem_append.mp hx with hx | hx
        · exact hkept x hx
        · obtain rfl := List.mem_singleton.mp hx
          exact ⟨by simp, b, hb.madeOf⟩
    | _ =>
      simp only [World.takes, List.append_nil]
      exact ⟨hnodup, hkept⟩

structure Attributed (surroundings : Surroundings P E) (choices : List (Choice P E)) (w : World P E)
    (made : List (Option ℕ × Outgoing)) : Prop where
  sent : made.map Prod.snd = w.session.sent
  once : (made.filterMap Prod.fst).Nodup
  receiver : ∀ m, (none, m) ∈ made → m = goodbyeAndOut
  threads : ∃ drawn : ℕ → Option ℕ, (∀ i k, drawn i = some k → k < w.session.idsGiven) ∧
    (∀ i j k, drawn i = some k → drawn j = some k → i = j) ∧
    ∀ i m, (some i, m) ∈ made →
      ∃ t origin, w.threads[i]? = some t ∧ t.HasOrigin (takes surroundings choices) i origin ∧
        origin.Authors surroundings (calls surroundings choices) i (drawn i) m
  tasks : ((takes surroundings choices).map Prod.fst).Nodup ∧
    ∀ x ∈ takes surroundings choices, ∃ b, MadeOf surroundings b x.2
  waiting : ∀ (i : ℕ) (operation : Operation P E) (rest : Code P E Reply) (p : PromiseId),
    w.threads[i]? = some (.request operation rest) → rest.head? = some (.waitFor p) → ∃ m, (some i, m) ∈ made
  returned : ∀ (i : ℕ) (operation : Operation P E) (reply : Reply),
    w.threads[i]? = some (.request operation (.pure reply)) → ∃ m, (some i, m) ∈ made

theorem exists_signed {draw : Option ℕ} (h : q.Stands surroundings called i draw origin
    (i ∈ made.filterMap Prod.fst)) (hq : q = .filed) : ∃ m, (some i, m) ∈ made := by
  subst hq
  obtain ⟨⟨a, m⟩, hm, rfl⟩ := List.mem_filterMap.mp h
  exact ⟨m, hm⟩

/-- Nothing is sent that is not the one message of an operation, a `leave` or a task, or the answer to a
GOODBYE, and an operation waits and returns only after its message. -/
theorem sent_frames_have_authors (surroundings : Surroundings P E) (choices : List (Choice P E))
    (w : World P E) (hrun : exec World.step (World.start surroundings) choices = some w) :
    Attributed surroundings choices w (sends surroundings choices) := by
  obtain ⟨drawn, hsigned⟩ := signed_of_exec hrun
  obtain ⟨hnodup, htakes⟩ := takes_of_exec hrun
  refine ⟨sends_eq_sent hrun, hsigned.once, hsigned.receiver, ?_,
    ⟨hnodup, fun x hx => (htakes x hx).2⟩, ?_, ?_⟩
  · exact ⟨drawn, fun i k hk => (hsigned.draws i k hk).1, hsigned.apart, hsigned.authors⟩
  · intro i operation rest p hi hhead
    obtain ⟨origin, q, -, hfiles, hstands⟩ := hsigned.filing i _ hi
    have hq : q = .filed := Follows.head hfiles hhead
    exact exists_signed hstands hq
  · intro i operation reply hi
    obtain ⟨origin, q, -, hfiles, hstands⟩ := hsigned.filing i _ hi
    have hq : q = .filed := hfiles
    exact exists_signed hstands hq

theorem sent_frames_have_authors_crossed : ∃ w : World Bool Unit,
    exec World.step (World.start crossedSurroundings) (crossedChoices ++ [.thread 3, .thread 2]) = some w ∧
      (sends crossedSurroundings (crossedChoices ++ [.thread 3, .thread 2])).map Prod.fst =
        [some 0, some 1, some 3, some 2] ∧
      Attributed crossedSurroundings (crossedChoices ++ [.thread 3, .thread 2]) w
        (sends crossedSurroundings (crossedChoices ++ [.thread 3, .thread 2])) :=
  ⟨_, rfl, rfl, sent_frames_have_authors crossedSurroundings _ _ rfl⟩

def drawOf (drawn : ℕ → Option ℕ) (x : Option ℕ × Outgoing) : Option ℕ :=
  if x.2.request.isSome then x.1.bind drawn else none

theorem Signed.request_id (h : Signed surroundings w drawn took called made) {x : Option ℕ × Outgoing}
    (hx : x ∈ made) :
    x.2.request.map Prod.snd = (drawOf drawn x).map surroundings.ids := by
  obtain ⟨a, m⟩ := x
  cases hm : m.request with
  | none => simp [drawOf, hm]
  | some key =>
    cases a with
    | none => simp [h.receiver m hx, goodbyeAndOut, Outgoing.request] at hm
    | some i =>
      obtain ⟨t, origin, -, -, hauthors⟩ := h.authors i m hx
      cases origin with
      | request operation =>
        obtain ⟨k, hk, rfl⟩ := hauthors
        obtain ⟨kind, hframe⟩ := request_frame operation (surroundings.ids k)
        obtain rfl : (kind, surroundings.ids k) = key := Option.some.inj (hframe.symm.trans hm)
        simp [drawOf, hm, hk]
      | leave =>
        obtain rfl : m = closeRealm := hauthors
        simp [closeRealm, Outgoing.request] at hm
      | worker task =>
        obtain ⟨handler, invocation, requestId, outcome, -, -, hreplies⟩ := hauthors
        have hreply := hreplies.isReply
        cases m <;> simp [Outgoing.isReply, Outgoing.request] at hreply hm

theorem Signed.draws_nodup (h : Signed surroundings w drawn took called made) :
    (made.filterMap (drawOf drawn)).Nodup := by
  have honce : made.Pairwise fun x y => ∀ i, x.1 = some i → ∀ j, y.1 = some j → i ≠ j :=
    List.pairwise_filterMap.mp h.once
  apply List.pairwise_filterMap.mpr
  apply honce.imp
  intro x y hxy k hk k' hk' he
  have hdraw (z : Option ℕ × Outgoing) (n : ℕ) (hn : drawOf drawn z = some n) :
      ∃ i, z.1 = some i ∧ drawn i = some n := by
    unfold drawOf at hn
    split at hn
    · exact Option.bind_eq_some_iff.mp hn
    · cases hn
  obtain ⟨i, hi, hik⟩ := hdraw x k hk
  obtain ⟨j, hj, hjk⟩ := hdraw y k' hk'
  exact hxy i hi j hj (h.apart i j k hik (he ▸ hjk))

/-- The ids of the requests on the wire are ids that the session has given, no two of them in the same
draw. -/
theorem wire_request_ids (surroundings : Surroundings P E) (choices : List (Choice P E)) (w : World P E)
    (hrun : exec World.step (World.start surroundings) choices = some w) :
    ∃ draws : List ℕ, draws.Nodup ∧ (∀ k ∈ draws, k < w.session.idsGiven) ∧
      (w.session.sent.filterMap Outgoing.request).map Prod.snd = draws.map surroundings.ids := by
  obtain ⟨drawn, hsigned⟩ := signed_of_exec hrun
  refine ⟨(sends surroundings choices).filterMap (drawOf drawn), hsigned.draws_nodup, ?_, ?_⟩
  · intro k hk
    obtain ⟨x, -, hx⟩ := List.mem_filterMap.mp hk
    unfold drawOf at hx
    split at hx
    · obtain ⟨i, -, hi⟩ := Option.bind_eq_some_iff.mp hx
      exact (hsigned.draws i k hi).1
    · cases hx
  · rw [← sends_eq_sent hrun, List.filterMap_map, List.map_filterMap, List.map_filterMap]
    exact List.filterMap_congr fun x hx => hsigned.request_id hx

def sharedSurroundings : Surroundings Unit Unit :=
  { (.quiet : Surroundings Unit Unit) with ids := fun _ => 7 }

def sharedChoices : List (Choice Unit Unit) :=
  [.request (.unsubscribe 1), .request (.unsubscribe 2)] ++ List.replicate 4 (.thread 1) ++
    List.replicate 4 (.thread 0)

theorem wire_request_ids_shared : ∃ w : World Unit Unit,
    exec World.step (World.start sharedSurroundings) sharedChoices = some w ∧ w.session.sent.length = 2 ∧
      ∃ draws : List ℕ, draws.Nodup ∧ (∀ k ∈ draws, k < w.session.idsGiven) ∧
        (w.session.sent.filterMap Outgoing.request).map Prod.snd = draws.map sharedSurroundings.ids :=
  ⟨_, rfl, rfl, wire_request_ids sharedSurroundings sharedChoices _ rfl⟩

end Signatures

end XconnCpp.Sessions

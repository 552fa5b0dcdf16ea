import XconnCpp.SessionRuns

namespace XconnCpp.Sessions

open Library Library.Program Library.Program.Prog Library.Transition Values

variable {P E : Type}

section Effects

def Session.handling (s : Session P E) :
    Table UInt64 (StdFunction P) × Table UInt64 (StdFunction E) × List (Task P E) :=
  (s.registrations, s.subscriptions, s.tasks)

def Op.KeepsHandling (o : Op P E) : Prop := ∀ s, (interp o s).2.handling = s.handling

theorem Op.ByOthers.keepsHandling {o : Op P E} (h : o.ByOthers) : o.KeepsHandling := by
  rcases h with h | h | h <;> cases o <;> first | exact fun _ => rfl | exact h.elim

theorem Op.OfGoodbye.keepsHandling {o : Op P E} (h : o.OfGoodbye) : o.KeepsHandling := by
  cases o <;> first | exact fun _ => rfl | exact h.elim

theorem Op.OfPending.keepsHandling {o : Op P E} (h : o.OfPending) : o.KeepsHandling := by
  cases o <;> first | exact fun _ => rfl | exact h.elim

def registrationsAfter (s : Session P E) : Message → Table UInt64 (StdFunction P)
  | .registered requestId registrationId =>
    match (s.requests .register).lookup requestId with
    | some r => s.registrations.emplace registrationId r.payload
    | none => s.registrations
  | .unregistered requestId =>
    match (s.requests .unregister).lookup requestId with
    | some r => s.registrations.erase r.payload
    | none => s.registrations
  | .invocation _ registrationId _ _ _ => (findFromMap registrationId.toInt64 s.registrations false).2
  | _ => s.registrations

def subscriptionsAfter (s : Session P E) : Message → Table UInt64 (StdFunction E)
  | .subscribed requestId subscriptionId =>
    match (s.requests .subscribe).lookup requestId with
    | some r => s.subscriptions.emplace subscriptionId r.payload
    | none => s.subscriptions
  | .event subscriptionId _ _ _ => (findFromMap subscriptionId.toInt64 s.subscriptions false).2
  | _ => s.subscriptions

def dispatched (s : Session P E) : Message → Option (Task P E)
  | .invocation requestId registrationId args kwargs details =>
    (s.registrations.lookup registrationId).map fun handler =>
      .procedure handler ⟨fromCList args, fromCDict kwargs, fromCDict details⟩ requestId
  | .event subscriptionId args kwargs details =>
    (s.subscriptions.lookup subscriptionId).map fun handler =>
      .event handler (.make (fromCList args) (fromCDict kwargs) (fromCDict details))
  | _ => none

theorem process_handling (m : Message) (s : Session P E) :
    (process m s).2.handling =
      (registrationsAfter s m, subscriptionsAfter s m, s.tasks ++ (dispatched s m).toList) := by
  have quiet {p : Code P E Unit} (hp : p.Uses Op.OfPending) (t : Session P E) :
      (p.run interp t).2.handling = t.handling := (hp.mono fun _ ho => ho.keepsHandling).run_eq t
  have unchanged : s.handling = (s.registrations, s.subscriptions, s.tasks ++ []) := by
    simp [Session.handling]
  cases m with
  | goodbye => exact ((uses_goodbyeBranch.mono fun _ ho => ho.keepsHandling).run_eq s).trans unchanged
  | result | published | unsubscribed => exact (quiet (uses_replyBranch _ _ _) s).trans unchanged
  | error => exact (quiet (uses_errorBranch _ _ _ _ _) s).trans unchanged
  | abort | other => exact unchanged
  | registered requestId registrationId =>
    simp only [process, processIncomingMessage, registeredBranch, run_op, registrationsAfter]
    cases h : (s.requests .register).lookup requestId with
    | none => simp [interp, h, Session.handling, subscriptionsAfter, dispatched]
    | some r =>
      have hf : (interp (.findRequest .register requestId.toInt64) s).1 = some r := by
        simp [interp, h]
      simp only [hf, run_op]
      rw [quiet (uses_complete _ _)]
      simp [interp, Session.handling, subscriptionsAfter, dispatched]
  | unregistered requestId =>
    simp only [process, processIncomingMessage, unregisteredBranch, run_op, registrationsAfter]
    cases h : (s.requests .unregister).lookup requestId with
    | none => simp [interp, h, Session.handling, subscriptionsAfter, dispatched]
    | some r =>
      have hf : (interp (.findRequest .unregister requestId.toInt64) s).1 = some r := by
        simp [interp, h]
      have he : (findFromMap (UInt64.toInt64 r.payload) s.registrations true).2 =
          s.registrations.erase r.payload := by simp [findFromMap_erase]
      simp only [hf, run_op]
      rw [quiet (uses_complete _ _)]
      simp [interp, he, Session.handling, subscriptionsAfter, dispatched]
  | subscribed requestId subscriptionId =>
    simp only [process, processIncomingMessage, subscribedBranch, run_op, subscriptionsAfter]
    cases h : (s.requests .subscribe).lookup requestId with
    | none => simp [interp, h, Session.handling, registrationsAfter, dispatched]
    | some r =>
      have hf : (interp (.findRequest .subscribe requestId.toInt64) s).1 = some r := by
        simp [interp, h]
      simp only [hf, run_op]
      rw [quiet (uses_complete _ _)]
      simp [interp, Session.handling, registrationsAfter, dispatched]
  | invocation requestId registrationId args kwargs details =>
    simp only [process, processIncomingMessage, invocationBranch, run_op, dispatched]
    cases h : s.registrations.lookup registrationId with
    | none => simp [interp, h, Session.handling, registrationsAfter, subscriptionsAfter]
    | some handler => simp [interp, h, Session.handling, registrationsAfter, subscriptionsAfter, perform]
  | event subscriptionId args kwargs details =>
    simp only [process, processIncomingMessage, eventBranch, run_op, dispatched]
    cases h : s.subscriptions.lookup subscriptionId with
    | none => simp [interp, h, Session.handling, registrationsAfter, subscriptionsAfter]
    | some handler => simp [interp, h, Session.handling, registrationsAfter, subscriptionsAfter, perform]

theorem act_handling {s t : Session P E} {m : Message} (h : act s (.inbound m) = some t) :
    t.registrations = registrationsAfter s m ∧ t.subscriptions = subscriptionsAfter s m ∧
      t.tasks = s.tasks ++ (dispatched s m).toList := by
  obtain ⟨-, rfl⟩ := act_inbound_iff.mp h
  simpa [Session.handling] using process_handling m s

theorem act_other_tables {s t : Session P E} {a : Action P E} (ha : ∀ m, a ≠ .inbound m)
    (h : act s a = some t) : t.registrations = s.registrations ∧ t.subscriptions = s.subscriptions := by
  cases a with
  | other o =>
    obtain rfl : (interp o.1 s).2 = t := by simpa [act] using h
    have := o.2.keepsHandling s
    simp_all [Session.handling]
  | dequeue =>
    obtain rfl := Option.some.inj h
    exact ⟨rfl, rfl⟩
  | inbound m => exact absurd rfl (ha m)

end Effects

section Registrations

def AnswersRegister (registrationId : UInt64) (s : Session P E) (a : Action P E) : Prop :=
  ∃ requestId, a = .inbound (.registered requestId registrationId) ∧ requestId ∈ s.requests .register

def AnswersUnregister (registrationId : UInt64) (s : Session P E) (a : Action P E) : Prop :=
  ∃ requestId r, a = .inbound (.unregistered requestId) ∧
    (s.requests .unregister).lookup requestId = some r ∧ r.payload = registrationId

theorem mem_registrations_iff {s t : Session P E} {a : Action P E} (h : act s a = some t)
    (registrationId : UInt64) :
    registrationId ∈ t.registrations ↔ AnswersRegister registrationId s a ∨
      registrationId ∈ s.registrations ∧ ¬ AnswersUnregister registrationId s a := by
  cases a with
  | inbound m =>
    rw [(act_handling h).1]
    cases m with
    | registered requestId r =>
      simp only [registrationsAfter, AnswersRegister, AnswersUnregister]
      cases hr : (s.requests .register).lookup requestId with
      | none =>
        have := Finmap.lookup_eq_none.mp hr
        simp_all
      | some q =>
        have := Finmap.mem_of_lookup_eq_some hr
        simp [Table.mem_emplace_iff, this, eq_comm]
    | unregistered requestId =>
      simp only [registrationsAfter, AnswersRegister, AnswersUnregister]
      cases hr : (s.requests .unregister).lookup requestId with
      | none => simp [hr]
      | some q =>
        rw [Finmap.mem_erase, and_comm]
        simp [hr, eq_comm]
    | invocation requestId r args kwargs details =>
      simp [registrationsAfter, mem_findFromMap_keep, AnswersRegister, AnswersUnregister]
    | _ => simp [registrationsAfter, AnswersRegister, AnswersUnregister]
  | _ =>
    rw [(act_other_tables (by simp) h).1]
    simp [AnswersRegister, AnswersUnregister]

theorem act_of_no_answer {m : Message} (hm : m.answers = none) (s : Session P E) :
    ∃ t, act s (.inbound m) = some t ∧ t.tasks = s.tasks ++ (dispatched s m).toList := by
  have h : act s (.inbound m) = some _ :=
    act_inbound_iff.mpr ⟨process_ne_undefined_of_no_answer hm, rfl⟩
  exact ⟨_, h, (act_handling h).2.2⟩

/-- The keys of the table are what the history of the session makes of them, whatever the start was
given; no other action changes them; and an invocation makes a task if its key is there. -/
theorem registrations_follow_history (surroundings : Surroundings P E)
    (actions : List (Action P E)) (s : Session P E)
    (hrun : exec act (Session.start surroundings) actions = some s)
    (registrationId : UInt64) :
    (registrationId ∈ s.registrations ↔
      ∃ pre a post t, actions = pre ++ a :: post ∧
        exec act (Session.start surroundings) pre = some t ∧
        AnswersRegister registrationId t a ∧
        ∀ mid b rest u, post = mid ++ b :: rest →
          exec act (Session.start surroundings) (pre ++ a :: mid) = some u →
          ¬ AnswersUnregister registrationId u b) ∧
    (∀ a t, act s a = some t → ¬ AnswersRegister registrationId s a →
      ¬ AnswersUnregister registrationId s a →
      (registrationId ∈ t.registrations ↔ registrationId ∈ s.registrations)) ∧
    ∀ requestId args kwargs details,
      ∃ t, act s (.inbound (.invocation requestId registrationId args kwargs details)) = some t ∧
        if registrationId ∈ s.registrations then ∃ task, t.tasks = s.tasks ++ [task]
        else t.tasks = s.tasks := by
  refine ⟨?_, ?_, ?_⟩
  · exact exec_since_iff (fun t a t' h => mem_registrations_iff h registrationId)
      Finmap.notMem_empty hrun
  · intro a t h hregister hunregister
    simp [mem_registrations_iff h registrationId, hregister, hunregister]
  · intro requestId args kwargs details
    obtain ⟨t, ht, htasks⟩ := act_of_no_answer (m := .invocation requestId registrationId args kwargs details) rfl s
    refine ⟨t, ht, ?_⟩
    by_cases h : registrationId ∈ s.registrations
    · obtain ⟨handler, hh⟩ := Table.mem_iff_lookup.mp h
      rw [if_pos h, htasks]
      exact ⟨.procedure handler ⟨fromCList args, fromCDict kwargs, fromCDict details⟩ requestId, by
        simp [dispatched, hh]⟩
    · rw [if_neg h, htasks]
      simp [dispatched, Finmap.lookup_eq_none.mpr h]

theorem registrations_follow_history_registered :
    ∃ s : Session Unit Unit, exec act (Session.start .quiet)
      [.other ⟨.emplaceRequest .register 7 ⟨some ()⟩, .inl trivial⟩, .inbound (.registered 7 9)] = some s ∧
        9 ∈ s.registrations :=
  ⟨_, rfl, (registrations_follow_history _ _ _ rfl 9).1.mpr
    ⟨[.other ⟨.emplaceRequest .register 7 ⟨some ()⟩, .inl trivial⟩], .inbound (.registered 7 9), [], _, rfl,
      rfl, ⟨7, rfl, by decide⟩, by simp⟩⟩

end Registrations

section Dispatch

variable {s t u : Session P E} {a : Action P E} {actions : List (Action P E)}

def Action.isEvent (subscriptionId : UInt64) : Action P E → Bool
  | .inbound (.event i _ _ _) => i = subscriptionId
  | _ => false

def Action.isInvocation (registrationId : UInt64) : Action P E → Bool
  | .inbound (.invocation _ i _ _ _) => i = registrationId
  | _ => false

def EventReaches (subscriptionId : UInt64) (handler : StdFunction E) (s : Session P E)
    (a : Action P E) : Prop :=
  ∀ args kwargs details, a = .inbound (.event subscriptionId args kwargs details) →
    ∃ t, act s a = some t ∧ t.tasks = s.tasks ++
      [.event handler (.make (fromCList args) (fromCDict kwargs) (fromCDict details))]

def InvocationReaches (registrationId : UInt64) (handler : StdFunction P) (s : Session P E)
    (a : Action P E) : Prop :=
  ∀ requestId args kwargs details,
    a = .inbound (.invocation requestId registrationId args kwargs details) →
      ∃ t, act s a = some t ∧ t.tasks = s.tasks ++
        [.procedure handler ⟨fromCList args, fromCDict kwargs, fromCDict details⟩ requestId]

theorem lookup_subscriptions_of_act {subscriptionId : UInt64} {handler : StdFunction E}
    (h : act s a = some t) (hi : s.subscriptions.lookup subscriptionId = some handler) :
    t.subscriptions.lookup subscriptionId =
      some (if a.isEvent subscriptionId then ⟨none⟩ else handler) := by
  cases a with
  | inbound m =>
    rw [(act_handling h).2.1]
    cases m with
    | subscribed requestId i =>
      simp only [subscriptionsAfter, Action.isEvent, Bool.false_eq_true, if_false]
      cases (s.requests .subscribe).lookup requestId with
      | none => exact hi
      | some r => exact Table.lookup_emplace_of_some hi
    | event i args kwargs details =>
      simp only [subscriptionsAfter, Action.isEvent, decide_eq_true_eq]
      by_cases hj : i = subscriptionId
      · rw [if_pos hj, hj, lookup_findFromMap_keep_self hi]
        rfl
      · rw [if_neg hj, lookup_findFromMap_keep_of_ne (Ne.symm hj), hi]
    | _ => simpa [subscriptionsAfter, Action.isEvent] using hi
  | _ =>
    rw [(act_other_tables (by simp) h).2]
    simpa [Action.isEvent] using hi

theorem lookup_registrations_of_act {registrationId : UInt64} {handler : StdFunction P}
    (h : act s a = some t) (hi : s.registrations.lookup registrationId = some handler)
    (hlive : ¬ AnswersUnregister registrationId s a) :
    t.registrations.lookup registrationId =
      some (if a.isInvocation registrationId then ⟨none⟩ else handler) := by
  cases a with
  | inbound m =>
    rw [(act_handling h).1]
    cases m with
    | registered requestId i =>
      simp only [registrationsAfter, Action.isInvocation, Bool.false_eq_true, if_false]
      cases (s.requests .register).lookup requestId with
      | none => exact hi
      | some r => exact Table.lookup_emplace_of_some hi
    | unregistered requestId =>
      simp only [registrationsAfter, Action.isInvocation, Bool.false_eq_true, if_false]
      cases hr : (s.requests .unregister).lookup requestId with
      | none => exact hi
      | some r =>
        have hne : registrationId ≠ r.payload := fun he => hlive ⟨requestId, r, rfl, hr, he.symm⟩
        simpa only [Finmap.lookup_erase_ne hne] using hi
    | invocation requestId i args kwargs details =>
      simp only [registrationsAfter, Action.isInvocation, decide_eq_true_eq]
      by_cases hj : i = registrationId
      · rw [if_pos hj, hj, lookup_findFromMap_keep_self hi]
        rfl
      · rw [if_neg hj, lookup_findFromMap_keep_of_ne (Ne.symm hj), hi]
    | _ => simpa [registrationsAfter, Action.isInvocation] using hi
  | _ =>
    rw [(act_other_tables (by simp) h).1]
    simpa [Action.isInvocation] using hi

theorem eventReaches_iff {subscriptionId : UInt64} {f handler : StdFunction E}
    (hi : s.subscriptions.lookup subscriptionId = some f) (ha : a.isEvent subscriptionId) :
    EventReaches subscriptionId handler s a ↔ f = handler := by
  obtain ⟨args, kwargs, details, rfl⟩ : ∃ args kwargs details,
      a = .inbound (.event subscriptionId args kwargs details) := by
    cases a with
    | inbound m => cases m <;> simp_all [Action.isEvent]
    | _ => simp [Action.isEvent] at ha
  obtain ⟨t, ht, htasks⟩ := act_of_no_answer (m := .event subscriptionId args kwargs details) rfl s
  simp only [dispatched, hi, Option.map_some, Option.toList_some] at htasks
  constructor
  · intro h
    obtain ⟨t', ht', htasks'⟩ := h args kwargs details rfl
    obtain rfl := Option.some.inj (ht.symm.trans ht')
    simpa using htasks.symm.trans htasks'
  · rintro rfl args' kwargs' details' he
    cases he
    exact ⟨t, ht, htasks⟩

theorem invocationReaches_iff {registrationId : UInt64} {f handler : StdFunction P}
    (hi : s.registrations.lookup registrationId = some f) (ha : a.isInvocation registrationId) :
    InvocationReaches registrationId handler s a ↔ f = handler := by
  obtain ⟨requestId, args, kwargs, details, rfl⟩ : ∃ requestId args kwargs details,
      a = .inbound (.invocation requestId registrationId args kwargs details) := by
    cases a with
    | inbound m => cases m <;> simp_all [Action.isInvocation]
    | _ => simp [Action.isInvocation] at ha
  obtain ⟨t, ht, htasks⟩ :=
    act_of_no_answer (m := .invocation requestId registrationId args kwargs details) rfl s
  simp only [dispatched, hi, Option.map_some, Option.toList_some] at htasks
  constructor
  · intro h
    obtain ⟨t', ht', htasks'⟩ := h requestId args kwargs details rfl
    obtain rfl := Option.some.inj (ht.symm.trans ht')
    simpa using htasks.symm.trans htasks'
  · rintro rfl requestId' args' kwargs' details' he
    cases he
    exact ⟨t, ht, htasks⟩

theorem eventReaches_of_not_isEvent {subscriptionId : UInt64} {handler : StdFunction E}
    (ha : ¬ a.isEvent subscriptionId) : EventReaches subscriptionId handler s a := by
  rintro args kwargs details rfl
  simp [Action.isEvent] at ha

theorem invocationReaches_of_not_isInvocation {registrationId : UInt64} {handler : StdFunction P}
    (ha : ¬ a.isInvocation registrationId) : InvocationReaches registrationId handler s a := by
  rintro requestId args kwargs details rfl
  simp [Action.isInvocation] at ha

theorem StdFunction.eq_empty_iff {T : Type} {f : StdFunction T} : f = ⟨none⟩ ↔ f.target = none := by
  cases f
  simp

theorem along_eventReaches_iff {subscriptionId : UInt64} {handler : StdFunction E}
    (hs : s.subscriptions.lookup subscriptionId = some handler) (hrun : exec act s actions = some u) :
    Along act (EventReaches subscriptionId handler) s actions ↔
      handler.target = none ∨ actions.countP (·.isEvent subscriptionId) ≤ 1 := by
  by_cases he : handler = ⟨none⟩
  · subst he
    refine iff_of_true (fun pre a post t hp ht => ?_) (.inl rfl)
    have hi : t.subscriptions.lookup subscriptionId = some ⟨none⟩ := by
      refine exec_invariant (I := fun v => v.subscriptions.lookup subscriptionId = some ⟨none⟩)
        (fun v b w hv hw => ?_) hs ht
      simpa using lookup_subscriptions_of_act hw hv
    by_cases ha : a.isEvent subscriptionId
    · exact (eventReaches_iff hi ha).mpr rfl
    · exact eventReaches_of_not_isEvent ha
  · rw [← StdFunction.eq_empty_iff, or_iff_right he]
    refine along_iff_countP_le_one (C := fun _ _ => True)
      (A := fun v => v.subscriptions.lookup subscriptionId = some handler)
      (B := fun v => v.subscriptions.lookup subscriptionId = some ⟨none⟩)
      ?_ ?_ ?_ ?_ ?_ hs (fun _ _ _ _ _ _ => trivial) hrun
    · intro v a w hv _ hw
      have := lookup_subscriptions_of_act hw hv
      split <;> simp_all
    · intro v a w hv _ hw
      simpa using lookup_subscriptions_of_act hw hv
    · exact fun v a hv ha => (eventReaches_iff hv ha).mpr rfl
    · exact fun v a hv ha h => he ((eventReaches_iff hv ha).mp h).symm
    · exact fun v a ha => eventReaches_of_not_isEvent ha

theorem along_invocationReaches_iff {registrationId : UInt64} {handler : StdFunction P}
    (hs : s.registrations.lookup registrationId = some handler)
    (hlive : Along act (fun v a => ¬ AnswersUnregister registrationId v a) s actions)
    (hrun : exec act s actions = some u) :
    Along act (InvocationReaches registrationId handler) s actions ↔
      handler.target = none ∨ actions.countP (·.isInvocation registrationId) ≤ 1 := by
  by_cases he : handler = ⟨none⟩
  · subst he
    refine iff_of_true (fun pre a post t hp ht => ?_) (.inl rfl)
    have hi : t.registrations.lookup registrationId = some ⟨none⟩ := by
      subst hp
      refine exec_preserves (I := fun v => v.registrations.lookup registrationId = some ⟨none⟩)
        (fun v b w hv hb hw => ?_) hs hlive.initial ht
      simpa using lookup_registrations_of_act hw hv hb
    by_cases ha : a.isInvocation registrationId
    · exact (invocationReaches_iff hi ha).mpr rfl
    · exact invocationReaches_of_not_isInvocation ha
  · rw [← StdFunction.eq_empty_iff, or_iff_right he]
    refine along_iff_countP_le_one
      (A := fun v => v.registrations.lookup registrationId = some handler)
      (B := fun v => v.registrations.lookup registrationId = some ⟨none⟩)
      ?_ ?_ ?_ ?_ ?_ hs hlive hrun
    · intro v a w hv ha hw
      have := lookup_registrations_of_act hw hv ha
      split <;> simp_all
    · intro v a w hv ha hw
      simpa using lookup_registrations_of_act hw hv ha
    · exact fun v a hv ha => (invocationReaches_iff hv ha).mpr rfl
    · exact fun v a hv ha h => he ((invocationReaches_iff hv ha).mp h).symm
    · exact fun v a ha => invocationReaches_of_not_isInvocation ha

theorem findFromMap_keep_eq_iff {T : Type} (map : Table UInt64 (StdFunction T)) (id : UInt64) :
    (findFromMap id.toInt64 map false).2 = map ↔
      ∀ handler, map.lookup id = some handler → handler.target = none := by
  constructor
  · intro h handler hh
    have hmoved := lookup_findFromMap_keep_self hh
    rw [h, hh] at hmoved
    exact StdFunction.eq_empty_iff.mp (Option.some.inj hmoved)
  · intro h
    refine Finmap.ext_lookup fun j => ?_
    by_cases hj : j = id
    · subst hj
      cases hl : map.lookup j with
      | none => rw [findFromMap_of_none hl, hl]
      | some handler =>
        rw [lookup_findFromMap_keep_self hl, StdFunction.eq_empty_iff.mpr (h handler hl)]
        rfl
    · exact lookup_findFromMap_keep_of_ne hj

/-- Every EVENT (INVOCATION) that follows the acceptance of a subscription (registration) reaches the
handler that was stored then just if there is at most one of them or the handler is empty; and only an
empty handler outlasts a lookup. -/
theorem dispatch_stable_iff (s t u : Session P E) (requestId id : UInt64) (actions : List (Action P E)) :
    (∀ r : Request P E .subscribe, id ∉ s.subscriptions →
      (s.requests .subscribe).lookup requestId = some r →
      act s (.inbound (.subscribed requestId id)) = some t → exec act t actions = some u →
      (Along act (EventReaches id r.payload) t actions ↔
        r.payload.target = none ∨ actions.countP (·.isEvent id) ≤ 1)) ∧
    (∀ r : Request P E .register, id ∉ s.registrations →
      (s.requests .register).lookup requestId = some r →
      act s (.inbound (.registered requestId id)) = some t → exec act t actions = some u →
      Along act (fun v a => ¬ AnswersUnregister id v a) t actions →
      (Along act (InvocationReaches id r.payload) t actions ↔
        r.payload.target = none ∨ actions.countP (·.isInvocation id) ≤ 1)) ∧
    ((findFromMap id.toInt64 s.subscriptions false).2 = s.subscriptions ↔
      ∀ handler, s.subscriptions.lookup id = some handler → handler.target = none) ∧
    ((findFromMap id.toInt64 s.registrations false).2 = s.registrations ↔
      ∀ handler, s.registrations.lookup id = some handler → handler.target = none) := by
  refine ⟨?_, ?_, findFromMap_keep_eq_iff _ _, findFromMap_keep_eq_iff _ _⟩
  · intro r hnew hr ht hrun
    refine along_eventReaches_iff ?_ hrun
    rw [(act_handling ht).2.1, subscriptionsAfter, hr]
    exact Table.lookup_emplace_self_of_none (Finmap.lookup_eq_none.mpr hnew)
  · intro r hnew hr ht hrun hlive
    refine along_invocationReaches_iff ?_ hlive hrun
    rw [(act_handling ht).1, registrationsAfter, hr]
    exact Table.lookup_emplace_self_of_none (Finmap.lookup_eq_none.mpr hnew)

theorem dispatch_stable_iff_single :
    let start : Session Unit Unit := Session.start .quiet
    let s := (interp (.emplaceRequest .subscribe 7 ⟨some ()⟩) start).2
    ∃ t, act s (.inbound (.subscribed 7 9)) = some t ∧
      Along act (EventReaches 9 ⟨some ()⟩) t [.inbound (.event 9 [] [] [])] := by
  intro start s
  refine ⟨_, rfl, ?_⟩
  exact ((dispatch_stable_iff s _ _ 7 9 _).1 ⟨0, ⟨some ()⟩⟩ Finmap.notMem_empty rfl rfl rfl).mpr
    (.inr (by decide))

theorem second_does_not_reach :
    (∃ t : Session Unit Unit,
      exec act (Session.start .quiet)
        [.other ⟨.emplaceRequest .subscribe 7 ⟨some ()⟩, .inl trivial⟩, .inbound (.subscribed 7 9)] = some t ∧
      ¬ Along act (EventReaches 9 ⟨some ()⟩) t
        [.inbound (.event 9 [] [] []), .inbound (.event 9 [] [] [])]) ∧
    ∃ t : Session Unit Unit,
      exec act (Session.start .quiet)
        [.other ⟨.emplaceRequest .register 7 ⟨some ()⟩, .inl trivial⟩, .inbound (.registered 7 9)] = some t ∧
      ¬ Along act (InvocationReaches 9 ⟨some ()⟩) t
        [.inbound (.invocation 1 9 [] [] []), .inbound (.invocation 2 9 [] [] [])] := by
  refine ⟨⟨_, rfl, fun h => ?_⟩, _, rfl, fun h => ?_⟩
  · have hi := (eventReaches_iff (f := ⟨none⟩) rfl rfl).mp (h [_] _ [] _ rfl rfl)
    simp at hi
  · have hi := (invocationReaches_iff (f := ⟨none⟩) rfl rfl).mp (h [_] _ [] _ rfl rfl)
    simp at hi

end Dispatch

section Unsubscribing

variable {s t : Session P E} {a : Action P E} {actions : List (Action P E)} {subscriptionId : UInt64}

def AnswersSubscribe (subscriptionId : UInt64) (s : Session P E) (a : Action P E) : Prop :=
  ∃ requestId, a = .inbound (.subscribed requestId subscriptionId) ∧ requestId ∈ s.requests .subscribe

def AnswersUnsubscribe (subscriptionId : UInt64) (s : Session P E) (a : Action P E) : Prop :=
  ∃ requestId r, a = .inbound (.unsubscribed requestId) ∧
    (s.requests .unsubscribe).lookup requestId = some r ∧ r.payload = subscriptionId

def DeliveryEnded (subscriptionId : UInt64) (s : Session P E) : Prop :=
  subscriptionId ∉ s.subscriptions ∧ ∀ args kwargs details,
    ∃ t, act s (.inbound (.event subscriptionId args kwargs details)) = some t ∧ t.tasks = s.tasks

theorem subscriptions_of_unsubscribed (h : act s a = some t)
    (ha : AnswersUnsubscribe subscriptionId s a) : t.subscriptions = s.subscriptions := by
  obtain ⟨requestId, r, rfl, -⟩ := ha
  exact (act_handling h).2.1

theorem mem_subscriptions_iff (h : act s a = some t) (subscriptionId : UInt64) :
    subscriptionId ∈ t.subscriptions ↔
      AnswersSubscribe subscriptionId s a ∨ subscriptionId ∈ s.subscriptions := by
  cases a with
  | inbound m =>
    rw [(act_handling h).2.1]
    cases m with
    | subscribed requestId i =>
      simp only [subscriptionsAfter, AnswersSubscribe]
      cases hr : (s.requests .subscribe).lookup requestId with
      | none =>
        have := Finmap.lookup_eq_none.mp hr
        simp_all
      | some q =>
        have := Finmap.mem_of_lookup_eq_some hr
        simp [Table.mem_emplace_iff, this, eq_comm]
    | event i args kwargs details => simp [subscriptionsAfter, mem_findFromMap_keep, AnswersSubscribe]
    | _ => simp [subscriptionsAfter, AnswersSubscribe]
  | _ =>
    rw [(act_other_tables (by simp) h).2]
    simp [AnswersSubscribe]

theorem deliveryEnded_iff : DeliveryEnded subscriptionId s ↔ subscriptionId ∉ s.subscriptions := by
  refine ⟨And.left, fun h => ⟨h, fun args kwargs details => ?_⟩⟩
  obtain ⟨t, ht, htasks⟩ := act_of_no_answer (m := .event subscriptionId args kwargs details) rfl s
  refine ⟨t, ht, ?_⟩
  simpa [dispatched, Finmap.lookup_eq_none.mpr h] using htasks

/-- Along every run without a new acceptance, what an UNSUBSCRIBED ends had ended before it. -/
theorem unsubscribed_ends_delivery_iff (ha : AnswersUnsubscribe subscriptionId s a)
    (ht : act s a = some t)
    (hrest : Along act (fun v b => ¬ AnswersSubscribe subscriptionId v b) t actions) :
    (Throughout act (DeliveryEnded subscriptionId) t actions ∧
      ∀ j, j ≠ subscriptionId → t.subscriptions.lookup j = s.subscriptions.lookup j) ↔
        subscriptionId ∉ s.subscriptions := by
  have hkeep := subscriptions_of_unsubscribed ht ha
  constructor
  · rintro ⟨hended, -⟩
    rw [← hkeep]
    exact (hended [] actions t rfl rfl).1
  · intro hs
    refine ⟨?_, fun j _ => by rw [hkeep]⟩
    refine throughout_of_preserves (fun v b w hv hb hw => ?_)
      (deliveryEnded_iff.mpr (hkeep ▸ hs)) hrest
    rw [deliveryEnded_iff] at hv ⊢
    rw [mem_subscriptions_iff hw]
    exact fun h => h.elim hb hv

theorem unsubscribed_ends_delivery_iff_unknown :
    let start : Session Unit Unit := Session.start .quiet
    let s := (interp (.emplaceRequest .unsubscribe 7 9) start).2
    ∃ t, act s (.inbound (.unsubscribed 7)) = some t ∧
      Throughout act (DeliveryEnded 9) t [.inbound (.event 9 [] [] [])] := by
  intro start s
  have ha : AnswersUnsubscribe 9 s (.inbound (.unsubscribed 7)) := ⟨7, ⟨0, 9⟩, rfl, rfl, rfl⟩
  refine ⟨_, rfl, ((unsubscribed_ends_delivery_iff ha rfl ?_).mpr Finmap.notMem_empty).1⟩
  rw [along_cons_iff]
  exact ⟨by simp [AnswersSubscribe], fun v hv pre b post w hp => by simp at hp⟩

theorem delivery_outlasts_unsubscribed :
    ∃ s t : Session Unit Unit,
      exec act (Session.start .quiet)
        [.other ⟨.emplaceRequest .subscribe 7 ⟨some ()⟩, .inl trivial⟩, .inbound (.subscribed 7 9),
          .other ⟨.emplaceRequest .unsubscribe 8 9, .inl trivial⟩] = some s ∧
      AnswersUnsubscribe 9 s (.inbound (.unsubscribed 8)) ∧
      act s (.inbound (.unsubscribed 8)) = some t ∧ ¬ Throughout act (DeliveryEnded 9) t [] := by
  refine ⟨_, _, rfl, ⟨8, ⟨1, 9⟩, rfl, rfl, rfl⟩, rfl, fun h => ?_⟩
  exact (h [] [] _ rfl rfl).1 (by decide)

end Unsubscribing

section Installing

variable {s : Session P E} {requestId id : UInt64}

structure Installs {T : Type} (id : UInt64) (handler : StdFunction T)
    (before after : Table UInt64 (StdFunction T)) : Prop where
  installed : after.lookup id = some handler
  others : ∀ j, j ≠ id → after.lookup j = before.lookup j

theorem installs_emplace_iff {T : Type} {handler : StdFunction T} {table : Table UInt64 (StdFunction T)} :
    Installs id handler table (table.emplace id handler) ↔
      id ∉ table ∨ table.lookup id = some handler := by
  rw [← Table.lookup_emplace_self_iff]
  exact ⟨fun h => h.installed, fun h => ⟨h, fun j hj => Table.lookup_emplace_of_ne hj⟩⟩

theorem act_of_pending {m : Message} {k : RequestKind} (hm : m.answers = some (k, requestId))
    (hr : requestId ∈ s.requests k) : act s (.inbound m) = some (process m s).2 :=
  act_inbound_iff.mpr ⟨process_ne_undefined_of_mem hm hr, rfl⟩

theorem promises_of_subscribed {r : Request P E .subscribe}
    (hr : (s.requests .subscribe).lookup requestId = some r) :
    (process (.subscribed requestId id) s).2.promises r.promise =
      (s.promises r.promise).or (some (.subscription id)) := by
  cases hunset : s.promises r.promise <;>
    simp [process, processIncomingMessage, subscribedBranch, complete, interp, hr, hunset]

theorem promises_of_registered {r : Request P E .register}
    (hr : (s.requests .register).lookup requestId = some r) :
    (process (.registered requestId id) s).2.promises r.promise =
      (s.promises r.promise).or (some (.registration id)) := by
  cases hunset : s.promises r.promise <;>
    simp [process, processIncomingMessage, registeredBranch, complete, interp, hr, hunset]

def InstallsHandler (s : Session P E) (a : Action P E) : Prop :=
  (∀ requestId id r, a = .inbound (.subscribed requestId id) →
    (s.requests .subscribe).lookup requestId = some r → ∃ t, act s a = some t ∧
      t.promises r.promise = (s.promises r.promise).or (some (.subscription id)) ∧
      Installs id r.payload s.subscriptions t.subscriptions) ∧
  ∀ requestId id r, a = .inbound (.registered requestId id) →
    (s.requests .register).lookup requestId = some r → ∃ t, act s a = some t ∧
      t.promises r.promise = (s.promises r.promise).or (some (.registration id)) ∧
      Installs id r.payload s.registrations t.registrations

def GrantsFreshId (s : Session P E) (a : Action P E) : Prop :=
  (∀ requestId id r, a = .inbound (.subscribed requestId id) →
    (s.requests .subscribe).lookup requestId = some r →
      id ∉ s.subscriptions ∨ s.subscriptions.lookup id = some r.payload) ∧
  ∀ requestId id r, a = .inbound (.registered requestId id) →
    (s.requests .register).lookup requestId = some r →
      id ∉ s.registrations ∨ s.registrations.lookup id = some r.payload

theorem installs_iff_of_act {T : Type} {tables : Session P E → Table UInt64 (StdFunction T)}
    {handler : StdFunction T} {a : Action P E} {t : Session P E} {p : PromiseId} {v : Reply}
    (hact : act s a = some t) (hpromise : t.promises p = (s.promises p).or (some v))
    (htable : tables t = (tables s).emplace id handler) :
    (∃ t, act s a = some t ∧ t.promises p = (s.promises p).or (some v) ∧
      Installs id handler (tables s) (tables t)) ↔ id ∉ tables s ∨ (tables s).lookup id = some handler := by
  rw [← installs_emplace_iff, ← htable]
  constructor
  · rintro ⟨t', ht', -, hinstalls⟩
    cases hact.symm.trans ht'
    exact hinstalls
  · intro hinstalls
    exact ⟨t, hact, hpromise, hinstalls⟩

theorem subscribed_installs_iff {r : Request P E .subscribe}
    (hr : (s.requests .subscribe).lookup requestId = some r) :
    (∃ t, act s (.inbound (.subscribed requestId id)) = some t ∧
      t.promises r.promise = (s.promises r.promise).or (some (.subscription id)) ∧
      Installs id r.payload s.subscriptions t.subscriptions) ↔
      id ∉ s.subscriptions ∨ s.subscriptions.lookup id = some r.payload := by
  have hact : act s (.inbound (.subscribed requestId id)) = some _ :=
    act_of_pending rfl (Finmap.mem_of_lookup_eq_some hr)
  have htable := (act_handling hact).2.1
  rw [subscriptionsAfter, hr] at htable
  exact installs_iff_of_act hact (promises_of_subscribed hr) htable

theorem registered_installs_iff {r : Request P E .register}
    (hr : (s.requests .register).lookup requestId = some r) :
    (∃ t, act s (.inbound (.registered requestId id)) = some t ∧
      t.promises r.promise = (s.promises r.promise).or (some (.registration id)) ∧
      Installs id r.payload s.registrations t.registrations) ↔
      id ∉ s.registrations ∨ s.registrations.lookup id = some r.payload := by
  have hact : act s (.inbound (.registered requestId id)) = some _ :=
    act_of_pending rfl (Finmap.mem_of_lookup_eq_some hr)
  have htable := (act_handling hact).1
  rw [registrationsAfter, hr] at htable
  exact installs_iff_of_act hact (promises_of_registered hr) htable

theorem installsHandler_iff (s : Session P E) (a : Action P E) :
    InstallsHandler s a ↔ GrantsFreshId s a := by
  constructor
  · rintro ⟨hsubscribed, hregistered⟩
    refine ⟨?_, ?_⟩
    · rintro requestId id r rfl hr
      exact (subscribed_installs_iff hr).mp (hsubscribed requestId id r rfl hr)
    · rintro requestId id r rfl hr
      exact (registered_installs_iff hr).mp (hregistered requestId id r rfl hr)
  · rintro ⟨hsubscribed, hregistered⟩
    refine ⟨?_, ?_⟩
    · rintro requestId id r rfl hr
      exact (subscribed_installs_iff hr).mpr (hsubscribed requestId id r rfl hr)
    · rintro requestId id r rfl hr
      exact (registered_installs_iff hr).mpr (hregistered requestId id r rfl hr)

/-- In a run the handlers of the requests that succeed are installed if and only if no id is granted that
is still in the table for another handler. -/
theorem handlers_installed_iff (surroundings : Surroundings P E) (actions : List (Action P E)) :
    Along act InstallsHandler (Session.start surroundings) actions ↔
      Along act GrantsFreshId (Session.start surroundings) actions := by
  simp only [Along, installsHandler_iff]

theorem second_handler_dropped : ¬ Along act InstallsHandler (Session.start .quiet : Session Bool Bool)
    [.other ⟨.emplaceRequest .subscribe 7 ⟨some false⟩, .inl trivial⟩, .inbound (.subscribed 7 9),
      .other ⟨.emplaceRequest .subscribe 8 ⟨some true⟩, .inl trivial⟩, .inbound (.subscribed 8 9)] := by
  intro h
  obtain ⟨t, ht, -, hinstalls⟩ := (h [_, _, _] _ [] _ rfl rfl).1 8 9 ⟨1, ⟨some true⟩⟩ rfl rfl
  have hinstalled := hinstalls.installed
  cases ht
  revert hinstalled
  decide +kernel

end Installing

end XconnCpp.Sessions

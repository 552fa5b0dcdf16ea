import XconnCpp.FailedRequests
import XconnCpp.PromiseOwners

namespace XconnCpp.Sessions

open Library Library.Program Library.Program.Prog Library.Transition Values

variable {P E : Type}

section Receiver

/-- What the receive thread is about: the message it has received last, the pending request that the
message answers, or the task that it makes of the message. -/
inductive Errand (P E : Type)
  | none
  | message (m : Message)
  | granting (m : Message) (k : RequestKind) (payload : Payload P E k)
  | dispatching (t : Task P E)

def Errand.Settled : Errand P E → Prop
  | .message (.invocation _ _ _ _ _) | .message (.event _ _ _ _) | .dispatching _ => False
  | _ => True

def errandProtocol : Protocol (Errand P E) (Op P E) Res where
  allows q o :=
    match o with
    | .receive => q.Settled
    | .findRequest k i => ∃ m, q = .message m ∧ m.answers = some (k, i.toUInt64)
    | .emplaceRegistration registrationId handler =>
      ∃ requestId, q = .granting (.registered requestId registrationId) .register handler
    | .emplaceSubscription subscriptionId handler =>
      ∃ requestId, q = .granting (.subscribed requestId subscriptionId) .subscribe handler
    | .findRegistration i false => ∃ requestId registrationId args kwargs details,
      q = .message (.invocation requestId registrationId args kwargs details) ∧ i.toUInt64 = registrationId
    | .findSubscription i false => ∃ subscriptionId args kwargs details,
      q = .message (.event subscriptionId args kwargs details) ∧ i.toUInt64 = subscriptionId
    | .enqueue t => q = .dispatching t
    | .nextId | .emplaceRequest _ _ _ => False
    | _ => True
  next q o r :=
    match o, r, q with
    | .receive, .message m, _ => .message m
    | .receive, _, _ => .none
    | .findRequest k _, some (r : Request P E k), .message m => .granting m k r.payload
    | .findRegistration _ false, some handler, .message (.invocation requestId _ args kwargs details) =>
      .dispatching (.procedure handler ⟨fromCList args, fromCDict kwargs, fromCDict details⟩
        requestId)
    | .findSubscription _ false, some handler, .message (.event _ args kwargs details) =>
      .dispatching (.event handler (.make (fromCList args) (fromCDict kwargs) (fromCDict details)))
    | .findRegistration _ false, none, _ | .findSubscription _ false, none, _ => .none
    | .enqueue _, _, _ => .none
    | _, _, q => q

abbrev Runs {α : Type} (p : Code P E α) (q : Errand P E) : Prop :=
  p.Follows errandProtocol Errand.Settled Errand.Settled q

def Op.Idle : Op P E → Prop
  | .loadRunning | .setPromise _ _ => True
  | o => o.OfGoodbye

theorem runs_of_idle {α : Type} {p : Code P E α} {q : Errand P E} (hp : p.Uses Op.Idle) (hq : q.Settled) :
    Runs p q := by
  apply hp.follows (I := Errand.Settled) _ (fun _ h => h) (fun _ h => h) hq
  intro o ho q hq
  cases o <;> first | exact ho.elim | exact ⟨trivial, fun _ => hq⟩

theorem uses_complete_idle (p : PromiseId) (r : Reply) : (complete p r : Code P E Unit).Uses Op.Idle := by
  refine ⟨trivial, fun satisfied => ?_⟩
  cases satisfied <;> trivial

theorem runs_replyBranch {requestId : UInt64} {k : RequestKind} {m : Message}
    (hm : m.answers = some (k, requestId)) (reply : Reply) :
    Runs (replyBranch requestId k reply : Code P E Unit) (.message m) := by
  refine ⟨⟨m, rfl, by simpa using hm⟩, fun found => ?_⟩
  cases found with
  | none => cases m <;> trivial
  | some r => exact runs_of_idle (uses_complete_idle _ _) trivial

theorem runs_processIncomingMessage (m : Message) :
    Runs (processIncomingMessage m : Code P E Unit) (.message m) := by
  cases m with
  | goodbye =>
    refine runs_of_idle (uses_goodbyeBranch.mono fun o ho => ?_) trivial
    cases o <;> first | exact ho.elim | trivial
  | abort | other => trivial
  | result | published | unsubscribed => exact runs_replyBranch rfl _
  | registered requestId registrationId =>
    refine ⟨⟨_, rfl, by simp [Message.answers]⟩, fun found => ?_⟩
    cases found with
    | none => trivial
    | some r => exact ⟨⟨requestId, rfl⟩, fun _ => runs_of_idle (uses_complete_idle _ _) trivial⟩
  | unregistered requestId =>
    refine ⟨⟨_, rfl, by simp [Message.answers]⟩, fun found => ?_⟩
    cases found with
    | none => trivial
    | some r => exact ⟨trivial, fun _ => runs_of_idle (uses_complete_idle _ _) trivial⟩
  | subscribed requestId subscriptionId =>
    refine ⟨⟨_, rfl, by simp [Message.answers]⟩, fun found => ?_⟩
    cases found with
    | none => trivial
    | some r => exact ⟨⟨requestId, rfl⟩, fun _ => runs_of_idle (uses_complete_idle _ _) trivial⟩
  | invocation requestId registrationId args kwargs details =>
    refine ⟨⟨_, _, _, _, _, rfl, by simp⟩, fun found => ?_⟩
    cases found with
    | none => trivial
    | some handler => exact ⟨rfl, fun _ => trivial⟩
  | event subscriptionId args kwargs details =>
    refine ⟨⟨_, _, _, _, rfl, by simp⟩, fun found => ?_⟩
    cases found with
    | none => trivial
    | some handler => exact ⟨rfl, fun _ => trivial⟩
  | error messageType requestId uri args kwargs =>
    refine Follows.bind Errand.Settled ?_ fun _ _ hq => hq
    cases messageType with
    | request k =>
      refine ⟨⟨_, rfl, by simp [Message.answers]⟩, fun found => ?_⟩
      cases found with
      | none => trivial
      | some r => exact runs_of_idle (uses_complete_idle _ _) trivial
    | _ => trivial

theorem runs_waitRound {q : Errand P E} (hq : q.Settled) : Runs (waitRound : Code P E Bool) q := by
  refine ⟨trivial, fun running => ?_⟩
  cases running with
  | false => exact hq
  | true =>
    refine Follows.bind Errand.Settled ?_ fun _ _ hq => hq
    refine Follows.tryCatch ⟨hq, fun received => ?_⟩ fun _ _ hq => hq
    cases received with
    | message m => exact runs_processIncomingMessage m
    | null => trivial
    | failed => trivial

end Receiver

section Causes

variable {surroundings : Surroundings P E} {choices : List (Choice P E)} {k : RequestKind} {requestId : UInt64}
  {payload : Payload P E k} {a b n : ℕ} {s : Session P E} {q : Errand P E}

def Operation.entry : Operation P E → (k : RequestKind) × Payload P E k
  | .call _ _ _ _ => ⟨.call, ()⟩
  | .register _ handler _ => ⟨.register, handler⟩
  | .unregister registrationId => ⟨.unregister, registrationId⟩
  | .publish _ _ _ _ => ⟨.publish, ()⟩
  | .subscribe _ handler _ => ⟨.subscribe, handler⟩
  | .unsubscribe subscriptionId => ⟨.unsubscribe, subscriptionId⟩

def Entered (surroundings : Surroundings P E) (choices : List (Choice P E)) (k : RequestKind) (requestId : UInt64)
    (payload : Payload P E k) : Prop :=
  ∃ i operation, EntersAt surroundings choices i operation (k, requestId) ∧ operation.entry = ⟨k, payload⟩

def Granted (surroundings : Surroundings P E) (choices : List (Choice P E)) (k : RequestKind) (a : ℕ)
    (requestId : UInt64) (payload : Payload P E k) : Prop :=
  ∃ before after u, choices = before ++ .receiver :: after ∧
    exec World.step (World.start surroundings) before = some u ∧ LooksUp k requestId u .receiver ∧
    u.session.inbox = surroundings.inbox.drop (a + 1) ∧ Entered surroundings before k requestId payload

def Installed (surroundings : Surroundings P E) (choices : List (Choice P E)) (grant : UInt64 → UInt64 → Message)
    (k : RequestKind) (n : ℕ) (id : UInt64) (payload : Payload P E k) : Prop :=
  ∃ a requestId, a < n ∧ surroundings.inbox[a]? = some (.message (grant requestId id)) ∧
    Granted surroundings choices k a requestId payload

def MadeOf (surroundings : Surroundings P E) (b : ℕ) : Task P E → Prop
  | .procedure _ invocation requestId => ∃ registrationId args kwargs details,
    surroundings.inbox[b]? = some (.message (.invocation requestId registrationId args kwargs details)) ∧
      invocation = ⟨fromCList args, fromCDict kwargs, fromCDict details⟩
  | .event _ e => ∃ id args kwargs details,
    surroundings.inbox[b]? = some (.message (.event id args kwargs details)) ∧
      e = .make (fromCList args) (fromCDict kwargs) (fromCDict details)

def Dispatched (surroundings : Surroundings P E) (choices : List (Choice P E)) (b : ℕ) : Task P E → Prop
  | .procedure handler invocation requestId => ∃ registrationId args kwargs details,
    surroundings.inbox[b]? = some (.message (.invocation requestId registrationId args kwargs details)) ∧
      invocation = ⟨fromCList args, fromCDict kwargs, fromCDict details⟩ ∧
      (handler.target.isSome → Installed surroundings choices .registered .register b registrationId handler)
  | .event handler e => ∃ subscriptionId args kwargs details,
    surroundings.inbox[b]? = some (.message (.event subscriptionId args kwargs details)) ∧
      e = .make (fromCList args) (fromCDict kwargs) (fromCDict details) ∧
      (handler.target.isSome → Installed surroundings choices .subscribed .subscribe b subscriptionId handler)

def Errand.Sound (surroundings : Surroundings P E) (choices : List (Choice P E)) (n : ℕ) : Errand P E → Prop
  | .none => True
  | .message m => ∃ a, n = a + 1 ∧ surroundings.inbox[a]? = some (.message m)
  | .granting m k payload => ∃ a requestId, n = a + 1 ∧ surroundings.inbox[a]? = some (.message m) ∧
    m.answers = some (k, requestId) ∧ Granted surroundings choices k a requestId payload
  | .dispatching t => ∃ b, n = b + 1 ∧ Dispatched surroundings choices b t

structure Provenance (surroundings : Surroundings P E) (choices : List (Choice P E)) (s : Session P E)
    (q : Errand P E) (n : ℕ) : Prop where
  inbox : s.inbox = surroundings.inbox.drop n
  requests : ∀ k requestId r, (s.requests k).lookup requestId = some r →
    Entered surroundings choices k requestId r.payload
  registrations : ∀ id handler, s.registrations.lookup id = some handler → handler.target.isSome →
    Installed surroundings choices .registered .register n id handler
  subscriptions : ∀ id handler, s.subscriptions.lookup id = some handler → handler.target.isSome →
    Installed surroundings choices .subscribed .subscribe n id handler
  errand : q.Sound surroundings choices n

theorem Entered.snoc (h : Entered surroundings choices k requestId payload) (l : Choice P E) :
    Entered surroundings (choices ++ [l]) k requestId payload := by
  obtain ⟨i, operation, henters, hentry⟩ := h
  exact ⟨i, operation, henters.snoc l, hentry⟩

theorem Granted.snoc (h : Granted surroundings choices k a requestId payload) (l : Choice P E) :
    Granted surroundings (choices ++ [l]) k a requestId payload := by
  obtain ⟨before, after, u, rfl, hgranted⟩ := h
  exact ⟨before, after ++ [l], u, by simp, hgranted⟩

theorem Installed.snoc {grant : UInt64 → UInt64 → Message} {id : UInt64}
    (h : Installed surroundings choices grant k n id payload) (l : Choice P E) :
    Installed surroundings (choices ++ [l]) grant k n id payload := by
  obtain ⟨a, requestId, hlt, ha, hgranted⟩ := h
  exact ⟨a, requestId, hlt, ha, hgranted.snoc l⟩

theorem Installed.mono {grant : UInt64 → UInt64 → Message} {id : UInt64} {n' : ℕ}
    (h : Installed surroundings choices grant k n id payload) (hn : n ≤ n') :
    Installed surroundings choices grant k n' id payload := by
  obtain ⟨a, requestId, hlt, hgranted⟩ := h
  exact ⟨a, requestId, Nat.lt_of_lt_of_le hlt hn, hgranted⟩

theorem Dispatched.snoc {t : Task P E} (h : Dispatched surroundings choices b t) (l : Choice P E) :
    Dispatched surroundings (choices ++ [l]) b t := by
  cases t with
  | procedure handler invocation requestId =>
    obtain ⟨registrationId, args, kwargs, details, hb, he, hinstalled⟩ := h
    exact ⟨registrationId, args, kwargs, details, hb, he, fun hsome => (hinstalled hsome).snoc l⟩
  | event handler e =>
    obtain ⟨subscriptionId, args, kwargs, details, hb, he, hinstalled⟩ := h
    exact ⟨subscriptionId, args, kwargs, details, hb, he, fun hsome => (hinstalled hsome).snoc l⟩

theorem Dispatched.madeOf {t : Task P E} (h : Dispatched surroundings choices b t) :
    MadeOf surroundings b t := by
  cases t with
  | procedure handler invocation requestId =>
    obtain ⟨registrationId, args, kwargs, details, hb, he, -⟩ := h
    exact ⟨registrationId, args, kwargs, details, hb, he⟩
  | event handler e =>
    obtain ⟨subscriptionId, args, kwargs, details, hb, he, -⟩ := h
    exact ⟨subscriptionId, args, kwargs, details, hb, he⟩

theorem Errand.Sound.snoc (h : q.Sound surroundings choices n) (l : Choice P E) :
    q.Sound surroundings (choices ++ [l]) n := by
  cases q with
  | none => trivial
  | message m => exact h
  | granting m k payload =>
    obtain ⟨a, requestId, hn, ha, hm, hgranted⟩ := h
    exact ⟨a, requestId, hn, ha, hm, hgranted.snoc l⟩
  | dispatching t =>
    obtain ⟨b, hn, hb⟩ := h
    exact ⟨b, hn, hb.snoc l⟩

theorem Provenance.snoc (h : Provenance surroundings choices s q n) (l : Choice P E) :
    Provenance surroundings (choices ++ [l]) s q n where
  inbox := h.inbox
  requests k requestId r hr := (h.requests k requestId r hr).snoc l
  registrations id handler hid hsome := (h.registrations id handler hid hsome).snoc l
  subscriptions id handler hid hsome := (h.subscriptions id handler hid hsome).snoc l
  errand := h.errand.snoc l

theorem Installed.before {grant : UInt64 → UInt64 → Message} {id : UInt64} {m : Message}
    (h : Installed surroundings choices grant k (b + 1) id payload)
    (hb : surroundings.inbox[b]? = some (.message m)) (hm : ∀ requestId, m ≠ grant requestId id) :
    Installed surroundings choices grant k b id payload := by
  obtain ⟨a, requestId, hlt, ha, hgranted⟩ := h
  refine ⟨a, requestId, Nat.lt_of_le_of_ne (Nat.le_of_lt_succ hlt) ?_, ha, hgranted⟩
  rintro rfl
  rw [ha] at hb
  cases hb
  exact hm requestId rfl

end Causes

section Steps

variable {surroundings : Surroundings P E} {choices : List (Choice P E)} {w : World P E} {s t : Session P E}
  {q q' : Errand P E} {n : ℕ} {l : Choice P E}

def Errand.bound (n : ℕ) : Errand P E → ℕ
  | .none => n
  | _ => n - 1

theorem Errand.bound_le (q : Errand P E) (n : ℕ) : q.bound n ≤ n := by
  cases q <;> simp only [Errand.bound] <;> omega

theorem Errand.le_bound_succ (q q' : Errand P E) (n : ℕ) : q.bound n ≤ q'.bound (n + 1) := by
  cases q <;> cases q' <;> simp only [Errand.bound] <;> omega

theorem Provenance.of_eq (h : Provenance surroundings choices s q n) (hinbox : t.inbox = s.inbox)
    (hrequests : t.requests = s.requests) (hregistrations : t.registrations = s.registrations)
    (hsubscriptions : t.subscriptions = s.subscriptions) (hq : q'.Sound surroundings choices n) :
    Provenance surroundings choices t q' n where
  inbox := hinbox.trans h.inbox
  requests := by
    rw [hrequests]
    exact h.requests
  registrations := by
    rw [hregistrations]
    exact h.registrations
  subscriptions := by
    rw [hsubscriptions]
    exact h.subscriptions
  errand := hq

theorem getElem?_of_drop {α : Type} {xs ys : List α} {x : α} (h : xs.drop n = x :: ys) :
    xs[n]? = some x ∧ xs.drop (n + 1) = ys := by
  constructor
  · have hzero : (xs.drop n)[0]? = some x := by rw [h]; rfl
    simpa [List.getElem?_drop] using hzero
  · rw [← List.drop_drop, h]
    rfl

theorem Provenance.receive (h : Provenance surroundings choices s q n) :
    ∃ n', Provenance surroundings choices (interp .receive s).2
        (errandProtocol.next q .receive (interp .receive s).1) n' ∧
      q.bound n ≤ (errandProtocol.next q .receive (interp .receive s).1).bound n' := by
  cases hi : s.inbox with
  | nil =>
    have hs : interp (.receive : Op P E) s = (.failed, s) := by simp [interp, hi]
    rw [hs]
    refine ⟨n, h.of_eq rfl rfl rfl rfl trivial, ?_⟩
    cases q <;> simp [Errand.bound, errandProtocol]
  | cons i inbox =>
    have hs : interp (.receive : Op P E) s = (i, { s with inbox := inbox }) := by simp [interp, hi]
    obtain ⟨hn, hdrop⟩ := getElem?_of_drop (h.inbox.symm.trans hi)
    rw [hs]
    refine ⟨n + 1, ⟨hdrop.symm, h.requests, ?_, ?_, ?_⟩, Errand.le_bound_succ _ _ _⟩
    · exact fun id handler hid hsome => (h.registrations id handler hid hsome).mono (Nat.le_succ n)
    · exact fun id handler hid hsome => (h.subscriptions id handler hid hsome).mono (Nat.le_succ n)
    · cases i with
      | message m => exact ⟨n, rfl, hn⟩
      | null => trivial
      | failed => trivial

theorem Provenance.find {k : RequestKind} {i : Int64} (h : Provenance surroundings choices w.session q n)
    (hrun : exec World.step (World.start surroundings) choices = some w)
    (ho : w.performs .receiver = some (.findRequest k i))
    (hallows : errandProtocol.allows q (.findRequest k i : Op P E)) :
    Provenance surroundings (choices ++ [.receiver]) (interp (.findRequest k i) w.session).2
        (errandProtocol.next q (.findRequest k i) (interp (.findRequest k i) w.session).1) n ∧
      q.bound n ≤ (errandProtocol.next q (.findRequest k i) (interp (.findRequest k i) w.session).1).bound n := by
  obtain ⟨m, rfl, hm⟩ := hallows
  obtain ⟨a, rfl, ha⟩ := h.errand
  have hfound : (interp (.findRequest k i) w.session).1 = (w.session.requests k).lookup i.toUInt64 := by
    simp only [interp, findFromMap_erase]
  have hlater := h.snoc .receiver
  have hkept : ∀ j id r, ((interp (.findRequest k i) w.session).2.requests j).lookup id = some r →
      Entered surroundings (choices ++ [.receiver]) j id r.payload :=
    fun j id r hr => hlater.requests j id r (lookup_after_find hr).1
  cases hr : (interp (.findRequest k i) w.session).1 with
  | none =>
    refine ⟨⟨hlater.inbox, hkept, hlater.registrations, hlater.subscriptions, a, rfl, ha⟩, ?_⟩
    simp [errandProtocol]
  | some r =>
    rw [hfound] at hr
    have hgranted : Granted surroundings (choices ++ [.receiver]) k a i.toUInt64 r.payload :=
      ⟨choices, [], w, rfl, hrun, ⟨i, ho, rfl⟩, h.inbox, h.requests k _ r hr⟩
    refine ⟨⟨hlater.inbox, hkept, hlater.registrations, hlater.subscriptions, a, i.toUInt64, rfl, ha, hm,
      hgranted⟩, ?_⟩
    simp [errandProtocol, Errand.bound]

theorem lookup_findFromMap_cases {T : Type} {i : Int64} {map : Table UInt64 (StdFunction T)} {erase : Bool}
    {id : UInt64} {handler : StdFunction T} (h : (findFromMap i map erase).2.lookup id = some handler)
    (hsome : handler.target.isSome) : map.lookup id = some handler := by
  cases hfound : map.lookup i.toUInt64 with
  | none =>
    rw [← Int64.toInt64_toUInt64 i, findFromMap_of_none hfound] at h
    exact h
  | some f =>
    rw [← Int64.toInt64_toUInt64 i, findFromMap_of_some hfound] at h
    cases erase with
    | true =>
      by_cases hid : id = i.toUInt64
      · rw [hid] at h
        simp at h
      · rwa [if_pos rfl, Finmap.lookup_erase_ne hid] at h
    | false =>
      by_cases hid : id = i.toUInt64
      · rw [hid, if_neg (by simp), Finmap.lookup_insert] at h
        obtain rfl := Option.some.inj h
        simp [Movable.moved] at hsome
      · rwa [if_neg (by simp), Finmap.lookup_insert_of_ne _ hid] at h

theorem Provenance.findRegistration {i : Int64} {erase : Bool} (h : Provenance surroundings choices s q n)
    (hallows : errandProtocol.allows q (.findRegistration i erase : Op P E)) :
    Provenance surroundings choices (interp (.findRegistration i erase) s).2
        (errandProtocol.next q (.findRegistration i erase) (interp (.findRegistration i erase) s).1) n ∧
      q.bound n ≤
        (errandProtocol.next q (.findRegistration i erase) (interp (.findRegistration i erase) s).1).bound n := by
  have hkept : ∀ id handler, (interp (.findRegistration i erase) s).2.registrations.lookup id = some handler →
      handler.target.isSome → Installed surroundings choices .registered .register n id handler :=
    fun id handler hid hsome => h.registrations id handler (lookup_findFromMap_cases hid hsome) hsome
  cases erase with
  | true =>
    refine ⟨⟨h.inbox, h.requests, hkept, h.subscriptions, ?_⟩, ?_⟩
    · simpa [errandProtocol] using h.errand
    · simp [errandProtocol]
  | false =>
    obtain ⟨requestId, registrationId, args, kwargs, details, rfl, rfl⟩ := hallows
    obtain ⟨b, rfl, hb⟩ := h.errand
    cases hfound : (interp (.findRegistration i false) s).1 with
    | none =>
      refine ⟨⟨h.inbox, h.requests, hkept, h.subscriptions, trivial⟩, ?_⟩
      simp [errandProtocol, Errand.bound]
    | some handler =>
      have hid : s.registrations.lookup i.toUInt64 = some handler := by
        rw [← findFromMap_fst, Int64.toInt64_toUInt64]
        exact hfound
      refine ⟨⟨h.inbox, h.requests, hkept, h.subscriptions, b, rfl, _, args, kwargs, details, hb, rfl, ?_⟩, ?_⟩
      · exact fun hsome => (h.registrations _ handler hid hsome).before hb fun _ => by simp
      · simp [errandProtocol, Errand.bound]

theorem Provenance.findSubscription {i : Int64} {erase : Bool} (h : Provenance surroundings choices s q n)
    (hallows : errandProtocol.allows q (.findSubscription i erase : Op P E)) :
    Provenance surroundings choices (interp (.findSubscription i erase) s).2
        (errandProtocol.next q (.findSubscription i erase) (interp (.findSubscription i erase) s).1) n ∧
      q.bound n ≤
        (errandProtocol.next q (.findSubscription i erase) (interp (.findSubscription i erase) s).1).bound n := by
  have hkept : ∀ id handler, (interp (.findSubscription i erase) s).2.subscriptions.lookup id = some handler →
      handler.target.isSome → Installed surroundings choices .subscribed .subscribe n id handler :=
    fun id handler hid hsome => h.subscriptions id handler (lookup_findFromMap_cases hid hsome) hsome
  cases erase with
  | true =>
    refine ⟨⟨h.inbox, h.requests, h.registrations, hkept, ?_⟩, ?_⟩
    · simpa [errandProtocol] using h.errand
    · simp [errandProtocol]
  | false =>
    obtain ⟨subscriptionId, args, kwargs, details, rfl, rfl⟩ := hallows
    obtain ⟨b, rfl, hb⟩ := h.errand
    cases hfound : (interp (.findSubscription i false) s).1 with
    | none =>
      refine ⟨⟨h.inbox, h.requests, h.registrations, hkept, trivial⟩, ?_⟩
      simp [errandProtocol, Errand.bound]
    | some handler =>
      have hid : s.subscriptions.lookup i.toUInt64 = some handler := by
        rw [← findFromMap_fst, Int64.toInt64_toUInt64]
        exact hfound
      refine ⟨⟨h.inbox, h.requests, h.registrations, hkept, b, rfl, _, args, kwargs, details, hb, rfl, ?_⟩, ?_⟩
      · exact fun hsome => (h.subscriptions _ handler hid hsome).before hb fun _ => by simp
      · simp [errandProtocol, Errand.bound]

theorem Errand.Sound.installed {grant : UInt64 → UInt64 → Message} {id requestId : UInt64} {k : RequestKind}
    {payload : Payload P E k} (hgrant : ∀ requestId, (grant requestId id).answers = some (k, requestId))
    (h : (Errand.granting (grant requestId id) k payload).Sound surroundings choices n) :
    Installed surroundings choices grant k n id payload := by
  obtain ⟨a, requestId', rfl, ha, hm, hgranted⟩ := h
  rw [hgrant] at hm
  cases hm
  exact ⟨a, requestId, Nat.lt_succ_self a, ha, hgranted⟩

theorem Provenance.own {o : Op P E} (h : Provenance surroundings choices w.session q n)
    (hrun : exec World.step (World.start surroundings) choices = some w)
    (ho : w.performs .receiver = some o) (hallows : errandProtocol.allows q o) :
    ∃ n', Provenance surroundings (choices ++ [.receiver]) (interp o w.session).2
        (errandProtocol.next q o (interp o w.session).1) n' ∧
      q.bound n ≤ (errandProtocol.next q o (interp o w.session).1).bound n' := by
  have hlater := h.snoc .receiver
  cases o with
  | nextId | emplaceRequest => exact hallows.elim
  | receive => exact hlater.receive
  | findRequest k i => exact ⟨n, h.find hrun ho hallows⟩
  | findRegistration i erase => exact ⟨n, hlater.findRegistration hallows⟩
  | findSubscription i erase => exact ⟨n, hlater.findSubscription hallows⟩
  | emplaceRegistration registrationId handler =>
    obtain ⟨requestId, rfl⟩ := hallows
    have hinstalled : Installed surroundings (choices ++ [.receiver]) .registered .register n registrationId
        handler := hlater.errand.installed fun _ => rfl
    refine ⟨n, ⟨hlater.inbox, hlater.requests, ?_, hlater.subscriptions, hlater.errand⟩, le_rfl⟩
    intro id handler' hid hsome
    rcases Table.lookup_emplace_cases hid with hid | ⟨rfl, rfl⟩
    · exact hlater.registrations id handler' hid hsome
    · exact hinstalled
  | emplaceSubscription subscriptionId handler =>
    obtain ⟨requestId, rfl⟩ := hallows
    have hinstalled : Installed surroundings (choices ++ [.receiver]) .subscribed .subscribe n subscriptionId
        handler := hlater.errand.installed fun _ => rfl
    refine ⟨n, ⟨hlater.inbox, hlater.requests, hlater.registrations, ?_, hlater.errand⟩, le_rfl⟩
    intro id handler' hid hsome
    rcases Table.lookup_emplace_cases hid with hid | ⟨rfl, rfl⟩
    · exact hlater.subscriptions id handler' hid hsome
    · exact hinstalled
  | enqueue t =>
    refine ⟨n, hlater.of_eq rfl rfl rfl rfl trivial, ?_⟩
    cases q <;> simp [Errand.bound, errandProtocol]
  | _ => exact ⟨n, hlater.of_eq rfl rfl rfl rfl hlater.errand, le_rfl⟩

theorem requests_after_emplace {k : RequestKind} {requestId : UInt64} {payload : Payload P E k}
    {C : (j : RequestKind) → UInt64 → Request P E j → Prop}
    (hold : ∀ j id r, (s.requests j).lookup id = some r → C j id r)
    (hnew : C k requestId ⟨s.nextPromise, payload⟩) (j : RequestKind) (id : UInt64) (r : Request P E j)
    (hr : ((interp (.emplaceRequest k requestId payload) s).2.requests j).lookup id = some r) : C j id r := by
  by_cases hj : j = k
  · subst hj
    simp only [interp, Function.update_self] at hr
    rcases Table.lookup_emplace_cases hr with hr | ⟨rfl, rfl⟩
    · exact hold j id r hr
    · exact hnew
  · simp only [interp, Function.update_of_ne hj] at hr
    exact hold j id r hr

theorem Provenance.other {o : Op P E} (h : Provenance surroundings choices s q n) (ho : o.ByOthers)
    (hentered : ∀ k requestId payload, o = .emplaceRequest k requestId payload →
      Entered surroundings choices k requestId payload) :
    Provenance surroundings choices (interp o s).2 q n := by
  cases o with
  | emplaceRequest k requestId payload =>
    refine ⟨h.inbox, ?_, h.registrations, h.subscriptions, h.errand⟩
    exact requests_after_emplace h.requests (hentered k requestId payload rfl)
  | findRequest | receive | findRegistration | findSubscription | emplaceRegistration | emplaceSubscription =>
    simp [Op.ByOthers, Op.OfRequest, Op.OfLeave, Op.OfTask] at ho
  | _ => exact h.of_eq rfl rfl rfl rfl h.errand

end Steps

section Calls

inductive HandlerCall (P E : Type)
  | procedure (f : P) (invocation : Invocation)
  | event (f : E) (e : Event)

def Op.handlerCall : Op P E → Option (HandlerCall P E)
  | .callProcedure f invocation => some (.procedure f invocation)
  | .callEventHandler f e => some (.event f e)
  | _ => none

def Task.call : Task P E → Option (HandlerCall P E)
  | .procedure handler invocation _ => handler.target.map (.procedure · invocation)
  | .event handler e => handler.target.map (.event · e)

def Causes (surroundings : Surroundings P E) (choices : List (Choice P E)) (b : ℕ) : HandlerCall P E → Prop
  | .procedure f invocation => ∃ a requestId id registrationId args kwargs details, a < b ∧
    surroundings.inbox[b]? = some (.message (.invocation id registrationId args kwargs details)) ∧
    invocation = ⟨fromCList args, fromCDict kwargs, fromCDict details⟩ ∧
    surroundings.inbox[a]? = some (.message (.registered requestId registrationId)) ∧
    Granted surroundings choices .register a requestId ⟨some f⟩
  | .event f e => ∃ a requestId subscriptionId args kwargs details, a < b ∧
    surroundings.inbox[b]? = some (.message (.event subscriptionId args kwargs details)) ∧
    e = .make (fromCList args) (fromCDict kwargs) (fromCDict details) ∧
    surroundings.inbox[a]? = some (.message (.subscribed requestId subscriptionId)) ∧
    Granted surroundings choices .subscribe a requestId ⟨some f⟩

variable {surroundings : Surroundings P E} {choices : List (Choice P E)} {b : ℕ} {t t' : Task P E}
  {c : HandlerCall P E} {owed : Option (HandlerCall P E)}

theorem Dispatched.causes (h : Dispatched surroundings choices b t) (ht : t.call = some c) :
    Causes surroundings choices b c := by
  cases t with
  | procedure handler invocation requestId =>
    obtain ⟨f, hf, rfl⟩ := Option.map_eq_some_iff.mp ht
    obtain ⟨registrationId, args, kwargs, details, hb, he, hinstalled⟩ := h
    obtain ⟨a, id, hlt, ha, hgranted⟩ := hinstalled (by simp [hf])
    obtain rfl : handler = ⟨some f⟩ := by rw [← hf]
    exact ⟨a, id, requestId, registrationId, args, kwargs, details, hlt, hb, he, ha, hgranted⟩
  | event handler e =>
    obtain ⟨f, hf, rfl⟩ := Option.map_eq_some_iff.mp ht
    obtain ⟨subscriptionId, args, kwargs, details, hb, he, hinstalled⟩ := h
    obtain ⟨a, id, hlt, ha, hgranted⟩ := hinstalled (by simp [hf])
    obtain rfl : handler = ⟨some f⟩ := by rw [← hf]
    exact ⟨a, id, subscriptionId, args, kwargs, details, hlt, hb, he, ha, hgranted⟩

theorem Causes.snoc (h : Causes surroundings choices b c) (l : Choice P E) :
    Causes surroundings (choices ++ [l]) b c := by
  cases c with
  | procedure f invocation =>
    obtain ⟨a, requestId, id, registrationId, args, kwargs, details, hlt, hb, he, ha, hgranted⟩ := h
    exact ⟨a, requestId, id, registrationId, args, kwargs, details, hlt, hb, he, ha, hgranted.snoc l⟩
  | event f e =>
    obtain ⟨a, requestId, subscriptionId, args, kwargs, details, hlt, hb, he, ha, hgranted⟩ := h
    exact ⟨a, requestId, subscriptionId, args, kwargs, details, hlt, hb, he, ha, hgranted.snoc l⟩

def callProtocol : Protocol (Option (HandlerCall P E)) (Op P E) Res where
  allows owed o := ∀ c, o.handlerCall = some c → owed = some c
  next owed o _ := if o.handlerCall.isSome then none else owed

theorem callProtocol_next_of_none {o : Op P E} (h : o.handlerCall = none) (r : Res o) :
    callProtocol.next owed o r = owed := by
  simp [callProtocol, h]

theorem callProtocol_next_of_some {o : Op P E} (h : o.handlerCall = some c) (r : Res o) :
    callProtocol.next owed o r = none := by
  simp [callProtocol, h]

abbrev Owing {α : Type} (p : Code P E α) (owed : Option (HandlerCall P E)) : Prop :=
  p.Follows callProtocol (fun _ => True) (fun _ => True) owed

theorem owing_of_uses {α : Type} {p : Code P E α} (hp : p.Uses fun o => o.handlerCall = none)
    (owed : Option (HandlerCall P E)) : Owing p owed := by
  apply hp.follows (I := fun _ => True) _ (fun _ h => h) (fun _ h => h) trivial
  intro o ho q _
  exact ⟨by simp [callProtocol, ho], fun _ => trivial⟩

theorem owing_code (t : Task P E) : Owing t.code t.call := by
  cases t with
  | procedure handler invocation requestId =>
    have hreply (outcome : HandlerOutcome) : Owing (replyTo requestId outcome : Code P E Unit) none := by
      apply owing_of_uses
      cases outcome <;> simp [replyTo, transmit, Op.handlerCall]
    cases hf : handler.target with
    | none =>
      rw [code_of_empty hf]
      simpa [Task.call, hf] using hreply .exception
    | some f =>
      rw [code_of_target hf]
      refine ⟨fun c hc => ?_, fun outcome => hreply outcome⟩
      cases hc
      simp [Task.call, hf]
  | event handler e =>
    cases hf : handler.target with
    | none =>
      rw [event_code_of_empty hf]
      trivial
    | some f =>
      rw [event_code_of_target hf]
      refine ⟨fun c hc => ?_, fun _ => trivial⟩
      cases hc
      simp [Task.call, hf]

namespace Thread

def isWorker : Thread P E → Bool
  | .worker _ => true
  | _ => false

def MayCall (owed : Option (HandlerCall P E)) : Thread P E → Prop
  | .request _ rest => Owing rest owed
  | .leaving rest => Owing rest owed
  | .worker rest => Owing rest owed

variable {u u' : Thread P E} {s s' : Session P E}

theorem MayCall.advance (h : u.MayCall owed) (ha : u.advance s = some (u', s')) :
    ∃ o, u.head? = some o ∧ s' = (interp o s).2 ∧ u'.isWorker = u.isWorker ∧
      (o.handlerCall = none ∧ u'.MayCall owed ∨
        ∃ c, o.handlerCall = some c ∧ owed = some c ∧ u'.MayCall none) := by
  rcases advance_cases ha with
    ⟨operation, o, k, rfl, rfl, rfl⟩ | ⟨o, k, rfl, rfl, rfl⟩ | ⟨o, k, rfl, rfl, rfl⟩
  all_goals
    refine ⟨o, rfl, rfl, rfl, ?_⟩
    obtain ⟨hallows, hnext⟩ := h
    cases hc : o.handlerCall with
    | none =>
      left
      refine ⟨rfl, ?_⟩
      have hsame := hnext (interp o s).1
      rwa [callProtocol_next_of_none hc] at hsame
    | some c =>
      right
      refine ⟨c, rfl, hallows c hc, ?_⟩
      have hnone := hnext (interp o s).1
      rwa [callProtocol_next_of_some hc] at hnone

theorem mayCall_operation (operation : Operation P E) :
    (Thread.request operation operation.code).MayCall none := by
  apply owing_of_uses
  apply (uses_operation operation).mono
  intro o ho
  cases o <;> first | exact ho.elim | rfl

theorem mayCall_leave : (Thread.leaving leave : Thread P E).MayCall none := by
  apply owing_of_uses
  apply uses_leave.mono
  intro o ho
  cases o <;> first | exact ho.elim | rfl

end Thread

def World.calls (w : World P E) (l : Choice P E) : List (ℕ × HandlerCall P E) :=
  match l with
  | .thread i => ((w.performs (.thread i)).bind Op.handlerCall).toList.map (i, ·)
  | _ => []

def calls (surroundings : Surroundings P E) (choices : List (Choice P E)) : List (ℕ × HandlerCall P E) :=
  observe World.step World.calls (World.start surroundings) choices

def Called (surroundings : Surroundings P E) (choices : List (Choice P E)) (b : ℕ)
    (x : ℕ × HandlerCall P E) : Prop :=
  ∃ before after u n, choices = before ++ .thread x.1 :: after ∧
    exec World.step (World.start surroundings) before = some u ∧ x ∈ u.calls (.thread x.1) ∧
    u.session.inbox = surroundings.inbox.drop n ∧ b < n ∧ Causes surroundings before b x.2

theorem Called.snoc {x : ℕ × HandlerCall P E} (h : Called surroundings choices b x) (l : Choice P E) :
    Called surroundings (choices ++ [l]) b x := by
  obtain ⟨before, after, u, n, rfl, hcalled⟩ := h
  exact ⟨before, after ++ [l], u, n, by simp, hcalled⟩

structure Accounts (surroundings : Surroundings P E) (choices : List (Choice P E)) (w : World P E)
    (cause : ℕ → ℕ) (pending : List ℕ) (bound : ℕ) (made : List (ℕ × HandlerCall P E)) : Prop where
  queue : List.Forall₂ (Dispatched surroundings choices) pending w.session.tasks
  increasing : pending.Pairwise (· < ·)
  below : ∀ b ∈ pending, b < bound
  owed : ∀ i t, w.threads[i]? = some t → ∃ owed, t.MayCall owed ∧
    ∀ c, owed = some c → t.isWorker ∧ Causes surroundings choices (cause i) c ∧ i ∉ made.map Prod.fst
  workers : ∀ i t, w.threads[i]? = some t → t.isWorker → cause i < bound ∧ ∀ b ∈ pending, cause i < b
  ordered : ∀ i j t u, w.threads[i]? = some t → w.threads[j]? = some u → t.isWorker → u.isWorker → i < j →
    cause i < cause j
  caused : ∀ x ∈ made, (∃ t, w.threads[x.1]? = some t ∧ t.isWorker) ∧
    Called surroundings choices (cause x.1) x
  once : (made.map Prod.fst).Nodup

namespace Accounts

variable {w : World P E} {cause : ℕ → ℕ} {pending : List ℕ} {bound bound' : ℕ}
  {made : List (ℕ × HandlerCall P E)} {s : Session P E} {rest : Code P E Bool} {i : ℕ} {u u' : Thread P E}

theorem snoc (h : Accounts surroundings choices w cause pending bound made) (l : Choice P E) :
    Accounts surroundings (choices ++ [l]) w cause pending bound made where
  queue := h.queue.imp fun b t hb => hb.snoc l
  increasing := h.increasing
  below := h.below
  owed i t hi := by
    obtain ⟨owed, hcall, howed⟩ := h.owed i t hi
    refine ⟨owed, hcall, fun c hc => ?_⟩
    obtain ⟨hworker, hcauses, hnot⟩ := howed c hc
    exact ⟨hworker, hcauses.snoc l, hnot⟩
  workers := h.workers
  ordered := h.ordered
  caused x hx := ⟨(h.caused x hx).1, (h.caused x hx).2.snoc l⟩
  once := h.once

theorem receiver (h : Accounts surroundings choices w cause pending bound made) (hs : s.tasks = w.session.tasks)
    (hbound : bound ≤ bound') :
    Accounts surroundings choices { w with session := s, receiver := rest } cause pending bound' made where
  queue := by
    rw [hs]
    exact h.queue
  increasing := h.increasing
  below b hb := Nat.lt_of_lt_of_le (h.below b hb) hbound
  owed := h.owed
  workers i t hi ht := ⟨Nat.lt_of_lt_of_le (h.workers i t hi ht).1 hbound, (h.workers i t hi ht).2⟩
  ordered := h.ordered
  caused := h.caused
  once := h.once

theorem enqueue (h : Accounts surroundings choices w cause pending bound made)
    (ht : Dispatched surroundings choices bound t) : Accounts surroundings choices
      { w with session := (interp (.enqueue t) w.session).2, receiver := rest } cause (pending ++ [bound])
      (bound + 1) made where
  queue := List.rel_append h.queue (.cons ht .nil)
  increasing := by
    refine List.pairwise_append.mpr ⟨h.increasing, List.pairwise_singleton _ _, ?_⟩
    intro b hb b' hb'
    obtain rfl := List.mem_singleton.mp hb'
    exact h.below b hb
  below b hb := by
    rcases List.mem_append.mp hb with hb | hb
    · exact Nat.lt_succ_of_lt (h.below b hb)
    · obtain rfl := List.mem_singleton.mp hb
      exact Nat.lt_succ_self b
  owed := h.owed
  workers i t hi ht := by
    obtain ⟨hlt, hpending⟩ := h.workers i t hi ht
    refine ⟨Nat.lt_succ_of_lt hlt, fun b hb => ?_⟩
    rcases List.mem_append.mp hb with hb | hb
    · exact hpending b hb
    · obtain rfl := List.mem_singleton.mp hb
      exact hlt
  ordered := h.ordered
  caused := h.caused
  once := h.once

theorem kind_of_set {threads : List (Thread P E)} {j : ℕ} {v : Thread P E} (hi : threads[i]? = some u)
    (hkind : u'.isWorker = u.isWorker) (hj : (threads.set i u')[j]? = some v) :
    ∃ v', threads[j]? = some v' ∧ v'.isWorker = v.isWorker := by
  rcases getElem?_set_cases hj with ⟨rfl, rfl⟩ | ⟨-, hj⟩
  · exact ⟨u, hi, hkind.symm⟩
  · exact ⟨v, hj, rfl⟩

theorem thread {n : ℕ} (h : Accounts surroundings choices w cause pending bound made)
    (hrun : exec World.step (World.start surroundings) choices = some w)
    (hread : w.session.inbox = surroundings.inbox.drop n) (hn : bound ≤ n) (hi : w.threads[i]? = some u)
    (ha : u.advance w.session = some (u', s)) (hs : s.tasks = w.session.tasks) :
    Accounts surroundings (choices ++ [.thread i]) { w with session := s, threads := w.threads.set i u' }
      cause pending bound (made ++ w.calls (.thread i)) := by
  obtain ⟨owed, hcall, howed⟩ := h.owed i u hi
  have hbound (hworker : u.isWorker) : cause i < bound := (h.workers i u hi hworker).1
  have hnow (c : HandlerCall P E) (hc : (i, c) ∈ w.calls (.thread i)) (hworker : u.isWorker)
      (hcauses : Causes surroundings choices (cause i) c) :
      Called surroundings (choices ++ [.thread i]) (cause i) (i, c) :=
    ⟨choices, [], w, n, rfl, hrun, hc, hread, Nat.lt_of_lt_of_le (hbound hworker) hn, hcauses⟩
  replace h := h.snoc (.thread i)
  obtain ⟨o, ho, -, hkind, hsort⟩ := hcall.advance ha
  have hperforms : w.performs (.thread i) = some o := by simp [World.performs, hi, ho]
  have hqueue : List.Forall₂ (Dispatched surroundings (choices ++ [.thread i])) pending s.tasks := by
    rw [hs]
    exact h.queue
  have hlt : i < w.threads.length := (List.getElem?_eq_some_iff.mp hi).1
  have hself : (w.threads.set i u')[i]? = some u' := List.getElem?_set_self hlt
  have hworkers : ∀ j v, (w.threads.set i u')[j]? = some v → v.isWorker →
      cause j < bound ∧ ∀ b ∈ pending, cause j < b := by
    intro j v hj hv
    obtain ⟨v', hj', hv'⟩ := kind_of_set hi hkind hj
    exact h.workers j v' hj' (hv'.trans hv)
  have hordered : ∀ j k v v', (w.threads.set i u')[j]? = some v → (w.threads.set i u')[k]? = some v' →
      v.isWorker → v'.isWorker → j < k → cause j < cause k := by
    intro j k v v' hj hk hv hv' hjk
    obtain ⟨x, hj', hx⟩ := kind_of_set hi hkind hj
    obtain ⟨y, hk', hy⟩ := kind_of_set hi hkind hk
    exact h.ordered j k x y hj' hk' (hx.trans hv) (hy.trans hv') hjk
  have hkept : ∀ x ∈ made, (∃ t, (w.threads.set i u')[x.1]? = some t ∧ t.isWorker) ∧
      Called surroundings (choices ++ [.thread i]) (cause x.1) x := by
    intro x hx
    obtain ⟨⟨v, hv, hworker⟩, hcalled⟩ := h.caused x hx
    refine ⟨?_, hcalled⟩
    by_cases he : x.1 = i
    · rw [he] at hv ⊢
      obtain rfl := Option.some.inj (hi.symm.trans hv)
      exact ⟨u', hself, hkind.trans hworker⟩
    · exact ⟨v, by rwa [List.getElem?_set_ne (Ne.symm he)], hworker⟩
  rcases hsort with ⟨hnone, hcall'⟩ | ⟨c, hc, rfl, hcall'⟩
  · have hcalls : w.calls (.thread i) = [] := by simp [World.calls, hperforms, hnone]
    rw [hcalls, List.append_nil]
    refine ⟨hqueue, h.increasing, h.below, ?_, hworkers, hordered, hkept, h.once⟩
    intro j v hj
    rcases getElem?_set_cases hj with ⟨rfl, rfl⟩ | ⟨-, hj⟩
    · refine ⟨owed, hcall', fun c hc => ?_⟩
      obtain ⟨hworker, hcauses, hnot⟩ := howed c hc
      exact ⟨hkind.trans hworker, hcauses.snoc _, hnot⟩
    · exact h.owed j v hj
  · have hcalls : w.calls (.thread i) = [(i, c)] := by simp [World.calls, hperforms, hc]
    obtain ⟨hworker, hcauses, hnot⟩ := howed c rfl
    rw [hcalls]
    refine ⟨hqueue, h.increasing, h.below, ?_, hworkers, hordered, ?_, ?_⟩
    · intro j v hj
      rcases getElem?_set_cases hj with ⟨rfl, rfl⟩ | ⟨hne, hj⟩
      · exact ⟨none, hcall', fun c hc => by cases hc⟩
      · obtain ⟨owed', hv, howed'⟩ := h.owed j v hj
        refine ⟨owed', hv, fun c' hc' => ?_⟩
        obtain ⟨hworker', hcauses', hnot'⟩ := howed' c' hc'
        refine ⟨hworker', hcauses', ?_⟩
        rw [List.map_append, List.mem_append, not_or]
        exact ⟨hnot', by simpa using hne⟩
    · intro x hx
      rcases List.mem_append.mp hx with hx | hx
      · exact hkept x hx
      · obtain rfl := List.mem_singleton.mp hx
        exact ⟨⟨u', hself, hkind.trans hworker⟩, hnow c (by simp [hcalls]) hworker hcauses⟩
    · rw [List.map_append, List.map_singleton]
      simpa using List.Nodup.concat hnot h.once

theorem newThread (h : Accounts surroundings choices w cause pending bound made) (hu : u.MayCall none)
    (hkind : u.isWorker = false) :
    Accounts surroundings choices { w with threads := w.threads ++ [u] } cause pending bound made where
  queue := h.queue
  increasing := h.increasing
  below := h.below
  owed j v hj := by
    rcases getElem?_append_cases hj with hj | rfl
    · exact h.owed j v hj
    · exact ⟨none, hu, fun c hc => by cases hc⟩
  workers j v hj hv := by
    rcases getElem?_append_cases hj with hj | rfl
    · exact h.workers j v hj hv
    · exact absurd (hkind.symm.trans hv) (by simp)
  ordered j k v v' hj hk hv hv' hjk := by
    rcases getElem?_append_cases hj with hj | rfl
    · rcases getElem?_append_cases hk with hk | rfl
      · exact h.ordered j k v v' hj hk hv hv' hjk
      · exact absurd (hkind.symm.trans hv') (by simp)
    · exact absurd (hkind.symm.trans hv) (by simp)
  caused x hx := by
    obtain ⟨⟨v, hv, hworker⟩, hcalled⟩ := h.caused x hx
    have hlt : x.1 < w.threads.length := (List.getElem?_eq_some_iff.mp hv).1
    exact ⟨⟨v, by rwa [List.getElem?_append_left hlt], hworker⟩, hcalled⟩
  once := h.once

theorem work {tasks : List (Task P E)} (h : Accounts surroundings choices w cause pending bound made)
    (htasks : w.session.tasks = t :: tasks) : ∃ cause' pending', Accounts surroundings choices
      { w with session := { w.session with tasks := tasks }, threads := w.threads ++ [.worker t.code] }
      cause' pending' bound made := by
  obtain ⟨b, pending', ht, htail, rfl⟩ := List.forall₂_cons_right_iff.mp (htasks ▸ h.queue)
  obtain ⟨hfirst, hincreasing⟩ := List.pairwise_cons.mp h.increasing
  have hold {j : ℕ} {v : Thread P E} (hj : w.threads[j]? = some v) :
      Function.update cause w.threads.length b j = cause j := by
    apply Function.update_of_ne
    exact Nat.ne_of_lt (List.getElem?_eq_some_iff.mp hj).1
  refine ⟨Function.update cause w.threads.length b, pending', htail, hincreasing, ?_, ?_, ?_, ?_, ?_, h.once⟩
  · exact fun b' hb' => h.below b' (List.mem_cons_of_mem _ hb')
  · intro j v hj
    rcases getElem?_concat_cases hj with hj | ⟨rfl, rfl⟩
    · rw [hold hj]
      exact h.owed j v hj
    · refine ⟨t.call, owing_code t, fun c hc => ⟨rfl, ?_, ?_⟩⟩
      · rw [Function.update_self]
        exact ht.causes hc
      · intro hmem
        obtain ⟨x, hx, hindex⟩ := List.mem_map.mp hmem
        obtain ⟨⟨v, hv, -⟩, -⟩ := h.caused x hx
        exact Nat.ne_of_lt (List.getElem?_eq_some_iff.mp hv).1 hindex
  · intro j v hj hv
    rcases getElem?_concat_cases hj with hj | ⟨rfl, rfl⟩
    · rw [hold hj]
      obtain ⟨hlt, hpending⟩ := h.workers j v hj hv
      exact ⟨hlt, fun b' hb' => hpending b' (List.mem_cons_of_mem _ hb')⟩
    · rw [Function.update_self]
      exact ⟨h.below b List.mem_cons_self, hfirst⟩
  · intro j k v v' hj hk hv hv' hjk
    rcases getElem?_concat_cases hk with hk | ⟨rfl, rfl⟩
    · have hjlt : j < w.threads.length := hjk.trans (List.getElem?_eq_some_iff.mp hk).1
      rw [List.getElem?_append_left hjlt] at hj
      rw [hold hj, hold hk]
      exact h.ordered j k v v' hj hk hv hv' hjk
    · rw [List.getElem?_append_left hjk] at hj
      rw [hold hj, Function.update_self]
      exact (h.workers j v hj hv).2 b List.mem_cons_self
  · intro x hx
    obtain ⟨⟨v, hv, hworker⟩, hcalled⟩ := h.caused x hx
    have hlt : x.1 < w.threads.length := (List.getElem?_eq_some_iff.mp hv).1
    rw [hold hv]
    exact ⟨⟨v, by rwa [List.getElem?_append_left hlt], hworker⟩, hcalled⟩

end Accounts

end Calls

section Entries

variable {surroundings : Surroundings P E} {choices : List (Choice P E)} {w : World P E}

def Op.EntersFor (operation : Operation P E) (o : Op P E) : Prop :=
  ∀ k requestId payload, o = .emplaceRequest k requestId payload → operation.entry = ⟨k, payload⟩

theorem entersFor_of_ne {operation : Operation P E} {o : Op P E}
    (h : ∀ k requestId payload, o ≠ .emplaceRequest k requestId payload) : o.EntersFor operation :=
  fun k requestId payload ho => absurd ho (h k requestId payload)

theorem uses_request_entry {operation : Operation P E} {k : RequestKind} {payload : Payload P E k}
    (h : operation.entry = ⟨k, payload⟩) (requestId : UInt64) (m : Outgoing) :
    (request k requestId payload m).Uses (Op.EntersFor operation) := by
  refine ⟨?_, fun p => Uses.bind ?_ fun _ => ⟨entersFor_of_ne (by simp), fun r => ?_⟩⟩
  · rintro k' requestId' payload' ho
    cases ho
    exact h
  · exact uses_sendMessage (entersFor_of_ne (by simp)) (entersFor_of_ne (by simp))
  · cases r with
    | none => trivial
    | some r => cases r <;> trivial

theorem uses_operation_entry (operation : Operation P E) :
    operation.code.Uses (Op.EntersFor operation) := by
  cases operation with
  | publish topic args kwargs options =>
    refine ⟨entersFor_of_ne (by simp), fun requestId => ?_⟩
    split
    · trivial
    · exact uses_request_entry rfl _ _
    · refine Uses.bind ?_ fun _ => uses_pure _
      exact uses_sendMessage (entersFor_of_ne (by simp)) (entersFor_of_ne (by simp))
  | _ => exact ⟨entersFor_of_ne (by simp), fun requestId => uses_request_entry rfl _ _⟩

theorem uses_entry_of_exec (hrun : exec World.step (World.start surroundings) choices = some w) :
    ∀ (i : ℕ) (operation : Operation P E) (rest : Code P E Reply),
      w.threads[i]? = some (.request operation rest) → rest.Uses (Op.EntersFor operation) := by
  apply exec_invariant (I := fun w : World P E => ∀ (i : ℕ) (operation : Operation P E) (rest : Code P E Reply),
    w.threads[i]? = some (.request operation rest) → rest.Uses (Op.EntersFor operation)) _ _ hrun
  · intro t l t' ht hstep i operation rest hi
    rcases thread_before_step hstep hi with
      hsame | ⟨-, u, hu, ha⟩ | ⟨operation', -, he⟩ | he | ⟨-, task, -, he⟩
    · exact ht i operation rest hsame
    · rcases advance_cases ha with
        ⟨operation', o, k, rfl, -, he⟩ | ⟨o, k, rfl, -, he⟩ | ⟨o, k, rfl, -, he⟩
      · obtain ⟨rfl, rfl⟩ := Thread.request.inj he
        exact (ht i operation _ hu).2 _
      · cases he
      · cases he
    · cases he
      exact uses_operation_entry operation
    · cases he
    · cases he
  · simp [World.start]

theorem entered_of_performs {i : ℕ} {k : RequestKind} {requestId : UInt64} {payload : Payload P E k}
    (hrun : exec World.step (World.start surroundings) choices = some w)
    (ho : w.performs (.thread i) = some (.emplaceRequest k requestId payload)) :
    Entered surroundings (choices ++ [.thread i]) k requestId payload := by
  obtain ⟨t, hi, hhead⟩ := Option.bind_eq_some_iff.mp ho
  cases t with
  | request operation rest =>
    obtain ⟨next, rfl⟩ := head?_eq_some_iff.mp hhead
    have hentry := (uses_entry_of_exec hrun i operation _ hi).1 k requestId payload rfl
    exact ⟨i, operation, ⟨choices, [], w, rfl, hrun, payload, next, hi⟩, hentry⟩
  | leaving rest =>
    have hkept := threads_keepTo hrun _ (List.mem_of_getElem? hi)
    exact (Uses.head hkept hhead).elim
  | worker rest =>
    have hkept := threads_keepTo hrun _ (List.mem_of_getElem? hi)
    exact (Uses.head hkept hhead).elim

end Entries

section Run

variable {surroundings : Surroundings P E} {choices : List (Choice P E)} {w w' : World P E} {l : Choice P E}

def Known (surroundings : Surroundings P E) (choices : List (Choice P E)) (w : World P E) : Prop :=
  ∃ q n cause pending, Runs w.receiver q ∧ Provenance surroundings choices w.session q n ∧
    Accounts surroundings choices w cause pending (q.bound n) (calls surroundings choices)

theorem known_start (surroundings : Surroundings P E) :
    Known surroundings [] (World.start surroundings : World P E) := by
  refine ⟨.none, 0, fun _ => 0, [], runs_waitRound trivial, ⟨rfl, ?_, ?_, ?_, trivial⟩, ?_⟩
  · simp [World.start, Session.start]
  · simp [World.start, Session.start]
  · simp [World.start, Session.start]
  · exact ⟨.nil, .nil, by simp, by simp [World.start], by simp [World.start], by simp [World.start],
      by simp [calls, observe], .nil⟩

theorem Op.ByOthers.tasks {o : Op P E} (ho : o.ByOthers) (s : Session P E) : (interp o s).2.tasks = s.tasks := by
  cases o <;> first | rfl | simp [Op.ByOthers, Op.OfRequest, Op.OfLeave, Op.OfTask] at ho

theorem tasks_interp {o : Op P E} (ho : ∀ t, o ≠ .enqueue t) (s : Session P E) :
    (interp o s).2.tasks = s.tasks := by
  cases o with
  | enqueue t => exact absurd rfl (ho t)
  | receive => cases hi : s.inbox <;> simp [interp, hi]
  | _ => rfl

theorem calls_snoc (hrun : exec World.step (World.start surroundings) choices = some w) (l : Choice P E) :
    calls surroundings (choices ++ [l]) = calls surroundings choices ++ w.calls l :=
  observe_snoc hrun

theorem calls_quiet (hrun : exec World.step (World.start surroundings) choices = some w)
    (hl : ∀ i, l ≠ .thread i) : calls surroundings (choices ++ [l]) = calls surroundings choices := by
  rw [calls_snoc hrun]
  cases l with
  | thread i => exact absurd rfl (hl i)
  | _ => exact List.append_nil _

theorem Known.receiver_step (h : Known surroundings choices w)
    (hrun : exec World.step (World.start surroundings) choices = some w)
    (hstep : w.step .receiver = some w') : Known surroundings (choices ++ [.receiver]) w' := by
  obtain ⟨q, n, cause, pending, hruns, hprovenance, haccounts⟩ := h
  have hcalls : calls surroundings (choices ++ [.receiver]) = calls surroundings choices :=
    calls_quiet hrun (by simp)
  rcases step_receiver_iff.mp hstep with ⟨hr, rfl⟩ | ⟨o, k, hr, rfl⟩
  · rw [hr] at hruns
    refine ⟨q, n, cause, pending, runs_waitRound hruns, hprovenance.snoc _, ?_⟩
    rw [hcalls]
    exact (haccounts.snoc _).receiver rfl le_rfl
  · rw [hr] at hruns
    have ho : w.performs .receiver = some o := by simp [World.performs, hr]
    obtain ⟨n', hprovenance', hbound⟩ := hprovenance.own hrun ho hruns.1
    by_cases henqueue : ∃ t, o = .enqueue t
    · obtain ⟨t, rfl⟩ := henqueue
      obtain rfl : q = .dispatching t := hruns.1
      obtain ⟨b, rfl, ht⟩ := hprovenance.errand
      refine ⟨.none, b + 1, cause, pending ++ [b], hruns.2 _, ?_, ?_⟩
      · exact (hprovenance.snoc _).of_eq rfl rfl rfl rfl trivial
      · rw [hcalls]
        exact (haccounts.snoc _).enqueue (ht.snoc _)
    · refine ⟨_, n', cause, pending, hruns.2 _, hprovenance', ?_⟩
      rw [hcalls]
      have htasks : (interp o w.session).2.tasks = w.session.tasks :=
        tasks_interp (fun t ht => henqueue ⟨t, ht⟩) w.session
      exact (haccounts.snoc _).receiver htasks hbound

theorem Known.thread_step {i : ℕ} (h : Known surroundings choices w)
    (hrun : exec World.step (World.start surroundings) choices = some w)
    (hstep : w.step (.thread i) = some w') : Known surroundings (choices ++ [.thread i]) w' := by
  obtain ⟨q, n, cause, pending, hruns, hprovenance, haccounts⟩ := h
  obtain ⟨u, u', s', hi, ha, rfl⟩ := step_thread_iff.mp hstep
  obtain ⟨owed, hcall, -⟩ := haccounts.owed i u hi
  obtain ⟨o, hhead, rfl, -⟩ := hcall.advance ha
  have ho : w.performs (.thread i) = some o := by simp [World.performs, hi, hhead]
  have hothers : o.ByOthers := byOthers_of_exec hrun ho
  refine ⟨q, n, cause, pending, hruns, ?_, ?_⟩
  · apply (hprovenance.snoc _).other hothers
    rintro k requestId payload rfl
    exact entered_of_performs hrun ho
  · rw [calls_snoc hrun]
    have htasks : (interp o w.session).2.tasks = w.session.tasks := by
      apply tasks_interp
      rintro t rfl
      simp [Op.ByOthers, Op.OfRequest, Op.OfLeave, Op.OfTask] at hothers
    exact haccounts.thread hrun hprovenance.inbox (Errand.bound_le q n) hi ha htasks

theorem Known.step (h : Known surroundings choices w)
    (hrun : exec World.step (World.start surroundings) choices = some w)
    (hstep : w.step l = some w') : Known surroundings (choices ++ [l]) w' := by
  cases l with
  | receiver => exact h.receiver_step hrun hstep
  | thread i => exact h.thread_step hrun hstep
  | request operation =>
    cases hstep
    obtain ⟨q, n, cause, pending, hruns, hprovenance, haccounts⟩ := h
    refine ⟨q, n, cause, pending, hruns, hprovenance.snoc _, ?_⟩
    rw [calls_quiet hrun (by simp)]
    exact (haccounts.snoc _).newThread (Thread.mayCall_operation operation) rfl
  | leave =>
    cases hstep
    obtain ⟨q, n, cause, pending, hruns, hprovenance, haccounts⟩ := h
    refine ⟨q, n, cause, pending, hruns, hprovenance.snoc _, ?_⟩
    rw [calls_quiet hrun (by simp)]
    exact (haccounts.snoc _).newThread Thread.mayCall_leave rfl
  | work =>
    obtain ⟨t, tasks, htasks, rfl⟩ := step_work_iff.mp hstep
    obtain ⟨q, n, cause, pending, hruns, hprovenance, haccounts⟩ := h
    obtain ⟨cause', pending', haccounts'⟩ := (haccounts.snoc .work).work htasks
    have hlater := hprovenance.snoc .work
    refine ⟨q, n, cause', pending', hruns, hlater.of_eq rfl rfl rfl rfl hlater.errand, ?_⟩
    rw [calls_quiet hrun (by simp)]
    exact haccounts'

theorem known_of_exec (hrun : exec World.step (World.start surroundings) choices = some w) :
    Known surroundings choices w := by
  induction choices using List.reverseRecOn generalizing w with
  | nil =>
    cases hrun
    exact known_start surroundings
  | append_singleton choices l ih =>
    obtain ⟨v, hv, hstep⟩ := exec_snoc_iff.mp hrun
    exact (ih hv).step hv hstep

/-- Every call of a handler is made by a worker of its own, for a message that no other call is made for
and in the order of the messages, and the handler is that of an operation which an earlier message has
answered. -/
theorem handler_calls_have_causes (surroundings : Surroundings P E) (choices : List (Choice P E)) (w : World P E)
    (hrun : exec World.step (World.start surroundings) choices = some w) :
    ∃ cause : ℕ → ℕ, ((calls surroundings choices).map Prod.fst).Nodup ∧
      (∀ x ∈ calls surroundings choices, ∀ y ∈ calls surroundings choices, x.1 < y.1 → cause x.1 < cause y.1) ∧
      ∀ x ∈ calls surroundings choices, Called surroundings choices (cause x.1) x := by
  obtain ⟨q, n, cause, pending, -, -, haccounts⟩ := known_of_exec hrun
  refine ⟨cause, haccounts.once, ?_, fun x hx => (haccounts.caused x hx).2⟩
  intro x hx y hy hlt
  obtain ⟨⟨t, ht, hworker⟩, -⟩ := haccounts.caused x hx
  obtain ⟨⟨u, hu, hworker'⟩, -⟩ := haccounts.caused y hy
  exact haccounts.ordered x.1 y.1 t u ht hu hworker hworker' hlt

def crossedSurroundings : Surroundings Bool Unit :=
  .receiving [.message (.registered 1 9), .message (.registered 2 10),
      .message (.invocation 5 10 [] [] []), .message (.invocation 6 9 [] [] [])]

def crossedChoices : List (Choice Bool Unit) :=
  [.request (.register (ascii "com.example.first") ⟨some true⟩ []),
    .request (.register (ascii "com.example.second") ⟨some false⟩ [])] ++
    List.replicate 4 (.thread 0) ++ List.replicate 4 (.thread 1) ++ List.replicate 21 .receiver ++
    [.work, .work, .thread 3, .thread 2]

theorem handler_calls_have_causes_crossed : ∃ w : World Bool Unit,
    exec World.step (World.start crossedSurroundings) crossedChoices = some w ∧
      calls crossedSurroundings crossedChoices =
        [(3, .procedure true ⟨[], [], []⟩), (2, .procedure false ⟨[], [], []⟩)] ∧
      ∃ cause : ℕ → ℕ, ((calls crossedSurroundings crossedChoices).map Prod.fst).Nodup ∧
        (∀ x ∈ calls crossedSurroundings crossedChoices, ∀ y ∈ calls crossedSurroundings crossedChoices,
          x.1 < y.1 → cause x.1 < cause y.1) ∧
        ∀ x ∈ calls crossedSurroundings crossedChoices,
          Called crossedSurroundings crossedChoices (cause x.1) x :=
  ⟨_, rfl, rfl, handler_calls_have_causes crossedSurroundings crossedChoices _ rfl⟩

end Run

end XconnCpp.Sessions

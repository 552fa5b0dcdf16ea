import XconnCpp.PooledSessions

namespace XconnCpp.Sessions

open Library Library.Program Library.Program.Prog Library.Transition Values
open Urls (TransportKind)
open Pool (ThreadPool Ledger Job Carried)

variable {P E : Type} {n : ℕ}

section Statements

def IsEvent (surroundings : Surroundings P E) (b : ℕ) (id : UInt64) : Prop :=
  ∃ args kwargs details, surroundings.inbox[b]? = some (.message (.event id args kwargs details))

namespace Pooled

def enters (total : ℕ) (p : Pooled n P E) : PooledChoice n P E → List (ℕ × Task P E)
  | .pool (.caller ()) =>
    match p.pool.callers (), p.world.receiver with
    | some (.emplacing _), .op (.enqueue t) _ => [(total - p.world.session.inbox.length - 1, t)]
    | _, _ => []
  | _ => []

def entered (transport : TransportKind) (surroundings : Surroundings P E)
    (choices : List (PooledChoice n P E)) : List (ℕ × Task P E) :=
  observe step (enters surroundings.inbox.length) (start transport surroundings) choices

def Calls (p : Pooled n P E) (l : PooledChoice n P E) (k : ℕ) (c : HandlerCall P E) : Prop :=
  ∃ i code j, l = .pool (.worker i) ∧ p.pool.workers i = .running ⟨k, code⟩ ∧
    p.due (.worker i) = some (.world (.thread j)) ∧
    (p.world.performs (.thread j)).bind Op.handlerCall = some c

/-- The EVENT is looked up while `subscriptions_` has no entry for it. -/
def Misses (surroundings : Surroundings P E) (p : Pooled n P E) (b : ℕ) (id : UInt64) : Prop :=
  p.world.session.inbox = surroundings.inbox.drop (b + 1) ∧
    p.world.performs .receiver = some (.findSubscription id.toInt64 false) ∧
    p.world.session.subscriptions.lookup id = none

def Ignored (transport : TransportKind) (surroundings : Surroundings P E)
    (choices : List (PooledChoice n P E)) (b : ℕ) (id : UInt64) : Prop :=
  ∃ before after u, choices = before ++ .session (.world .receiver) :: after ∧
    exec step (start transport surroundings) before = some u ∧ u.Misses surroundings b id

/-- The first step of a job, which for an EVENT is the evaluation of `handler->operator()(event)`; it throws
where the handler has been emptied. -/
def Begins (p : Pooled n P E) (l : PooledChoice n P E) (k : ℕ) : Prop :=
  ∃ i, l = .pool (.worker i) ∧ p.pool.workers i = .running ⟨k, steps 2⟩

def Evaluated (log : List (ℕ × Task P E)) (p : Pooled n P E) (b : ℕ) : Prop :=
  ∃ k t, log[k]? = some (b, t) ∧ (k, ()) ∈ p.pool.performed

def Held (log : List (ℕ × Task P E)) (p : Pooled n P E) (b : ℕ) : Prop :=
  ∃ k t i, log[k]? = some (b, t) ∧ p.pool.jobs i = some ⟨k, steps 2⟩

def SameSubscription (surroundings : Surroundings P E) (log : List (ℕ × Task P E)) (j k : ℕ) : Prop :=
  ∃ b c id t t', log[j]? = some (b, t) ∧ log[k]? = some (c, t') ∧ IsEvent surroundings b id ∧
    IsEvent surroundings c id

/-- A worker takes the task of an EVENT while another has that of another EVENT of the subscription and has
not begun it. -/
def Overtakes (surroundings : Surroundings P E) (log : List (ℕ × Task P E)) (p : Pooled n P E)
    (l : PooledChoice n P E) : Prop :=
  ∃ i i' j job rest, l = .pool (.worker i) ∧ p.pool.workers i = .taking ∧ p.pool.tasks = job :: rest ∧
    p.pool.jobs i' = some ⟨j, steps 2⟩ ∧ SameSubscription surroundings log j job.number

def EventsInOrder (transport : TransportKind) (surroundings : Surroundings P E)
    (choices : List (PooledChoice n P E)) (p : Pooled n P E) : Prop :=
  ∀ b c id, b < c → IsEvent surroundings b id → IsEvent surroundings c id →
    Evaluated (entered transport surroundings choices) p c →
    Evaluated (entered transport surroundings choices) p b ∨ Ignored transport surroundings choices b id

structure FollowsReceipt (transport : TransportKind) (surroundings : Surroundings P E)
    (choices : List (PooledChoice n P E)) (p : Pooled n P E) : Prop where
  received : ((entered transport surroundings choices).map Prod.fst).Pairwise (· < ·)
  made : ∀ x ∈ entered transport surroundings choices, MadeOf surroundings x.1 x.2
  taken : p.pool.taken = List.range p.pool.taken.length
  called : Along step (fun u l => ∀ k c, u.Calls l k c ↔ u.Begins l k ∧
    ∃ b t, (entered transport surroundings choices)[k]? = some (b, t) ∧ t.call = some c)
    (start transport surroundings) choices
  overtaken : ∀ b c id, b < c → IsEvent surroundings b id → IsEvent surroundings c id →
    Evaluated (entered transport surroundings choices) p c →
    Evaluated (entered transport surroundings choices) p b ∨
      Held (entered transport surroundings choices) p b ∨ Ignored transport surroundings choices b id

end Pooled

end Statements

section Reading

variable {surroundings : Surroundings P E} {ignored ignored' : ℕ → UInt64 → Prop}
  {log : List (ℕ × Task P E)} {s : Session P E} {q : Errand P E} {m b : ℕ} {id : UInt64}

def Errand.Reads (surroundings : Surroundings P E) (m : ℕ) : Errand P E → Prop
  | .none => True
  | .message msg => ∃ a, m = a + 1 ∧ surroundings.inbox[a]? = some (.message msg)
  | .granting msg _ _ => ∃ a, m = a + 1 ∧ surroundings.inbox[a]? = some (.message msg) ∧ msg.answers.isSome
  | .dispatching t => ∃ a, m = a + 1 ∧ MadeOf surroundings a t

structure Received (surroundings : Surroundings P E) (ignored : ℕ → UInt64 → Prop)
    (log : List (ℕ × Task P E)) (s : Session P E) (q : Errand P E) (m : ℕ) : Prop where
  inbox : s.inbox = surroundings.inbox.drop m
  reads : q.Reads surroundings m
  increasing : (log.map Prod.fst).Pairwise (· < ·)
  below : ∀ x ∈ log, x.1 < q.bound m
  made : ∀ x ∈ log, MadeOf surroundings x.1 x.2
  complete : ∀ b id, b < q.bound m → IsEvent surroundings b id → (∃ t, (b, t) ∈ log) ∨ ignored b id

theorem Errand.Reads.not_event (h : q.Reads surroundings m) (hq : q.Settled) (hbound : q.bound m ≤ b)
    (hlt : b < m) : ¬ IsEvent surroundings b id := by
  rintro ⟨args, kwargs, details, hb⟩
  cases q with
  | none => exact absurd hlt (Nat.not_lt_of_le hbound)
  | message msg =>
    obtain ⟨a, rfl, ha⟩ := h
    obtain rfl : b = a := Nat.le_antisymm (Nat.le_of_lt_succ hlt) hbound
    obtain rfl := Inbound.message.inj (Option.some.inj (ha.symm.trans hb))
    exact hq
  | granting msg k payload =>
    obtain ⟨a, rfl, ha, hanswers⟩ := h
    obtain rfl : b = a := Nat.le_antisymm (Nat.le_of_lt_succ hlt) hbound
    obtain rfl := Inbound.message.inj (Option.some.inj (ha.symm.trans hb))
    cases hanswers
  | dispatching t => exact hq

theorem Received.settled (h : Received surroundings ignored log s q m) (hq : q.Settled) (hlt : b < m)
    (hb : IsEvent surroundings b id) : (∃ t, (b, t) ∈ log) ∨ ignored b id := by
  by_cases hbound : b < q.bound m
  · exact h.complete b id hbound hb
  · exact absurd hb (h.reads.not_event hq (Nat.le_of_not_lt hbound) hlt)

theorem Received.receive (h : Received surroundings ignored log s q m) (hq : q.Settled) :
    ∃ m', Received surroundings ignored log (interp .receive s).2
      (errandProtocol.next q .receive (interp .receive s).1) m' := by
  have hlog (x : ℕ × Task P E) (hx : x ∈ log) : x.1 < m := Nat.lt_of_lt_of_le (h.below x hx) (q.bound_le m)
  cases hi : s.inbox with
  | nil =>
    have hs : interp (.receive : Op P E) s = (.failed, s) := by simp [interp, hi]
    rw [hs]
    exact ⟨m, h.inbox, trivial, h.increasing, hlog, h.made, fun b id => h.settled hq⟩
  | cons i inbox =>
    have hs : interp (.receive : Op P E) s = (i, { s with inbox := inbox }) := by simp [interp, hi]
    obtain ⟨hm, hdrop⟩ := getElem?_of_drop (h.inbox.symm.trans hi)
    rw [hs]
    cases i with
    | message msg =>
      exact ⟨m + 1, hdrop.symm, ⟨m, rfl, hm⟩, h.increasing, hlog, h.made, fun b id => h.settled hq⟩
    | null | failed =>
      refine ⟨m + 1, hdrop.symm, trivial, h.increasing, fun x hx => Nat.lt_succ_of_lt (hlog x hx), h.made, ?_⟩
      intro b id hlt hb
      rcases Nat.lt_or_eq_of_le (Nat.le_of_lt_succ hlt) with hlt | rfl
      · exact h.settled hq hlt hb
      · obtain ⟨args, kwargs, details, hb⟩ := hb
        cases hm.symm.trans hb

theorem Received.mono (h : Received surroundings ignored log s q m)
    (hignored : ∀ b id, ignored b id → ignored' b id) : Received surroundings ignored' log s q m :=
  ⟨h.inbox, h.reads, h.increasing, h.below, h.made, fun b id hlt hb =>
    (h.complete b id hlt hb).imp_right (hignored b id)⟩

theorem Received.of_eq {t : Session P E} {q' : Errand P E} (h : Received surroundings ignored log s q m)
    (hinbox : t.inbox = s.inbox) (hq : q'.Reads surroundings m) (hbound : q'.bound m = q.bound m) :
    Received surroundings ignored log t q' m :=
  ⟨hinbox.trans h.inbox, hq, h.increasing, hbound.symm ▸ h.below, h.made, hbound.symm ▸ h.complete⟩

theorem Received.done {t : Session P E} (h : Received surroundings ignored log s q (b + 1))
    (hbound : q.bound (b + 1) = b) (hinbox : t.inbox = s.inbox)
    (hdone : ∀ id, IsEvent surroundings b id → (∃ t, (b, t) ∈ log) ∨ ignored b id) :
    Received surroundings ignored log t .none (b + 1) := by
  refine ⟨hinbox.trans h.inbox, trivial, h.increasing, fun x hx => ?_, h.made, fun b' id hlt hb => ?_⟩
  · exact Nat.lt_succ_of_lt (hbound ▸ h.below x hx)
  · rcases Nat.lt_or_eq_of_le (Nat.le_of_lt_succ hlt) with hlt | rfl
    · exact h.complete b' id (hbound.symm ▸ hlt) hb
    · exact hdone id hb

theorem Received.findRegistration {i : Int64} (h : Received surroundings ignored log s q m)
    (hallows : errandProtocol.allows q (.findRegistration i false : Op P E)) :
    Received surroundings ignored log (interp (.findRegistration i false) s).2
      (errandProtocol.next q (.findRegistration i false) (interp (.findRegistration i false) s).1) m := by
  obtain ⟨requestId, registrationId, args, kwargs, details, rfl, -⟩ := hallows
  obtain ⟨b, rfl, hb⟩ := h.reads
  cases hfound : (interp (.findRegistration i false) s).1 with
  | none =>
    refine h.done rfl rfl fun id ⟨_, _, _, hevent⟩ => ?_
    cases hb.symm.trans hevent
  | some handler => exact h.of_eq rfl ⟨b, rfl, registrationId, args, kwargs, details, hb, rfl⟩ rfl

theorem Received.findSubscription {i : Int64} (h : Received surroundings ignored log s q m)
    (hallows : errandProtocol.allows q (.findSubscription i false : Op P E))
    (hmiss : ∀ b id, i = id.toInt64 → s.subscriptions.lookup id = none →
      s.inbox = surroundings.inbox.drop (b + 1) → ignored b id) :
    Received surroundings ignored log (interp (.findSubscription i false) s).2
      (errandProtocol.next q (.findSubscription i false) (interp (.findSubscription i false) s).1) m := by
  obtain ⟨id, args, kwargs, details, rfl, hid⟩ := hallows
  obtain ⟨b, rfl, hb⟩ := h.reads
  obtain rfl : i = id.toInt64 := by rw [← hid, Int64.toInt64_toUInt64]
  cases hfound : (interp (.findSubscription id.toInt64 false) s).1 with
  | none =>
    refine h.done rfl rfl fun id' ⟨_, _, _, hevent⟩ => ?_
    cases hb.symm.trans hevent
    have hnone : s.subscriptions.lookup id = none := by
      rw [← findFromMap_fst]
      exact hfound
    exact .inr (hmiss b id rfl hnone h.inbox)
  | some handler => exact h.of_eq rfl ⟨b, rfl, id, args, kwargs, details, hb, rfl⟩ rfl

theorem Received.own {o : Op P E} (h : Received surroundings ignored log s q m)
    (hallows : errandProtocol.allows q o) (henqueue : ∀ t, o ≠ .enqueue t)
    (hmiss : ∀ b id, o = .findSubscription id.toInt64 false → s.subscriptions.lookup id = none →
      s.inbox = surroundings.inbox.drop (b + 1) → ignored b id) :
    ∃ m', Received surroundings ignored log (interp o s).2 (errandProtocol.next q o (interp o s).1) m' := by
  cases o with
  | nextId | emplaceRequest => exact hallows.elim
  | enqueue t => exact absurd rfl (henqueue t)
  | receive => exact h.receive hallows
  | findRequest k i =>
    obtain ⟨msg, rfl, hanswers⟩ := hallows
    obtain ⟨b, rfl, hb⟩ := h.reads
    cases hfound : (interp (.findRequest k i) s).1 with
    | none => exact ⟨b + 1, h.of_eq rfl ⟨b, rfl, hb⟩ rfl⟩
    | some r => exact ⟨b + 1, h.of_eq rfl ⟨b, rfl, hb, by simp [hanswers]⟩ rfl⟩
  | findRegistration i erase =>
    cases erase with
    | true => exact ⟨m, h.of_eq rfl h.reads rfl⟩
    | false => exact ⟨m, h.findRegistration hallows⟩
  | findSubscription i erase =>
    cases erase with
    | true => exact ⟨m, h.of_eq rfl h.reads rfl⟩
    | false => exact ⟨m, h.findSubscription hallows fun b id hi => hmiss b id (by rw [hi])⟩
  | _ => exact ⟨m, h.of_eq rfl h.reads rfl⟩

theorem MadeOf.lt {t : Task P E} (h : MadeOf surroundings b t) : b < surroundings.inbox.length := by
  cases t with
  | procedure =>
    obtain ⟨_, _, _, _, hb, -⟩ := h
    exact (List.getElem?_eq_some_iff.mp hb).1
  | event =>
    obtain ⟨_, _, _, _, hb, -⟩ := h
    exact (List.getElem?_eq_some_iff.mp hb).1

theorem Received.enqueue {t : Task P E} {session : Session P E}
    (h : Received surroundings ignored log s (.dispatching t) m) (hinbox : session.inbox = s.inbox) :
    Received surroundings ignored (log ++ [(surroundings.inbox.length - s.inbox.length - 1, t)]) session
      .none m := by
  obtain ⟨b, rfl, hmade⟩ := h.reads
  have hlt := hmade.lt
  have hindex : surroundings.inbox.length - s.inbox.length - 1 = b := by
    rw [h.inbox, List.length_drop]
    omega
  rw [hindex]
  have hbelow (x : ℕ × Task P E) (hx : x ∈ log) : x.1 < b := h.below x hx
  refine ⟨hinbox.trans h.inbox, trivial, ?_, fun x hx => ?_, fun x hx => ?_, fun b' id hlt hb => ?_⟩
  · rw [List.map_append, List.pairwise_append]
    refine ⟨h.increasing, List.pairwise_singleton _ _, fun a ha c hc => ?_⟩
    obtain ⟨x, hx, rfl⟩ := List.mem_map.mp ha
    obtain rfl := List.mem_singleton.mp hc
    exact hbelow x hx
  · rcases List.mem_append.mp hx with hx | hx
    · exact Nat.lt_succ_of_lt (hbelow x hx)
    · obtain rfl := List.mem_singleton.mp hx
      exact Nat.lt_succ_self b
  · rcases List.mem_append.mp hx with hx | hx
    · exact h.made x hx
    · obtain rfl := List.mem_singleton.mp hx
      exact hmade
  · rcases Nat.lt_or_eq_of_le (Nat.le_of_lt_succ hlt) with hlt | rfl
    · exact (h.complete b' id hlt hb).imp_left fun ⟨t, ht⟩ => ⟨t, List.mem_append_left _ ht⟩
    · exact .inl ⟨t, List.mem_append_right _ List.mem_cons_self⟩

end Reading

section Working

variable {log : List (ℕ × Task P E)} {tasks : List (Task P E)} {started : List ℕ} {ledger : Ledger Unit}
  {threads : List (Thread P E)} {w w' : World P E} {l : Choice P E} {t : Task P E} {o : Op P E} {k j : ℕ}

theorem call_of_head {c : HandlerCall P E} (ho : t.code.head? = some o) (hc : o.handlerCall = some c) :
    t.call = some c := by
  have howing := owing_code t
  obtain ⟨next, hcode⟩ := head?_eq_some_iff.mp ho
  rw [hcode] at howing
  exact howing.1 c hc

theorem head_of_call {c : HandlerCall P E} (hc : t.call = some c) :
    ∃ o, t.code.head? = some o ∧ o.handlerCall = some c := by
  cases t with
  | procedure handler invocation requestId =>
    obtain ⟨f, hf, rfl⟩ := Option.map_eq_some_iff.mp hc
    rw [code_of_target hf]
    exact ⟨_, rfl, rfl⟩
  | event handler e =>
    obtain ⟨f, hf, rfl⟩ := Option.map_eq_some_iff.mp hc
    rw [event_code_of_target hf]
    exact ⟨_, rfl, rfl⟩

theorem quiet_after_first {next : Res o → Code P E Unit} (hcode : t.code = .op o next) (r : Res o) :
    (next r).Uses fun o => o.handlerCall = none := by
  have hreply (requestId : UInt64) (outcome : HandlerOutcome) :
      (replyTo requestId outcome : Code P E Unit).Uses fun o => o.handlerCall = none := by
    cases outcome <;> simp [replyTo, transmit, Op.handlerCall]
  cases t with
  | procedure handler invocation requestId =>
    cases ht : handler.target with
    | none =>
      rw [code_of_empty ht] at hcode
      cases hcode
      trivial
    | some f =>
      rw [code_of_target ht] at hcode
      cases hcode
      exact hreply requestId r
  | event handler e =>
    cases ht : handler.target with
    | none =>
      rw [event_code_of_empty ht] at hcode
      cases hcode
    | some f =>
      rw [event_code_of_target ht] at hcode
      cases hcode
      trivial

def Underway (t : Task P E) (begun : Prop) (rest : Code P E Unit) : Prop :=
  (¬ begun → rest = t.code) ∧ (begun → rest.Uses fun o => o.handlerCall = none)

theorem Underway.perform {begun : Prop} {next : Res o → Code P E Unit} (h : Underway t begun (.op o next))
    (r : Res o) : (next r).Uses fun o => o.handlerCall = none := by
  by_cases hbegun : begun
  · exact (h.2 hbegun).2 r
  · exact quiet_after_first (h.1 hbegun).symm r

structure Worked (log : List (ℕ × Task P E)) (threads : List (Thread P E)) (tasks : List (Task P E))
    (started : List ℕ) (ledger : Ledger Unit) : Prop where
  length : log.length = ledger.enqueued
  queue : tasks = (log.drop started.length).map Prod.snd
  nodup : started.Nodup
  below : ∀ j ∈ started, j < threads.length
  submitted : ∀ task ∈ ledger.submitted, task = steps 2
  underway : ∀ k j x, log[k]? = some x → started[k]? = some j → ∃ rest, threads[j]? = some (.worker rest) ∧
    Underway x.2 ((k, ()) ∈ ledger.performed) rest

namespace Worked

theorem start :
    Worked ([] : List (ℕ × Task P E)) [] [] [] (ThreadPool.start : ThreadPool n Unit Unit).toLedger :=
  ⟨rfl, rfl, List.nodup_nil, by simp, by simp [ThreadPool.start], by simp⟩

theorem step (h : Worked log w.threads w.session.tasks started ledger) (hstep : w.step l = some w')
    (hl : ∀ i t, l = .thread i → w.threads[i]? = some t → t.isWorker = false)
    (htasks : w'.session.tasks = w.session.tasks) :
    Worked log w'.threads w'.session.tasks started ledger := by
  refine ⟨h.length, htasks.trans h.queue, h.nodup, fun j hj => lt_length_of_step hstep (h.below j hj),
    h.submitted, fun k j x hx hj => ?_⟩
  obtain ⟨rest, hrest, hunderway⟩ := h.underway k j x hx hj
  rcases thread_of_step hstep hrest with hsame | ⟨rfl, -⟩
  · exact ⟨rest, hsame, hunderway⟩
  · cases hl j _ rfl hrest

theorem emplace {x : ℕ × Task P E} (h : Worked log threads tasks started ledger)
    (hle : started.length ≤ log.length) :
    Worked (log ++ [x]) threads (tasks ++ [x.2]) started (ledger.emplace (steps 2)) where
  length := by simp [Ledger.emplace, h.length]
  queue := by simp [h.queue, List.drop_append_of_le_length hle]
  nodup := h.nodup
  below := h.below
  submitted task htask := by
    rcases List.mem_append.mp htask with htask | htask
    · exact h.submitted task htask
    · exact List.mem_singleton.mp htask
  underway k j y hy hj := by
    have hk : k < started.length := (List.getElem?_eq_some_iff.mp hj).1
    rw [List.getElem?_append_left (hk.trans_le hle)] at hy
    exact h.underway k j y hy hj

theorem take (h : Worked log threads (t :: tasks) started ledger)
    (hfresh : (started.length, ()) ∉ ledger.performed) {ledger' : Ledger Unit}
    (henqueued : ledger'.enqueued = ledger.enqueued) (hsubmitted : ledger'.submitted = ledger.submitted)
    (hperformed : ledger'.performed = ledger.performed) :
    Worked log (threads ++ [.worker t.code]) tasks (started ++ [threads.length]) ledger' := by
  have hqueue := h.queue
  cases hdrop : log.drop started.length with
  | nil =>
    rw [hdrop] at hqueue
    cases hqueue
  | cons x rest =>
    rw [hdrop] at hqueue
    obtain ⟨rfl, rfl⟩ := List.cons.inj hqueue
    obtain ⟨hx, hrest⟩ := getElem?_of_drop hdrop
    refine ⟨h.length.trans henqueued.symm, ?_, ?_, fun j hj => ?_, hsubmitted ▸ h.submitted,
      fun k j y hy hj => ?_⟩
    · rw [List.length_append, List.length_singleton, hrest]
    · have hnew : threads.length ∉ started := fun hmem => Nat.lt_irrefl _ (h.below _ hmem)
      simpa using List.Nodup.concat hnew h.nodup
    · rw [List.length_append, List.length_singleton]
      rcases List.mem_append.mp hj with hj | hj
      · exact Nat.lt_succ_of_lt (h.below j hj)
      · obtain rfl := List.mem_singleton.mp hj
        exact Nat.lt_succ_self _
    · rw [hperformed]
      rcases getElem?_concat_cases hj with hj | ⟨rfl, rfl⟩
      · obtain ⟨rest', hrest', hunderway⟩ := h.underway k j y hy hj
        refine ⟨rest', ?_, hunderway⟩
        rw [List.getElem?_append_left (List.getElem?_eq_some_iff.mp hrest').1]
        exact hrest'
      · obtain rfl := Option.some.inj (hx.symm.trans hy)
        exact ⟨x.2.code, by simp, fun _ => rfl, fun hbegun => absurd hbegun hfresh⟩

theorem finish (h : Worked log threads tasks started ledger) (k : ℕ) :
    Worked log threads tasks started { ledger with finished := ledger.finished ++ [k] } :=
  ⟨h.length, h.queue, h.nodup, h.below, h.submitted, h.underway⟩

theorem mem_perform {k k' : ℕ} (hk : k' ≠ k) :
    (k', ()) ∈ ledger.performed ++ [(k, ())] ↔ (k', ()) ∈ ledger.performed := by
  simp [hk]

theorem idle (h : Worked log threads tasks started ledger)
    (hidle : ∀ j t, started[k]? = some j → threads[j]? = some t → t.head? = none) :
    Worked log threads tasks started { ledger with performed := ledger.performed ++ [(k, ())] } := by
  refine ⟨h.length, h.queue, h.nodup, h.below, h.submitted, fun k' j x hx hj => ?_⟩
  obtain ⟨rest, hrest, hunderway⟩ := h.underway k' j x hx hj
  refine ⟨rest, hrest, ?_⟩
  by_cases hk : k' = k
  · subst hk
    refine ⟨fun hnot => absurd (List.mem_append_right _ List.mem_cons_self) hnot, fun _ => ?_⟩
    have hhead : rest.head? = none := hidle j _ hj hrest
    cases rest with
    | op o next => cases hhead
    | _ => trivial
  · exact ⟨fun hnot => hunderway.1 (mt (mem_perform hk).mpr hnot), fun hbegun =>
      hunderway.2 ((mem_perform hk).mp hbegun)⟩

theorem perform (h : Worked log w.threads w.session.tasks started ledger) (hj : started[k]? = some j)
    (hstep : w.step (.thread j) = some w') (htasks : w'.session.tasks = w.session.tasks) :
    Worked log w'.threads w'.session.tasks started
      { ledger with performed := ledger.performed ++ [(k, ())] } := by
  refine ⟨h.length, htasks.trans h.queue, h.nodup, fun j hj => lt_length_of_step hstep (h.below j hj),
    h.submitted, fun k' j' x hx hj' => ?_⟩
  obtain ⟨rest, hrest, hunderway⟩ := h.underway k' j' x hx hj'
  by_cases hk : k' = k
  · subst hk
    obtain rfl := Option.some.inj (hj.symm.trans hj')
    obtain ⟨t, t', s, ht, ha, rfl⟩ := step_thread_iff.mp hstep
    obtain rfl := Option.some.inj (hrest.symm.trans ht)
    obtain ⟨⟨rest', s'⟩, hadvance, he⟩ := Option.map_eq_some_iff.mp ha
    cases he
    obtain ⟨o, next, rfl, rfl, -⟩ := advance_iff.mp hadvance
    refine ⟨next (interp o w.session).1, ?_, fun hnot => ?_, fun _ => hunderway.perform _⟩
    · exact List.getElem?_set_self (List.getElem?_eq_some_iff.mp hrest).1
    · exact absurd (List.mem_append_right _ List.mem_cons_self) hnot
  · have hne : j' ≠ j := by
      rintro rfl
      have hlt := (List.getElem?_eq_some_iff.mp hj').1
      exact hk ((List.getElem?_inj hlt h.nodup).mp (hj'.trans hj.symm))
    rcases thread_of_step hstep hrest with hsame | ⟨he, -⟩
    · exact ⟨rest, hsame, fun hnot => hunderway.1 (mt (mem_perform hk).mpr hnot), fun hbegun =>
        hunderway.2 ((mem_perform hk).mp hbegun)⟩
    · exact absurd (Choice.thread.inj he).symm hne

end Worked

end Working

namespace Pooled

section Steps

variable {surroundings : Surroundings P E} {ignored : ℕ → UInt64 → Prop} {log : List (ℕ × Task P E)}
  {p p' : Pooled n P E} {l : PooledChoice n P E} {q : Errand P E} {m total : ℕ} {w : World P E}

theorem enters_of_idle (hl : l = .pool (.caller ()) → ∀ task, p.pool.callers () ≠ some (.emplacing task)) :
    p.enters total l = [] := by
  unfold enters
  split
  · split
    next hcaller _ => exact absurd hcaller (hl rfl _)
    next => rfl
  · rfl

theorem enters_of_emplace {t : Task P E} {k : Res (.enqueue t : Op P E) → Code P E Bool}
    (hcaller : p.pool.callers () = some (.emplacing (steps 2)))
    (hreceiver : p.world.receiver = .op (.enqueue t) k) :
    p.enters total (.pool (.caller ())) = [(total - p.world.session.inbox.length - 1, t)] := by
  simp [enters, hcaller, hreceiver]

theorem received_receiver_step (hr : Received surroundings ignored log p.world.session q m)
    (hq : Runs p.world.receiver q) (hstep : p.world.step .receiver = some w)
    (hquiet : p.world.enqueues = false)
    (hmiss : ∀ b id, p.Misses surroundings b id → ignored b id) :
    ∃ q' m', Runs w.receiver q' ∧ Received surroundings ignored log w.session q' m' := by
  rcases step_receiver_iff.mp hstep with ⟨hpure, rfl⟩ | ⟨o, k, ho, rfl⟩
  · rw [hpure] at hq
    exact ⟨q, m, runs_waitRound hq, hr⟩
  · rw [ho] at hq
    have henqueue (t : Task P E) : o ≠ .enqueue t := by
      rintro rfl
      rw [World.enqueues_iff.mpr ⟨t, k, ho⟩] at hquiet
      cases hquiet
    obtain ⟨m', hr'⟩ := hr.own hq.1 henqueue fun b id he hnone hinbox =>
      hmiss b id ⟨hinbox, by simp [World.performs, ho, he], hnone⟩
    exact ⟨_, m', hq.2 _, hr'⟩

theorem Aligned.received (h : p.Aligned) (hmoves : p.Moves l p') (hq : Runs p.world.receiver q)
    (hr : Received surroundings ignored log p.world.session q m)
    (hmiss : ∀ b id, l = .session (.world .receiver) → p.Misses surroundings b id → ignored b id) :
    ∃ q' m', Runs p'.world.receiver q' ∧
      Received surroundings ignored (log ++ p.enters surroundings.inbox.length l) p'.world.session q' m' := by
  have hkeep := h.sane.world.threads
  have hsame (hreceiver : p'.world.receiver = p.world.receiver)
      (hinbox : p'.world.session.inbox = p.world.session.inbox)
      (hl : p.enters surroundings.inbox.length l = []) :
      ∃ q' m', Runs p'.world.receiver q' ∧ Received surroundings ignored
        (log ++ p.enters surroundings.inbox.length l) p'.world.session q' m' := by
    rw [hreceiver, hl, List.append_nil]
    exact ⟨q, m, hq, hr.of_eq hinbox hr.reads rfl⟩
  have hworld {c : Choice P E} {e : Ending P E} (he : p.ending.step (.world c) = some e)
      (hc : c ≠ .receiver) : e.world.receiver = p.world.receiver ∧ e.world.session.inbox = p.world.session.inbox := by
    obtain ⟨-, w, hw, rfl⟩ := Ending.step_world_iff.mp he
    exact ⟨(receiver_of_step hw).elim And.right fun hstep => absurd hstep.1 hc, inbox_of_others hw hc hkeep⟩
  cases hmoves with
  | alone c e halone he =>
    cases c with
    | world c =>
      by_cases hc : c = .receiver
      · subst hc
        obtain ⟨-, w, hw, rfl⟩ := Ending.step_world_iff.mp he
        rw [enters_of_idle (by simp), List.append_nil]
        exact received_receiver_step hr hq hw ((quiet_of_alone halone).2 rfl) fun b id => hmiss b id rfl
      · exact hsame (hworld he hc).1 (hworld he hc).2 (enters_of_idle (by simp))
    | destructor =>
      obtain ⟨o, k, hd, rfl⟩ := Ending.step_destructor_iff.mp he
      have hsilent := h.silent
      rw [Ending.Silent, hd] at hsilent
      refine hsame rfl ?_ (enters_of_idle (by simp))
      cases o with
      | receive => exact absurd rfl hsilent.1.1
      | _ => rfl
    | read =>
      obtain ⟨-, -, rfl⟩ := Ending.step_read_iff.mp he
      exact hsame rfl rfl (enters_of_idle (by simp))
    | hangUp =>
      cases he
      exact hsame rfl rfl (enters_of_idle (by simp))
  | idle l pool hl hledger hjobs => exact hsame rfl rfl (enters_of_idle hl)
  | emplace e pool t k hreceiver hcaller he hledger hjobs =>
    obtain ⟨-, w, hw, rfl⟩ := Ending.step_world_iff.mp he
    rw [enters_of_emplace hcaller hreceiver]
    rw [hreceiver] at hq
    obtain ⟨rfl, hnext⟩ := hq
    obtain rfl := receiver_step_eq hreceiver hw
    exact ⟨.none, m, hnext _, hr.enqueue rfl⟩
  | take i e pool t tasks job rest hi htasks hqueue he hledger hjobs =>
    exact hsame (hworld he (by simp)).1 (hworld he (by simp)).2 (enters_of_idle (by simp))
  | perform i e pool k m hi he hledger hjobs =>
    rcases he with ⟨rfl, -⟩ | ⟨j, -, he⟩
    · exact hsame rfl rfl (enters_of_idle (by simp))
    · exact hsame (hworld he (by simp)).1 (hworld he (by simp)).2 (enters_of_idle (by simp))
  | finish i pool k hi hledger hjobs => exact hsame rfl rfl (enters_of_idle (by simp))

theorem Aligned.taken_le (h : p.Aligned) : p.started.length ≤ p.pool.enqueued := by
  rw [h.mirrors.taken]
  have horder := congrArg List.length h.sound.accounted.order
  simp only [List.length_append, List.length_range] at horder
  omega

theorem mem_performed_iff {ledger : Ledger Unit} {k : ℕ} :
    (k, ()) ∈ ledger.performed ↔ ledger.performedBy k ≠ [] := by
  have hnonempty : ledger.performedBy k ≠ [] ↔ ∃ u, (k, u) ∈ ledger.performed := by simp [Ledger.performedBy]
  rw [hnonempty]
  constructor
  · intro h
    exact ⟨(), h⟩
  · rintro ⟨_, h⟩
    exact h

theorem Aligned.worked (h : p.Aligned) (hmoves : p.Moves l p')
    (hcarried : Carried p.pool.toLedger p.pool.jobs)
    (hw : Worked log p.world.threads p.world.session.tasks p.started p.pool.toLedger) :
    Worked (log ++ p.enters total l) p'.world.threads p'.world.session.tasks p'.started p'.pool.toLedger := by
  have hkeep := h.sane.world.threads
  cases hmoves with
  | alone c e halone he =>
    rw [enters_of_idle (by simp), List.append_nil]
    cases c with
    | world c =>
      obtain ⟨-, w, hstep, rfl⟩ := Ending.step_world_iff.mp he
      obtain ⟨hwork, hreceiver⟩ := quiet_of_alone halone
      refine hw.step hstep (fun j t hc ht => ?_) (tasks_of_step hstep hkeep hwork hreceiver)
      subst hc
      simpa [alone, ht] using halone
    | destructor =>
      obtain ⟨o, k, hd, rfl⟩ := Ending.step_destructor_iff.mp he
      have hsilent := h.silent
      rw [Ending.Silent, hd] at hsilent
      exact (tasks_interp hsilent.1.2 p.ending.world.session).symm ▸ hw
    | read =>
      obtain ⟨-, -, rfl⟩ := Ending.step_read_iff.mp he
      exact hw
    | hangUp =>
      cases he
      exact hw
  | idle l pool hl hledger hjobs =>
    rw [enters_of_idle hl, List.append_nil, hledger]
    exact hw
  | emplace e pool t k hreceiver hcaller he hledger hjobs =>
    obtain ⟨-, w, hstep, rfl⟩ := Ending.step_world_iff.mp he
    rw [enters_of_emplace hcaller hreceiver, hledger]
    obtain rfl := receiver_step_eq hreceiver hstep
    exact hw.emplace (hw.length ▸ h.taken_le)
  | take i e pool t tasks job rest hi htasks hqueue he hledger hjobs =>
    obtain ⟨-, w, hstep, rfl⟩ := Ending.step_world_iff.mp he
    obtain ⟨t', tasks', htasks', rfl⟩ := step_work_iff.mp hstep
    obtain ⟨rfl, rfl⟩ := List.cons.inj (htasks.symm.trans htasks')
    rw [htasks] at hw
    rw [enters_of_idle (by simp), List.append_nil, hledger]
    have hfresh : (p.started.length, ()) ∉ p.pool.performed := by
      rw [mem_performed_iff, not_not, ← h.next_number hqueue]
      exact (hcarried.queued job (hqueue ▸ List.mem_cons_self)).2
    exact hw.take hfresh rfl rfl rfl
  | perform i e pool k m hi he hledger hjobs =>
    rw [enters_of_idle (by simp), List.append_nil, hledger]
    rcases he with ⟨rfl, hidle⟩ | ⟨j, hj, he⟩
    · exact hw.idle hidle
    · obtain ⟨-, w, hstep, rfl⟩ := Ending.step_world_iff.mp he
      exact hw.perform hj hstep (tasks_of_step hstep hkeep (by simp) (by simp))
  | finish i pool k hi hledger hjobs =>
    rw [enters_of_idle (by simp), List.append_nil, hledger]
    exact hw.finish k

end Steps

section Jobs

variable {log : List (ℕ × Task P E)} {p p' : Pooled n P E} {l : PooledChoice n P E} {j k : ℕ} {i : Fin n}
  {c : HandlerCall P E}

theorem actions_steps (m : ℕ) : (steps m).actions = List.replicate m () := by
  induction m with
  | zero => rfl
  | succ m ih => simp [steps, Pool.Code.actions, ih, List.replicate_succ]

theorem Aligned.begun_iff (h : p.Aligned) (hcarried : Carried p.pool.toLedger p.pool.jobs)
    (hw : Worked log p.world.threads p.world.session.tasks p.started p.pool.toLedger) {job : Job Unit}
    (hi : p.pool.jobs i = some job) : (job.number, ()) ∈ p.pool.performed ↔ job.code ≠ steps 2 := by
  obtain ⟨m, hcode, -⟩ := h.mirrors.held i job hi
  obtain ⟨task, htask, hactions⟩ := hcarried.held i job hi
  obtain rfl := hw.submitted task (List.mem_of_getElem? htask)
  rw [mem_performed_iff, hcode, steps_injective.ne_iff]
  rw [hcode, actions_steps, actions_steps] at hactions
  have hlength := congrArg List.length hactions
  simp only [List.length_append, List.length_replicate] at hlength
  rw [← List.length_pos_iff_ne_nil]
  omega

theorem Aligned.evaluated_or_held (h : p.Aligned) (hcarried : Carried p.pool.toLedger p.pool.jobs)
    (hw : Worked log p.world.threads p.world.session.tasks p.started p.pool.toLedger)
    (hj : j ∈ p.pool.taken) : (j, ()) ∈ p.pool.performed ∨ ∃ i, p.pool.jobs i = some ⟨j, steps 2⟩ := by
  rcases List.mem_append.mp (h.sound.accounted.held.mem_iff.mpr hj) with hrunning | hfinished
  · obtain ⟨i, -, hi⟩ := List.mem_filterMap.mp hrunning
    obtain ⟨job, hjob, rfl⟩ := Option.map_eq_some_iff.mp hi
    by_cases hcode : job.code = steps 2
    · exact .inr ⟨i, hcode ▸ hjob⟩
    · exact .inl ((h.begun_iff hcarried hw hjob).mpr hcode)
  · obtain ⟨task, htask, hperformed⟩ := hcarried.finished j hfinished
    obtain rfl := hw.submitted task (List.mem_of_getElem? htask)
    exact .inl (mem_performed_iff.mpr (by rw [hperformed, actions_steps]; simp))

theorem Aligned.taken_of_performed (h : p.Aligned) (hcarried : Carried p.pool.toLedger p.pool.jobs)
    (hk : (k, ()) ∈ p.pool.performed) : k ∈ p.pool.taken := by
  have hlt : k < p.pool.enqueued := hcarried.below _ hk
  have hmem : k ∈ p.pool.taken ++ p.pool.tasks.map Job.number :=
    h.sound.accounted.order ▸ List.mem_range.mpr hlt
  refine (List.mem_append.mp hmem).resolve_right fun hqueued => ?_
  obtain ⟨job, hjob, rfl⟩ := List.mem_map.mp hqueued
  exact mem_performed_iff.mp hk (hcarried.queued job hjob).2

theorem Aligned.taken_of_lt (h : p.Aligned) (hjk : j < k) (hk : k ∈ p.pool.taken) : j ∈ p.pool.taken := by
  rw [h.sound.taken_eq_range, List.mem_range] at hk ⊢
  exact hjk.trans hk

theorem Aligned.calls_iff (h : p.Aligned) (hcarried : Carried p.pool.toLedger p.pool.jobs)
    (hw : Worked log p.world.threads p.world.session.tasks p.started p.pool.toLedger) :
    p.Calls l k c ↔ p.Begins l k ∧ ∃ b t, log[k]? = some (b, t) ∧ t.call = some c := by
  constructor
  · rintro ⟨i, code, j, rfl, hi, hdue, hcall⟩
    have hheld : p.pool.jobs i = some ⟨k, code⟩ := by simp [ThreadPool.jobs, hi, Pool.Worker.job]
    obtain ⟨m, rfl, j', rest, hj', hrest, -⟩ := h.mirrors.held i _ hheld
    have hlt : k < log.length := hw.length ▸ (List.getElem?_eq_some_iff.mp hj').1.trans_le h.taken_le
    obtain ⟨⟨b, t⟩, hx⟩ : ∃ x, log[k]? = some x := ⟨_, List.getElem?_eq_getElem hlt⟩
    obtain ⟨rest', hrest', hunderway⟩ := hw.underway k j' _ hx hj'
    obtain rfl := Thread.worker.inj (Option.some.inj (hrest.symm.trans hrest'))
    obtain rfl : j' = j := by
      cases m with
      | zero => simp [due, hi, steps] at hdue
      | succ m =>
        have hthread := hdue
        simp only [due, hi, steps, hj', hrest, Option.bind_eq_bind, Option.bind_some,
          Option.ite_none_right_eq_some, Option.some.injEq] at hthread
        cases hthread.2
        rfl
    obtain ⟨o, ho, hc⟩ := Option.bind_eq_some_iff.mp hcall
    have hhead : rest.head? = some o := by simpa [World.performs, hrest, Thread.head?] using ho
    have hfresh : (k, ()) ∉ p.pool.performed := by
      intro hbegun
      have hnone := (hunderway.2 hbegun).head hhead
      cases hnone.symm.trans hc
    have hcode := not_ne_iff.mp (mt (h.begun_iff hcarried hw hheld).mpr hfresh)
    refine ⟨⟨i, rfl, by rw [hi, show steps m = steps 2 from hcode]⟩, b, t, hx, call_of_head ?_ hc⟩
    rw [← hunderway.1 hfresh]
    exact hhead
  · rintro ⟨⟨i, rfl, hi⟩, b, t, hx, hcall⟩
    have hheld : p.pool.jobs i = some ⟨k, steps 2⟩ := by simp [ThreadPool.jobs, hi, Pool.Worker.job]
    have hfresh : (k, ()) ∉ p.pool.performed := fun hbegun => (h.begun_iff hcarried hw hheld).mp hbegun rfl
    obtain ⟨m, -, j, rest, hj, hrest, -⟩ := h.mirrors.held i _ hheld
    obtain ⟨rest', hrest', hunderway⟩ := hw.underway k j _ hx hj
    obtain rfl := Thread.worker.inj (Option.some.inj (hrest.symm.trans hrest'))
    obtain rfl := hunderway.1 hfresh
    obtain ⟨o, ho, hc⟩ := head_of_call hcall
    have hhead : (Thread.worker t.code : Thread P E).head? = some o := ho
    refine ⟨i, steps 2, j, rfl, hi, ?_, ?_⟩
    · simp [due, hi, steps, hj, hrest, hhead]
    · simp [World.performs, hrest, hhead, hc]

end Jobs

section Runs

variable {transport : TransportKind} {surroundings : Surroundings P E} {choices : List (PooledChoice n P E)}
  {p p' : Pooled n P E} {log : List (ℕ × Task P E)} {l : PooledChoice n P E} {b c j k : ℕ} {id : UInt64}

theorem Ignored.snoc (h : Ignored transport surroundings choices b id) (l : PooledChoice n P E) :
    Ignored transport surroundings (choices ++ [l]) b id := by
  obtain ⟨before, after, u, rfl, hu⟩ := h
  exact ⟨before, after ++ [l], u, by simp, hu⟩

theorem carried_of_exec (hrun : exec step (start transport surroundings) choices = some p) :
    Carried p.pool.toLedger p.pool.jobs :=
  ThreadPool.carried_of_exec (pool_of_exec hrun)

theorem worked_of_exec (hrun : exec step (start transport surroundings) choices = some p) :
    Worked (entered transport surroundings choices) p.world.threads p.world.session.tasks p.started
      p.pool.toLedger := by
  induction choices using List.reverseRecOn generalizing p with
  | nil =>
    cases hrun
    exact .start
  | append_singleton choices l ih =>
    obtain ⟨u, hu, hstep⟩ := exec_snoc_iff.mp hrun
    have h := aligned_of_exec hu
    rw [entered, observe_snoc hu]
    exact h.worked (h.moves hstep) (carried_of_exec hu) (ih hu)

theorem received_of_exec (hrun : exec step (start transport surroundings) choices = some p) :
    ∃ q m, Runs p.world.receiver q ∧ Received surroundings (Ignored transport surroundings choices)
      (entered transport surroundings choices) p.world.session q m := by
  induction choices using List.reverseRecOn generalizing p with
  | nil =>
    cases hrun
    refine ⟨.none, 0, runs_waitRound trivial, rfl, trivial, List.Pairwise.nil, ?_, ?_, ?_⟩
    · simp [entered, observe]
    · simp [entered, observe]
    · simp [Errand.bound]
  | append_singleton choices l ih =>
    obtain ⟨u, hu, hstep⟩ := exec_snoc_iff.mp hrun
    obtain ⟨q, m, hq, hr⟩ := ih hu
    have h := aligned_of_exec hu
    rw [entered, observe_snoc hu]
    refine h.received (h.moves hstep) hq (hr.mono fun b id hb => hb.snoc l) fun b id hl hmisses => ?_
    exact ⟨choices, [], u, by rw [hl], hu, hmisses⟩

theorem entered_of_shorter {before after : List (PooledChoice n P E)} {u : Pooled n P E}
    (hu : exec step (start transport surroundings) before = some u) (hk : k < u.started.length) :
    (entered transport surroundings (before ++ after))[k]? = (entered transport surroundings before)[k]? := by
  have hlt : k < (entered transport surroundings before).length :=
    (worked_of_exec hu).length ▸ hk.trans_le (aligned_of_exec hu).taken_le
  rw [entered, observe_append hu]
  exact List.getElem?_append_left hlt

theorem Aligned.lt_of_begins (h : p.Aligned) (hbegins : p.Begins l k) : k < p.started.length := by
  obtain ⟨i, -, hi⟩ := hbegins
  have hheld : p.pool.jobs i = some ⟨k, steps 2⟩ := by simp [ThreadPool.jobs, hi, Pool.Worker.job]
  obtain ⟨m, -, j, rest, hj, -⟩ := h.mirrors.held i _ hheld
  exact (List.getElem?_eq_some_iff.mp hj).1

theorem called_of_exec (hrun : exec step (start transport surroundings) choices = some p) :
    Along step (fun u l => ∀ k c, u.Calls l k c ↔ u.Begins l k ∧
      ∃ b t, (entered transport surroundings choices)[k]? = some (b, t) ∧ t.call = some c)
      (start transport surroundings) choices := by
  rintro before l after u rfl hu k c
  have h := aligned_of_exec hu
  rw [h.calls_iff (carried_of_exec hu) (worked_of_exec hu)]
  refine and_congr_right fun hbegins => ?_
  rw [entered_of_shorter hu (h.lt_of_begins hbegins)]

theorem entered_before {q : Errand P E} {m : ℕ} {s : Session P E} {ignored : ℕ → UInt64 → Prop} {t : Task P E}
    (h : Received surroundings ignored log s q m) (hbc : b < c) (hb : IsEvent surroundings b id)
    (hc : IsEvent surroundings c id) (hk : log[k]? = some (c, t)) :
    ignored b id ∨ ∃ j t', j < k ∧ log[j]? = some (b, t') ∧ SameSubscription surroundings log j k := by
  have hbound : c < q.bound m := h.below _ (List.mem_of_getElem? hk)
  rcases h.complete b id (hbc.trans hbound) hb with ⟨t', ht'⟩ | hignored
  · right
    obtain ⟨j, hj⟩ := List.mem_iff_getElem?.mp ht'
    refine ⟨j, t', ?_, hj, b, c, id, t', t, hj, hk, hb, hc⟩
    obtain ⟨hjlt, hjget⟩ := List.getElem?_eq_some_iff.mp hj
    obtain ⟨hklt, hkget⟩ := List.getElem?_eq_some_iff.mp hk
    rcases Nat.lt_trichotomy j k with hjk | rfl | hkj
    · exact hjk
    · obtain ⟨rfl, -⟩ := Prod.mk.inj (Option.some.inj (hj.symm.trans hk))
      exact absurd hbc (Nat.lt_irrefl _)
    · have hlt := List.pairwise_iff_getElem.mp h.increasing k j (by simpa using hklt) (by simpa using hjlt)
        hkj
      simp only [List.getElem_map, hkget, hjget] at hlt
      exact absurd hbc (Nat.lt_asymm hlt)
  · exact .inl hignored

def InTurn (surroundings : Surroundings P E) (log : List (ℕ × Task P E)) (p : Pooled n P E) : Prop :=
  ∀ j k, j < k → SameSubscription surroundings log j k → k ∈ p.pool.taken → (j, ()) ∈ p.pool.performed

theorem InTurn.step (hturn : InTurn surroundings log p) (h : p.Aligned)
    (hcarried : Carried p.pool.toLedger p.pool.jobs)
    (hw : Worked (entered transport surroundings choices) p.world.threads p.world.session.tasks p.started
      p.pool.toLedger) (hl : ¬ p.Overtakes surroundings log l) (hstep : p.step l = some p') :
    InTurn surroundings log p' := by
  intro j k hjk hsame hk
  cases h.moves hstep with
  | alone => exact hturn j k hjk hsame hk
  | idle _ pool _ hledger =>
    rw [hledger] at hk ⊢
    exact hturn j k hjk hsame hk
  | emplace e pool t k' _ _ _ hledger =>
    rw [hledger] at hk ⊢
    exact hturn j k hjk hsame hk
  | take i e pool t tasks job rest hi htasks hqueue he hledger =>
    rw [hledger] at hk ⊢
    rcases List.mem_append.mp hk with hk | hk
    · exact hturn j k hjk hsame hk
    · obtain rfl := List.mem_singleton.mp hk
      have hj : j ∈ p.pool.taken := by
        rw [h.sound.taken_eq_range, List.mem_range, ← h.mirrors.taken, ← h.next_number hqueue]
        exact hjk
      refine (h.evaluated_or_held hcarried hw hj).resolve_right fun ⟨i', hheld⟩ => ?_
      exact hl ⟨i, i', j, job, rest, rfl, hi, hqueue, hheld, hsame⟩
  | perform i e pool k' m hi he hledger =>
    rw [hledger] at hk ⊢
    exact List.mem_append_left _ (hturn j k hjk hsame hk)
  | finish i pool k' hi hledger =>
    rw [hledger] at hk ⊢
    exact hturn j k hjk hsame hk

theorem inTurn_of_exec (hrun : exec step (start transport surroundings) choices = some p)
    (hturn : Along step (fun u l => ¬ u.Overtakes surroundings log l) (start transport surroundings)
      choices) : InTurn surroundings log p := by
  induction choices using List.reverseRecOn generalizing p with
  | nil =>
    cases hrun
    intro j k _ _ hk
    cases hk
  | append_singleton choices l ih =>
    obtain ⟨u, hu, hstep⟩ := exec_snoc_iff.mp hrun
    obtain ⟨hturn, hl⟩ := (along_snoc_iff hu).mp hturn
    exact (ih hu hturn).step (aligned_of_exec hu) (carried_of_exec hu) (worked_of_exec hu) hl hstep

theorem not_overtakes_of_le_one (hn : n ≤ 1) : ¬ p.Overtakes surroundings log l := by
  rintro ⟨i, i', j, job, rest, -, hi, -, hheld, -⟩
  obtain rfl : i' = i := by
    apply Fin.ext
    omega
  simp [ThreadPool.jobs, hi, Pool.Worker.job] at hheld

/-- In a run in which no task overtakes another one the handlers are called in the order of the EVENTs;
so they are in a pool of one worker. -/
theorem events_follow_receipt (transport : TransportKind) (surroundings : Surroundings P E)
    (choices : List (PooledChoice n P E)) (p : Pooled n P E)
    (hrun : exec step (start transport surroundings) choices = some p) :
    FollowsReceipt transport surroundings choices p ∧
      (Along step (fun u l => ¬ u.Overtakes surroundings (entered transport surroundings choices) l)
        (start transport surroundings) choices → EventsInOrder transport surroundings choices p) ∧
      (n ≤ 1 → EventsInOrder transport surroundings choices p) := by
  have h := aligned_of_exec hrun
  have hcarried := carried_of_exec hrun
  have hw := worked_of_exec hrun
  obtain ⟨q, m, -, hr⟩ := received_of_exec hrun
  have horder (hturn : Along step
      (fun u l => ¬ u.Overtakes surroundings (entered transport surroundings choices) l)
      (start transport surroundings) choices) : EventsInOrder transport surroundings choices p := by
    rintro b c id hbc hb hc ⟨k, t, hk, hperformed⟩
    rcases entered_before hr hbc hb hc hk with hignored | ⟨j, t', hjk, hj, hsame⟩
    · exact .inr hignored
    · have htaken := h.taken_of_performed hcarried hperformed
      exact .inl ⟨j, t', hj, inTurn_of_exec hrun hturn j k hjk hsame htaken⟩
  refine ⟨⟨hr.increasing, hr.made, h.sound.taken_eq_range, called_of_exec hrun, ?_⟩, horder, fun hn => ?_⟩
  · rintro b c id hbc hb hc ⟨k, t, hk, hperformed⟩
    rcases entered_before hr hbc hb hc hk with hignored | ⟨j, t', hjk, hj, -⟩
    · exact .inr (.inr hignored)
    · have htaken := h.taken_of_lt hjk (h.taken_of_performed hcarried hperformed)
      rcases h.evaluated_or_held hcarried hw htaken with hevaluated | ⟨i, hheld⟩
      · exact .inl ⟨j, t', hj, hevaluated⟩
      · exact .inr (.inl ⟨j, t', i, hj, hheld⟩)
  · exact horder fun _ _ _ _ _ _ => not_overtakes_of_le_one hn

end Runs

section Reordering

def subscribing {n : ℕ} : List (PooledChoice n Unit Unit) :=
  [.session (.world (.request (.subscribe (ascii "com.example.topic") ⟨some ()⟩ [])))] ++
    List.replicate 4 (.session (.world (.thread 0)))

def dispatching {n : ℕ} (m : ℕ) : List (PooledChoice n Unit Unit) :=
  List.replicate m (.session (.world .receiver)) ++
    [.enqueue, .pool (.caller ()), .pool (.caller ()), .pool (.caller ()), .pool (.notify (.inr ()) none)]

def twoEvents : Surroundings Unit Unit :=
  .receiving [.message (.subscribed 1 7), .message (.event 7 [] [] []), .message (.event 7 [] [] [])]

theorem events_follow_receipt_single : ∃ (choices : List (PooledChoice 1 Unit Unit)) (p : Pooled 1 Unit Unit),
    exec step (start .tcp twoEvents) choices = some p ∧ p.pool.performed.map Prod.fst = [0, 0, 1, 1] ∧
      FollowsReceipt .tcp twoEvents choices p ∧
      (Along step (fun u l => ¬ u.Overtakes twoEvents (entered .tcp twoEvents choices) l)
        (start .tcp twoEvents) choices → EventsInOrder .tcp twoEvents choices p) ∧
      (1 ≤ 1 → EventsInOrder .tcp twoEvents choices p) := by
  have hrun : (exec step (start .tcp twoEvents) (subscribing ++ dispatching 9 ++ dispatching 4 ++
      List.replicate 18 (.pool (.worker ThreadPool.onlyWorker)))).map (·.pool.performed.map Prod.fst) =
        some [0, 0, 1, 1] := by decide
  obtain ⟨p, hp, hperformed⟩ := Option.map_eq_some_iff.mp hrun
  exact ⟨_, p, hp, hperformed, events_follow_receipt .tcp twoEvents _ p hp⟩

def Handled (log : List (ℕ × Task Unit Unit)) (p : Pooled n Unit Unit) (b : ℕ) : Prop :=
  ∃ k t c, log[k]? = some (b, t) ∧ t.call = some c ∧ (k, ()) ∈ p.pool.performed

def HandlesInOrder (transport : TransportKind) (surroundings : Surroundings Unit Unit)
    (choices : List (PooledChoice n Unit Unit)) (p : Pooled n Unit Unit) : Prop :=
  ∀ b c id, b < c → IsEvent surroundings b id → IsEvent surroundings c id →
    Handled (entered transport surroundings choices) p c →
    Handled (entered transport surroundings choices) p b

def earlyEvent : Surroundings Unit Unit :=
  .receiving [.message (.event 7 [] [] []), .message (.subscribed 1 7), .message (.event 7 [] [] [])]

def earlyChoices : List (PooledChoice 1 Unit Unit) :=
  subscribing ++ dispatching 13 ++ List.replicate 6 (.pool (.worker ThreadPool.onlyWorker))

def swappedChoices : List (PooledChoice 2 Unit Unit) :=
  subscribing ++ dispatching 9 ++ dispatching 4 ++ List.replicate 5 (.pool (.worker ⟨0, Nat.zero_lt_two⟩)) ++
    List.replicate 6 (.pool (.worker ⟨1, Nat.one_lt_two⟩))

/-- The first EVENT comes before the SUBSCRIBED, so that the code ignores it; and of two workers that have
an EVENT each, the one with the first is slow to call the handler. -/
theorem second_event_handled_first :
    (∃ p : Pooled 1 Unit Unit, exec step (start .tcp earlyEvent) earlyChoices = some p ∧
      ¬ HandlesInOrder .tcp earlyEvent earlyChoices p) ∧
    ∃ p : Pooled 2 Unit Unit, exec step (start .tcp twoEvents) swappedChoices = some p ∧
      Evaluated (entered .tcp twoEvents swappedChoices) p 2 ∧
      Held (entered .tcp twoEvents swappedChoices) p 1 ∧
      ¬ Evaluated (entered .tcp twoEvents swappedChoices) p 1 := by
  constructor
  · have hrun : (exec step (start .tcp earlyEvent) earlyChoices).map (·.pool.performed) = some [(0, ())] := by
      decide
    have hlog : (entered .tcp earlyEvent earlyChoices).map (fun x => (x.1, x.2.call.isSome)) =
        [(2, true)] := by decide
    obtain ⟨p, hp, hperformed⟩ := Option.map_eq_some_iff.mp hrun
    obtain ⟨⟨b, t⟩, hentered, he⟩ := List.map_eq_singleton_iff.mp hlog
    obtain ⟨rfl, hcall⟩ := Prod.mk.inj he
    obtain ⟨c, hc⟩ := Option.isSome_iff_exists.mp hcall
    refine ⟨p, hp, fun horder => ?_⟩
    obtain ⟨k, t', c', hk, -⟩ := horder 0 2 7 (by decide) ⟨_, _, _, rfl⟩ ⟨_, _, _, rfl⟩
      ⟨0, t, c, by rw [hentered]; rfl, hc, by simp [hperformed]⟩
    have hmem := List.mem_of_getElem? hk
    rw [hentered] at hmem
    cases List.mem_singleton.mp hmem
  · have hrun : (exec step (start .tcp twoEvents) swappedChoices).map (fun p =>
        (p.pool.performed, p.pool.jobs 0)) = some ([(1, ())], some ⟨0, steps 2⟩) := by decide
    have hlog : (entered .tcp twoEvents swappedChoices).map Prod.fst = [1, 2] := by decide
    obtain ⟨p, hp, he⟩ := Option.map_eq_some_iff.mp hrun
    obtain ⟨hperformed, hheld⟩ := Prod.mk.inj he
    obtain ⟨⟨b, t⟩, rest, hentered, rfl, hrest⟩ := List.map_eq_cons_iff.mp hlog
    obtain ⟨⟨c, t'⟩, rfl, rfl⟩ := List.map_eq_singleton_iff.mp hrest
    refine ⟨p, hp, ⟨1, t', by rw [hentered]; rfl, by simp [hperformed]⟩,
      ⟨0, t, 0, by rw [hentered]; rfl, hheld⟩, ?_⟩
    rintro ⟨k, t'', hk, hmem⟩
    obtain rfl : k = 1 := by simpa [hperformed] using hmem
    rw [hentered] at hk
    cases hk

end Reordering

end Pooled

end XconnCpp.Sessions

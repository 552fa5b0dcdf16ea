import XconnCpp.Interleaving
import XconnCpp.Library.Correlation
import Mathlib.Data.Fintype.Defs

namespace XconnCpp.Sessions

open Library Library.Program Library.Program.Prog Library.Transition Values
open Library.Correlation (Event Phase State Correlated Settled Valid)

variable {P E : Type}

instance : Fintype RequestKind where
  elems := {.call, .register, .unregister, .publish, .subscribe, .unsubscribe}
  complete k := by cases k <;> decide

abbrev Key := RequestKind × UInt64

section Receiver

abbrev Free (q : Phase PromiseId Message) : Prop := q.Free Message.answers

def replyProtocol : Protocol (Phase PromiseId Message) (Op P E) Res where
  allows q o :=
    match o with
    | .receive => Free q
    | .findRequest k requestId => ∃ m, q = .got m ∧ m.answers = some (k, requestId.toUInt64)
    | .setPromise p r => ∃ m, q = .owes p m ∧ r = m.reply
    | .nextId => False
    | .emplaceRequest _ _ _ => False
    | _ => True
  next q o r :=
    match o, r with
    | .receive, .message m => .got m
    | .findRequest _ _, found =>
      match q with
      | .got m => .after m (found.map (·.promise))
      | q => q
    | .setPromise _ _, _ => .idle
    | _, _ => q

def Op.Apart : Op P E → Prop
  | .receive | .findRequest _ _ | .setPromise _ _ | .nextId | .emplaceRequest _ _ _ => False
  | _ => True

theorem Op.Apart.allowed {o : Op P E} (ho : o.Apart) (q : Phase PromiseId Message) :
    replyProtocol.allows q o ∧ ∀ r, replyProtocol.next q o r = q := by
  cases o <;> first | exact ⟨trivial, fun _ => rfl⟩ | exact ho.elim

theorem follows_of_apart {α : Type} {p : Code P E α} {q : Phase PromiseId Message}
    (hp : p.Uses Op.Apart) (hq : Free q) : p.Follows replyProtocol Free Free q := by
  apply hp.follows _ (fun _ h => h) (fun _ h => h) hq
  intro o ho q' hq'
  obtain ⟨hallows, hnext⟩ := ho.allowed q'
  exact ⟨hallows, fun r => by rwa [hnext r]⟩

theorem complete_follows {p : PromiseId} {m : Message} {r : Reply} (hr : r = m.reply) :
    (complete p r : Code P E Unit).Follows replyProtocol Free Free (.owes p m) := by
  refine ⟨⟨m, rfl, hr⟩, fun satisfied => ?_⟩
  cases satisfied <;> trivial

theorem processIncomingMessage_follows (m : Message) :
    (processIncomingMessage m : Code P E Unit).Follows replyProtocol Free Free (.got m) := by
  cases m with
  | goodbye =>
    refine follows_of_apart (uses_goodbyeBranch.mono fun o ho => ?_) rfl
    cases o <;> trivial
  | result | published | unsubscribed =>
    refine ⟨⟨_, rfl, by simp [Message.answers]⟩, fun found => ?_⟩
    cases found with
    | none => trivial
    | some r => exact complete_follows rfl
  | registered requestId registrationId =>
    refine ⟨⟨_, rfl, by simp [Message.answers]⟩, fun found => ?_⟩
    cases found with
    | none => trivial
    | some r => exact ⟨trivial, fun _ => complete_follows rfl⟩
  | unregistered requestId =>
    refine ⟨⟨_, rfl, by simp [Message.answers]⟩, fun found => ?_⟩
    cases found with
    | none => trivial
    | some r => exact ⟨trivial, fun _ => complete_follows rfl⟩
  | subscribed requestId subscriptionId =>
    refine ⟨⟨_, rfl, by simp [Message.answers]⟩, fun found => ?_⟩
    cases found with
    | none => trivial
    | some r => exact ⟨trivial, fun _ => complete_follows rfl⟩
  | invocation | event =>
    refine follows_of_apart ⟨trivial, fun found => ?_⟩ rfl
    cases found with
    | none => trivial
    | some handler => exact ⟨trivial, fun _ => trivial⟩
  | abort | other => simp [processIncomingMessage, Follows, Phase.Free, Message.answers]
  | error messageType requestId uri args kwargs =>
    refine Follows.bind Free ?_ fun _ q hq => hq
    cases messageType with
    | request k =>
      refine ⟨⟨_, rfl, by simp [Message.answers]⟩, fun found => ?_⟩
      cases found with
      | none => trivial
      | some r => exact complete_follows rfl
    | _ => simp [errorSwitch, Follows, Phase.Free, Message.answers]

theorem waitRound_follows {q : Phase PromiseId Message} (hq : Free q) :
    (waitRound : Code P E Bool).Follows replyProtocol Free Free q := by
  refine ⟨trivial, fun running => ?_⟩
  cases running with
  | false => exact hq
  | true =>
    refine Follows.bind Free ?_ fun _ q' hq' => hq'
    refine Follows.tryCatch ⟨hq, fun i => ?_⟩ fun _ q' hq' => hq'
    cases i with
    | message m => exact processIncomingMessage_follows m
    | _ => exact hq

end Receiver

section Requests

def Outgoing.request : Outgoing → Option Key
  | .call requestId _ _ _ _ => some (.call, requestId)
  | .register requestId _ _ => some (.register, requestId)
  | .unregister requestId _ => some (.unregister, requestId)
  | .publish requestId _ _ _ _ => some (.publish, requestId)
  | .subscribe requestId _ _ => some (.subscribe, requestId)
  | .unsubscribe requestId _ => some (.unsubscribe, requestId)
  | _ => none

def Operation.awaitsReply : Operation P E → Bool
  | .publish _ _ _ options => acknowledge options = some true
  | _ => true

inductive RequestPhase
  | fresh
  | drawn (requestId : UInt64)
  | entered (key : Key)
  | bare

def requestProtocol (awaits : Bool) : Protocol RequestPhase (Op P E) Res where
  allows q o :=
    match q, o with
    | .fresh, .nextId => True
    | .drawn requestId, .emplaceRequest _ id _ => id = requestId
    | .drawn _, .isConnected => awaits = false
    | .entered _, .isConnected => True
    | .entered key, .send m => m.request = some key
    | .entered _, .waitFor _ => True
    | .bare, .send _ => awaits = false
    | _, _ => False
  next q o r :=
    match q, o, r with
    | .fresh, .nextId, requestId => .drawn requestId
    | .drawn _, .emplaceRequest k requestId _, _ => .entered (k, requestId)
    | .drawn _, .isConnected, _ => .bare
    | q, _, _ => q

def Anyhow : RequestPhase → Prop := fun _ => True

def RequestPhase.Entered : RequestPhase → Prop
  | .entered _ => True
  | _ => False

def Late (awaits : Bool) (q : RequestPhase) : Prop := awaits = true → q.Entered

abbrev Requesting (awaits : Bool) (rest : Code P E Reply) (q : RequestPhase) : Prop :=
  rest.Follows (requestProtocol awaits) Anyhow (Late awaits) q

theorem requesting_request {awaits : Bool} {k : RequestKind} {requestId : UInt64} (payload : Payload P E k)
    {m : Outgoing}
    (hm : m.request = some (k, requestId)) :
    Requesting awaits (request k requestId payload m) (.drawn requestId) := by
  refine ⟨rfl, fun p => Follows.bind (· = .entered (k, requestId)) ⟨trivial, fun connected => ?_⟩ ?_⟩
  · cases connected with
    | true => exact ⟨hm, fun _ => rfl⟩
    | false => exact fun _ => trivial
  · rintro - q rfl
    refine ⟨trivial, fun r => ?_⟩
    cases r with
    | none => exact fun _ => trivial
    | some r =>
      cases r with
      | exception => exact fun _ => trivial
      | broken => exact fun _ => trivial
      | _ => trivial

theorem requesting_code (operation : Operation P E) :
    Requesting operation.awaitsReply operation.code .fresh := by
  cases operation with
  | publish topic args kwargs options =>
    refine ⟨trivial, fun requestId => ?_⟩
    cases ha : acknowledge options with
    | none => simp [Follows, Late, Operation.awaitsReply, ha]
    | some b =>
      cases b with
      | true => exact requesting_request (k := .publish) () rfl
      | false =>
        have hbare : Operation.awaitsReply (.publish topic args kwargs options : Operation P E) = false := by
          simp [Operation.awaitsReply, ha]
        rw [hbare]
        refine Follows.bind Anyhow ⟨rfl, fun connected => ?_⟩ fun _ _ _ => trivial
        cases connected with
        | true => exact ⟨rfl, fun _ => trivial⟩
        | false => exact fun hawaits => by cases hawaits
  | _ => exact ⟨trivial, fun requestId => requesting_request _ rfl⟩

theorem operation_follows (operation : Operation P E) :
    operation.code.Follows (requestProtocol operation.awaitsReply) Anyhow Anyhow .fresh :=
  (requesting_code operation).mono (fun _ hq => hq) fun _ _ => trivial

end Requests

section Coupling

structure Matches (s : Session P E) (c : State Key PromiseId Message Reply) : Prop where
  pending : ∀ k requestId, c.pending (k, requestId) = ((s.requests k).lookup requestId).map (·.promise)
  entered : ∀ key p, c.entered key p → p < s.nextPromise
  promises : ∀ p, s.promises p = c.completed p
  kept : ∀ p, s.dropped p = false

variable {s : Session P E} {c : State Key PromiseId Message Reply} {k : RequestKind}
  {requestId : UInt64} {m : Message}

theorem Matches.enter (h : Matches s c) (hid : requestId ∉ s.requests k) (payload : Payload P E k) :
    ∃ c', Correlation.step Message.answers Message.reply c (.enter (k, requestId) s.nextPromise) = some c' ∧
      Matches (interp (.emplaceRequest k requestId payload) s).2 c' ∧ c'.phase = c.phase ∧
      ∀ key p, c'.entered key p ↔ key = (k, requestId) ∧ p = s.nextPromise ∨ c.entered key p := by
  have hnone : (s.requests k).lookup requestId = none := Finmap.lookup_eq_none.mpr hid
  have hpending : c.pending (k, requestId) = none := by rw [h.pending, hnone, Option.map_none]
  have hnew (key : Key) : ¬ c.entered key s.nextPromise := fun hp => (h.entered key _ hp).false
  refine ⟨_, Correlation.step_enter_iff.mpr ⟨hpending, hnew, rfl⟩, ⟨?_, ?_, h.promises, ?_⟩, rfl,
    fun _ _ => Iff.rfl⟩
  · intro j id
    by_cases hk : j = k
    · subst hk
      by_cases hi : id = requestId
      · subst hi
        simp [interp, Table.lookup_emplace_self_of_none hnone]
      · simp [interp, hi, Table.lookup_emplace_of_ne hi, h.pending]
    · simp [interp, hk, h.pending]
  · rintro key p (⟨-, rfl⟩ | hp)
    · exact Nat.lt_succ_self _
    · exact Nat.lt_succ_of_lt (h.entered key p hp)
  · intro p
    by_cases hp : p = s.nextPromise
    · subst hp
      simp [interp, hnone]
    · simp [interp, hp, h.kept]

theorem Matches.take (h : Matches s c) (hgot : c.phase = .got m) (i : Int64)
    (hm : m.answers = some (k, i.toUInt64)) :
    ∃ c', Correlation.step Message.answers Message.reply c (.take (k, i.toUInt64)
        ((interp (.findRequest k i) s).1.map (·.promise))) = some c' ∧
      Matches (interp (.findRequest k i) s).2 c' ∧
      c'.phase = .after m ((interp (.findRequest k i) s).1.map (·.promise)) ∧ c'.entered = c.entered := by
  have hfound : (interp (.findRequest k i) s).1.map (·.promise) = c.pending (k, i.toUInt64) := by
    rw [h.pending]
    simp [interp, findFromMap_erase]
  refine ⟨_, Correlation.step_take_iff.mpr ⟨m, hgot, hm, hfound, rfl⟩, ⟨?_, h.entered, h.promises, h.kept⟩,
    rfl, rfl⟩
  intro j id
  by_cases hk : j = k
  · subst hk
    by_cases hi : id = i.toUInt64
    · subst hi
      simp [interp, findFromMap_erase]
    · simp [interp, hi, findFromMap_erase, Finmap.lookup_erase_ne hi, h.pending]
  · simp [interp, hk, h.pending]

theorem Matches.complete (h : Matches s c) (hc : Valid c) {p : PromiseId} (howes : c.phase = .owes p m) :
    ∃ c', Correlation.step Message.answers Message.reply c (.complete p m.reply) = some c' ∧
      Matches (interp (.setPromise p m.reply) s).2 c' ∧ c'.phase = .idle ∧ c'.entered = c.entered := by
  refine ⟨_, Correlation.step_complete_iff.mpr ⟨m, howes, rfl, rfl⟩,
    ⟨h.pending, h.entered, ?_, h.kept⟩, rfl, rfl⟩
  intro q
  have hopen : s.promises p = none := (h.promises p).trans (hc.owed_open p m howes)
  by_cases hq : q = p
  · subst hq
    simp [interp, hopen]
  · simp [interp, hq, h.promises]

theorem Matches.of_eq {t : Session P E} (h : Matches s c) (hr : t.requests = s.requests)
    (hn : t.nextPromise = s.nextPromise) (hp : t.promises = s.promises) (hd : t.dropped = s.dropped) :
    Matches t c := by
  constructor
  · intro k requestId
    rw [hr]
    exact h.pending k requestId
  · intro key p he
    rw [hn]
    exact h.entered key p he
  · intro p
    rw [hp]
    exact h.promises p
  · intro p
    rw [hd]
    exact h.kept p

end Coupling

section Worlds

def World.awaitsReply (w : World P E) : Choice P E → Bool
  | .thread i =>
    match w.threads[i]? with
    | some (.request operation _) => operation.awaitsReply
    | _ => false
  | _ => false

def World.events (w : World P E) (l : Choice P E) : List (Event Key PromiseId Message Reply) :=
  match w.performs l with
  | some (.emplaceRequest k requestId _) => [.enter (k, requestId) w.session.nextPromise]
  | some (.send m) => if w.awaitsReply l then (m.request.map Event.hand).toList else []
  | some .receive =>
    match w.session.inbox with
    | .message m :: _ => [.receive m]
    | _ => []
  | some (.findRequest k requestId) =>
    [.take (k, requestId.toUInt64) ((interp (.findRequest k requestId) w.session).1.map (·.promise))]
  | some (.setPromise p r) => [.complete p r]
  | _ => []

def Thread.entering (t : Thread P E) : Option UInt64 :=
  match t.head? with
  | some (.emplaceRequest _ requestId _) => some requestId
  | _ => none

def World.draws (w : World P E) (l : Choice P E) : Option UInt64 :=
  match w.performs l with
  | some .nextId => some (w.session.ids w.session.idsGiven)
  | _ => none

/-- An id that is drawn is not pending in a table. -/
def FreshInTables (w : World P E) (l : Choice P E) : Prop :=
  ∀ requestId ∈ w.draws l, ∀ k, requestId ∉ w.session.requests k

/-- Nor is it with a thread that is about to enter it. -/
def FreshIds (w : World P E) (l : Choice P E) : Prop :=
  FreshInTables w l ∧ ∀ requestId ∈ w.draws l, ∀ t ∈ w.threads, t.entering ≠ some requestId

instance (w : World P E) (l : Choice P E) : Decidable (FreshInTables w l) :=
  Option.decidableForallMem (w.draws l)

instance (w : World P E) (l : Choice P E) : Decidable (FreshIds w l) :=
  have := Option.decidableForallMem (p := fun requestId => ∀ t ∈ w.threads, t.entering ≠ some requestId)
    (w.draws l)
  instDecidableAnd

def Unshared (s : Session P E) (threads : List (Thread P E)) : Prop :=
  ∀ (i : ℕ) (t : Thread P E) (requestId : UInt64), threads[i]? = some t → t.entering = some requestId →
    (∀ k, requestId ∉ s.requests k) ∧
      ∀ (j : ℕ) (u : Thread P E), threads[j]? = some u → u.entering = some requestId → j = i

variable {w w' : World P E} {s s' : Session P E} {threads : List (Thread P E)} {t t' : Thread P E}
  {c : State Key PromiseId Message Reply}

theorem Unshared.append (h : Unshared s threads) (ht : t.entering = none) :
    Unshared s (threads ++ [t]) := by
  have hold {i : ℕ} {u : Thread P E} {requestId : UInt64} (hu : (threads ++ [t])[i]? = some u)
      (he : u.entering = some requestId) : threads[i]? = some u := by
    rcases getElem?_append_cases hu with hu | rfl
    · exact hu
    · simp [ht] at he
  intro i u requestId hu he
  obtain ⟨hpending, hunique⟩ := h i u requestId (hold hu he) he
  exact ⟨hpending, fun j v hv hve => hunique j v (hold hv hve) hve⟩

theorem Unshared.of_requests (h : Unshared s threads)
    (hs : ∀ k requestId, requestId ∉ s.requests k → requestId ∉ s'.requests k) :
    Unshared s' threads := by
  intro i u requestId hu he
  obtain ⟨hpending, hunique⟩ := h i u requestId hu he
  exact ⟨fun k => hs k requestId (hpending k), hunique⟩

theorem Unshared.set (h : Unshared s threads) {i : ℕ}
    (ht : ∀ requestId, t.entering = some requestId → (∀ k, requestId ∉ s'.requests k) ∧
      ∀ u ∈ threads, u.entering ≠ some requestId)
    (hs : ∀ (j : ℕ) (u : Thread P E) (requestId : UInt64), j ≠ i → threads[j]? = some u →
      u.entering = some requestId → ∀ k, requestId ∉ s'.requests k) :
    Unshared s' (threads.set i t) := by
  intro j u requestId hu he
  rcases getElem?_set_cases hu with ⟨rfl, rfl⟩ | ⟨hj, hold⟩
  · obtain ⟨hpending, hother⟩ := ht requestId he
    refine ⟨hpending, fun n v hv hve => ?_⟩
    rcases getElem?_set_cases hv with ⟨rfl, -⟩ | ⟨-, hv⟩
    · rfl
    · exact absurd hve (hother v (List.mem_of_getElem? hv))
  · obtain ⟨-, hunique⟩ := h j u requestId hold he
    refine ⟨hs j u requestId hj hold he, fun n v hv hve => ?_⟩
    rcases getElem?_set_cases hv with ⟨-, hvt⟩ | ⟨-, hv⟩
    · exact absurd he ((ht requestId (hvt ▸ hve)).2 u (List.mem_of_getElem? hold))
    · exact hunique n v hv hve

theorem entering_request {awaits : Bool} {operation : Operation P E} {rest : Code P E Reply}
    {q : RequestPhase} {requestId : UInt64} (hq : rest.Follows (requestProtocol awaits) Anyhow Anyhow q)
    (he : (Thread.request operation rest).entering = some requestId) : q = .drawn requestId := by
  cases rest with
  | op o k =>
    cases o with
    | emplaceRequest kind id payload =>
      obtain rfl : id = requestId := by simpa [Thread.entering, Thread.head?] using he
      have hallows := hq.1
      cases q <;> simp_all [requestProtocol]
    | _ => simp [Thread.entering, Thread.head?] at he
  | _ => simp [Thread.entering, Thread.head?] at he

def Thread.Orderly (c : State Key PromiseId Message Reply) : Thread P E → Prop
  | .request operation rest => ∃ q, rest.Follows (requestProtocol operation.awaitsReply) Anyhow Anyhow q ∧
      ∀ key, q = .entered key → ∃ p, c.entered key p
  | .leaving rest => rest.Uses Op.OfLeave
  | .worker rest => rest.Uses Op.OfTask

theorem Thread.Orderly.mono {c' : State Key PromiseId Message Reply} (h : t.Orderly c)
    (hc : ∀ key p, c.entered key p → c'.entered key p) : t.Orderly c' := by
  cases t with
  | request operation rest =>
    obtain ⟨q, hq, he⟩ := h
    refine ⟨q, hq, fun key hk => ?_⟩
    obtain ⟨p, hp⟩ := he key hk
    exact ⟨p, hc key p hp⟩
  | _ => exact h

structure Coupled (w : World P E) (c : State Key PromiseId Message Reply) : Prop where
  valid : Valid c
  session : Matches w.session c
  receiver : w.receiver.Follows replyProtocol Free Free c.phase
  threads : ∀ t ∈ w.threads, t.Orderly c
  unshared : Unshared w.session w.threads

theorem coupled_start (surroundings : Surroundings P E) :
    Coupled (World.start surroundings : World P E) Correlation.init := by
  constructor
  · exact Correlation.valid_init
  · exact ⟨fun _ _ => rfl, fun _ _ h => h.elim, fun _ => rfl, fun _ => rfl⟩
  · exact waitRound_follows trivial
  · simp [World.start]
  · intro i t requestId h
    simp [World.start] at h

theorem Op.Apart.events {l : Choice P E} {o : Op P E} (ho : o.Apart) (hl : w.performs l = some o)
    (ha : w.awaitsReply l = false) : w.events l = [] := by
  cases o <;> first | exact ho.elim | simp [World.events, hl, ha]

theorem Op.Apart.requests {o : Op P E} (ho : o.Apart) (s : Session P E) :
    (interp o s).2.requests = s.requests ∧ (interp o s).2.nextPromise = s.nextPromise ∧
      (interp o s).2.promises = s.promises ∧ (interp o s).2.dropped = s.dropped := by
  cases o <;> first | exact ⟨rfl, rfl, rfl, rfl⟩ | exact ho.elim

theorem Coupled.receiver_to {c' : State Key PromiseId Message Reply} {rest : Code P E Bool}
    (h : Coupled w c) (hvalid : Valid c') (hsession : Matches s' c')
    (hrest : rest.Follows replyProtocol Free Free c'.phase) (hentered : c'.entered = c.entered)
    (hrequests : ∀ k requestId, requestId ∉ w.session.requests k → requestId ∉ s'.requests k) :
    Coupled { w with session := s', receiver := rest } c' := by
  constructor
  · exact hvalid
  · exact hsession
  · exact hrest
  · intro t ht
    apply (h.threads t ht).mono
    simp [hentered]
  · exact h.unshared.of_requests hrequests

theorem notMem_findRequest {k j : RequestKind} {i : Int64} {requestId : UInt64}
    (h : requestId ∉ s.requests j) : requestId ∉ (interp (.findRequest k i) s).2.requests j := by
  by_cases hj : j = k
  · subst hj
    simp [interp, findFromMap_erase, Finmap.mem_erase, h]
  · simpa [interp, hj] using h

theorem Coupled.receive_step {k : Inbound → Code P E Bool} (h : Coupled w c)
    (hr : w.receiver = .op .receive k) (hfree : Free c.phase)
    (hmessage : ∀ m, (k (.message m)).Follows replyProtocol Free Free (.got m))
    (hother : ∀ i, (∀ m, i ≠ .message m) → (k i).Follows replyProtocol Free Free c.phase) :
    ∃ c', exec (Correlation.step Message.answers Message.reply) c (w.events .receiver) = some c' ∧
      Coupled { w with
        session := (interp .receive w.session).2
        receiver := k (interp .receive w.session).1 } c' := by
  have hperforms : w.performs .receiver = some .receive := by simp [World.performs, hr]
  cases hi : w.session.inbox with
  | nil =>
    have hreceive : interp .receive w.session = (.failed, w.session) := by simp [interp, hi]
    rw [hreceive]
    refine ⟨c, by simp [World.events, hperforms, hi], ?_⟩
    exact h.receiver_to h.valid h.session (hother .failed (by simp)) rfl fun _ _ hid => hid
  | cons i rest =>
    have hreceive : interp .receive w.session = (i, { w.session with inbox := rest }) := by
      simp [interp, hi]
    rw [hreceive]
    cases i with
    | message m =>
      have hstep : Correlation.step Message.answers Message.reply c (.receive m) =
          some { c with phase := .got m } := Correlation.step_receive_iff.mpr ⟨hfree, rfl⟩
      refine ⟨{ c with phase := .got m }, by simp [World.events, hperforms, hi, exec_cons_iff, hstep], ?_⟩
      refine h.receiver_to (h.valid.step hstep) ?_ (hmessage m) rfl fun _ _ hid => hid
      exact ⟨h.session.pending, h.session.entered, h.session.promises, h.session.kept⟩
    | null | failed =>
      refine ⟨c, by simp [World.events, hperforms, hi], ?_⟩
      refine h.receiver_to h.valid (h.session.of_eq rfl rfl rfl rfl) ?_ rfl fun _ _ hid => hid
      exact hother _ (by simp)

theorem Coupled.receiver_step {o : Op P E} {k : Res o → Code P E Bool} (h : Coupled w c)
    (hr : w.receiver = .op o k) :
    ∃ c', exec (Correlation.step Message.answers Message.reply) c (w.events .receiver) = some c' ∧
      Coupled { w with
        session := (interp o w.session).2
        receiver := k (interp o w.session).1 } c' := by
  have hperforms : w.performs .receiver = some o := by simp [World.performs, hr]
  have hfollows := h.receiver
  rw [hr] at hfollows
  obtain ⟨hallows, hnext⟩ := hfollows
  have hrest := hnext (interp o w.session).1
  by_cases ho : o.Apart
  · obtain ⟨hrequests, hpromise, hpromises, hdropped⟩ := ho.requests w.session
    rw [(ho.allowed c.phase).2] at hrest
    refine ⟨c, by simp [ho.events hperforms rfl], ?_⟩
    apply h.receiver_to h.valid (h.session.of_eq hrequests hpromise hpromises hdropped) hrest rfl
    intro j requestId hid
    rwa [hrequests]
  cases o with
  | findRequest kind i =>
    obtain ⟨m, hgot, hm⟩ := hallows
    obtain ⟨c', hstep, hsession, hphase, hentered⟩ := h.session.take hgot i hm
    refine ⟨c', by simp [World.events, hperforms, exec_cons_iff, hstep], ?_⟩
    apply h.receiver_to (h.valid.step hstep) hsession _ hentered fun _ _ hid => notMem_findRequest hid
    simpa only [hphase, replyProtocol, hgot] using hrest
  | setPromise p r =>
    obtain ⟨m, howes, rfl⟩ := hallows
    obtain ⟨c', hstep, hsession, hphase, hentered⟩ := h.session.complete h.valid howes
    refine ⟨c', by simp [World.events, hperforms, exec_cons_iff, hstep], ?_⟩
    refine h.receiver_to (h.valid.step hstep) hsession ?_ hentered fun _ _ hid => hid
    rw [hphase]
    exact hrest
  | receive =>
    apply h.receive_step hr hallows fun m => hnext (.message m)
    intro i hi
    have hother := hnext i
    cases i with
    | message m => exact absurd rfl (hi m)
    | _ => exact hother
  | nextId => exact hallows.elim
  | emplaceRequest => exact hallows.elim
  | _ => exact absurd trivial ho

theorem Coupled.set_thread {c' : State Key PromiseId Message Reply} {i : ℕ} (h : Coupled w c)
    (hvalid : Valid c') (hsession : Matches s' c') (hphase : c'.phase = c.phase)
    (hentered : ∀ key p, c.entered key p → c'.entered key p) (ht : t'.Orderly c')
    (hunshared : Unshared s' (w.threads.set i t')) :
    Coupled { w with session := s', threads := w.threads.set i t' } c' := by
  refine ⟨hvalid, hsession, hphase ▸ h.receiver, fun t hm => ?_, hunshared⟩
  rcases List.mem_or_eq_of_mem_set hm with hm | rfl
  · exact (h.threads t hm).mono hentered
  · exact ht

theorem Coupled.quiet_thread {i : ℕ} (h : Coupled w c) (hsession : Matches s' c)
    (hrequests : s'.requests = w.session.requests) (ht : t'.Orderly c)
    (he : ∀ requestId, t'.entering ≠ some requestId) :
    Coupled { w with session := s', threads := w.threads.set i t' } c := by
  refine h.set_thread h.valid hsession rfl (fun _ _ he => he) ht (h.unshared.set ?_ ?_)
  · exact fun requestId ht => absurd ht (he requestId)
  · intro j u requestId _ hu hue
    rw [hrequests]
    exact (h.unshared j u requestId hu hue).1

theorem Thread.orderly_request {operation : Operation P E} {rest : Code P E Reply} {q : RequestPhase}
    (hrest : rest.Follows (requestProtocol operation.awaitsReply) Anyhow Anyhow q)
    (he : ∀ key, q = .entered key → ∃ p, c.entered key p) : (Thread.request operation rest).Orderly c :=
  ⟨q, hrest, he⟩

theorem entering_of_entered {awaits : Bool} {operation : Operation P E} {rest : Code P E Reply}
    {q : RequestPhase} (hq : rest.Follows (requestProtocol awaits) Anyhow Anyhow q)
    (hne : ∀ requestId, q ≠ .drawn requestId) (requestId : UInt64) :
    (Thread.request operation rest).entering ≠ some requestId :=
  fun he => hne requestId (entering_request hq he)

theorem Coupled.draw_step {i : ℕ} {operation : Operation P E} {k : UInt64 → Code P E Reply}
    (h : Coupled w c) (hfresh : FreshIds w (.thread i))
    (ht : w.threads[i]? = some (.request operation (.op .nextId k)))
    (hrest : (k (w.session.ids w.session.idsGiven)).Follows (requestProtocol operation.awaitsReply) Anyhow
      Anyhow (.drawn (w.session.ids w.session.idsGiven))) :
    Coupled { w with
      session := (interp .nextId w.session).2
      threads := w.threads.set i (.request operation (k (w.session.ids w.session.idsGiven))) } c := by
  have hdraws : w.draws (.thread i) = some (w.session.ids w.session.idsGiven) := by
    simp [World.draws, World.performs, ht, Thread.head?]
  have hpending := hfresh.1 _ hdraws
  have hother := hfresh.2 _ hdraws
  refine h.set_thread h.valid (h.session.of_eq rfl rfl rfl rfl) rfl (fun _ _ he => he) ?_ ?_
  · exact Thread.orderly_request hrest (by simp)
  · apply h.unshared.set
    · intro id he
      obtain rfl := RequestPhase.drawn.inj (entering_request hrest he)
      exact ⟨hpending, hother⟩
    · intro j u id _ hu he
      exact (h.unshared j u id hu he).1

theorem Coupled.enter_step {i : ℕ} {operation : Operation P E} {kind : RequestKind} {requestId : UInt64}
    {payload : Payload P E kind} {k : PromiseId → Code P E Reply} (h : Coupled w c)
    (ht : w.threads[i]? = some (.request operation (.op (.emplaceRequest kind requestId payload) k)))
    (hrest : (k w.session.nextPromise).Follows (requestProtocol operation.awaitsReply) Anyhow Anyhow
      (.entered (kind, requestId))) :
    ∃ c', Correlation.step Message.answers Message.reply c
        (.enter (kind, requestId) w.session.nextPromise) = some c' ∧
      Coupled { w with
        session := (interp (.emplaceRequest kind requestId payload) w.session).2
        threads := w.threads.set i (.request operation (k w.session.nextPromise)) } c' := by
  obtain ⟨hpending, hunique⟩ := h.unshared i _ requestId ht rfl
  obtain ⟨c', hstep, hsession, hphase, hkeys⟩ := h.session.enter (hpending kind) payload
  refine ⟨c', hstep, ?_⟩
  apply h.set_thread (h.valid.step hstep) hsession hphase
  · exact fun key p hk => (hkeys key p).mpr (.inr hk)
  · apply Thread.orderly_request hrest
    intro key hk
    obtain rfl := RequestPhase.entered.inj hk
    exact ⟨w.session.nextPromise, (hkeys _ _).mpr (.inl ⟨rfl, rfl⟩)⟩
  · apply h.unshared.set
    · exact fun id he => absurd he (entering_of_entered hrest (by simp) id)
    · intro j u id hj hu he l
      have hid := (h.unshared j u id hu he).1 l
      have hne : id ≠ requestId := fun heq => hj (hunique j u hu (heq ▸ he))
      by_cases hl : l = kind
      · subst hl
        simpa [interp, Table.mem_emplace_iff, hne] using hid
      · simpa [interp, hl] using hid

theorem Coupled.request_step {i : ℕ} {operation : Operation P E} {o : Op P E}
    {k : Res o → Code P E Reply} (h : Coupled w c) (hfresh : FreshIds w (.thread i))
    (ht : w.threads[i]? = some (.request operation (.op o k))) :
    ∃ c', exec (Correlation.step Message.answers Message.reply) c (w.events (.thread i)) = some c' ∧
      Coupled { w with
        session := (interp o w.session).2
        threads := w.threads.set i (.request operation (k (interp o w.session).1)) } c' := by
  have hperforms : w.performs (.thread i) = some o := by simp [World.performs, ht, Thread.head?]
  obtain ⟨q, ⟨hallows, hnext⟩, hentered⟩ := h.threads _ (List.mem_of_getElem? ht)
  have hrest := hnext (interp o w.session).1
  cases o with
  | nextId =>
    cases q with
    | fresh => exact ⟨c, by simp [World.events, hperforms], h.draw_step hfresh ht hrest⟩
    | _ => exact hallows.elim
  | emplaceRequest kind requestId payload =>
    cases q with
    | drawn id =>
      obtain rfl : requestId = id := hallows
      obtain ⟨c', hstep, hcoupled⟩ := h.enter_step ht hrest
      exact ⟨c', by simp [World.events, hperforms, exec_cons_iff, hstep], hcoupled⟩
    | _ => exact hallows.elim
  | send m =>
    cases q with
    | entered key =>
      have hhand : Correlation.step Message.answers Message.reply c (.hand key) = some c :=
        Correlation.step_hand_iff.mpr ⟨hentered key rfl, rfl⟩
      have hm : m.request = some key := hallows
      refine ⟨c, ?_, ?_⟩
      · cases ha : operation.awaitsReply <;>
          simp [World.events, hperforms, World.awaitsReply, ht, ha, hm, exec_cons_iff, hhand]
      · refine h.quiet_thread (h.session.of_eq rfl rfl rfl rfl) rfl ?_ ?_
        · exact Thread.orderly_request hrest hentered
        · exact entering_of_entered hrest (by simp [requestProtocol])
    | bare =>
      have ha : operation.awaitsReply = false := hallows
      refine ⟨c, by simp [World.events, hperforms, World.awaitsReply, ht, ha], ?_⟩
      refine h.quiet_thread (h.session.of_eq rfl rfl rfl rfl) rfl ?_ ?_
      · exact Thread.orderly_request hrest hentered
      · exact entering_of_entered hrest (by simp [requestProtocol])
    | _ => exact hallows.elim
  | isConnected =>
    refine ⟨c, by simp [World.events, hperforms], ?_⟩
    refine h.quiet_thread (h.session.of_eq rfl rfl rfl rfl) rfl ?_ ?_
    · apply Thread.orderly_request hrest
      intro key hk
      cases q <;> simp_all [requestProtocol]
    · apply entering_of_entered hrest
      cases q <;> simp_all [requestProtocol]
  | waitFor p =>
    refine ⟨c, by simp [World.events, hperforms], ?_⟩
    refine h.quiet_thread (h.session.of_eq rfl rfl rfl rfl) rfl ?_ ?_
    · apply Thread.orderly_request hrest
      intro key hk
      cases q <;> simp_all [requestProtocol]
    · apply entering_of_entered hrest
      cases q <;> simp_all [requestProtocol]
  | _ => cases q <;> exact hallows.elim

theorem Op.OfLeave.apart {o : Op P E} (ho : o.OfLeave) : o.Apart := by
  cases o <;> trivial

theorem Op.OfTask.apart {o : Op P E} (ho : o.OfTask) : o.Apart := by
  cases o <;> trivial

theorem entering_of_apart (hp : ∀ o, t.head? = some o → o.Apart) (requestId : UInt64) :
    t.entering ≠ some requestId := by
  unfold Thread.entering
  split
  · rename_i hhead
    exact (hp _ hhead).elim
  · simp

theorem Coupled.apart_step {i : ℕ} {o : Op P E} (h : Coupled w c) (ht : w.threads[i]? = some t)
    (ho : t.head? = some o) (hapart : o.Apart) (hnone : w.awaitsReply (.thread i) = false)
    (ht' : t'.Orderly c) (hp : ∀ o, t'.head? = some o → o.Apart) :
    ∃ c', exec (Correlation.step Message.answers Message.reply) c (w.events (.thread i)) = some c' ∧
      Coupled { w with
        session := (interp o w.session).2
        threads := w.threads.set i t' } c' := by
  obtain ⟨hrequests, hpromise, hpromises, hdropped⟩ := hapart.requests w.session
  have hperforms : w.performs (.thread i) = some o := by simp [World.performs, ht, ho]
  exact ⟨c, by simp [hapart.events hperforms hnone], h.quiet_thread
    (h.session.of_eq hrequests hpromise hpromises hdropped) hrequests ht' (entering_of_apart hp)⟩

theorem Coupled.thread_step {i : ℕ} (h : Coupled w c) (hfresh : FreshIds w (.thread i))
    (hstep : w.step (.thread i) = some w') :
    ∃ c', exec (Correlation.step Message.answers Message.reply) c (w.events (.thread i)) = some c' ∧
      Coupled w' c' := by
  rcases step_thread_cases hstep with ⟨operation, o, k, ht, rfl⟩ | ⟨o, k, ht, rfl⟩ | ⟨o, k, ht, rfl⟩
  · exact h.request_step hfresh ht
  · have horderly : (Prog.op o k).Uses Op.OfLeave := h.threads _ (List.mem_of_getElem? ht)
    have huses : (k (interp o w.session).1).Uses Op.OfLeave := horderly.2 _
    refine h.apart_step ht rfl horderly.1.apart (by simp [World.awaitsReply, ht]) huses fun o ho => ?_
    exact (huses.head ho).apart
  · have horderly : (Prog.op o k).Uses Op.OfTask := h.threads _ (List.mem_of_getElem? ht)
    have huses : (k (interp o w.session).1).Uses Op.OfTask := horderly.2 _
    refine h.apart_step ht rfl horderly.1.apart (by simp [World.awaitsReply, ht]) huses fun o ho => ?_
    exact (huses.head ho).apart

theorem Coupled.new_thread (h : Coupled w c) (hsession : Matches s' c)
    (hrequests : s'.requests = w.session.requests) (ht : t.Orderly c) (he : t.entering = none) :
    Coupled { w with session := s', threads := w.threads ++ [t] } c := by
  refine ⟨h.valid, hsession, h.receiver, fun u hu => ?_, ?_⟩
  · rcases List.mem_append.mp hu with hu | hu
    · exact h.threads u hu
    · obtain rfl := List.mem_singleton.mp hu
      exact ht
  · exact (h.unshared.append he).of_requests fun k id hid => by rwa [hrequests]

theorem Coupled.step {l : Choice P E} (h : Coupled w c) (hfresh : FreshIds w l)
    (hstep : w.step l = some w') :
    ∃ c', exec (Correlation.step Message.answers Message.reply) c (w.events l) = some c' ∧
      Coupled w' c' := by
  cases l with
  | receiver =>
    rcases step_receiver_iff.mp hstep with ⟨hr, rfl⟩ | ⟨o, k, hr, rfl⟩
    · have hend := h.receiver
      rw [hr] at hend
      exact ⟨c, by simp [World.events, World.performs, hr], h.valid, h.session, waitRound_follows hend,
        h.threads, h.unshared⟩
    · exact h.receiver_step hr
  | thread i => exact h.thread_step hfresh hstep
  | request operation =>
    obtain rfl := Option.some.inj hstep
    refine ⟨c, rfl, h.new_thread h.session rfl ⟨.fresh, operation_follows operation, by simp⟩ ?_⟩
    cases operation <;> rfl
  | leave =>
    obtain rfl := Option.some.inj hstep
    exact ⟨c, rfl, h.new_thread h.session rfl uses_leave rfl⟩
  | work =>
    obtain ⟨task, tasks, -, rfl⟩ := step_work_iff.mp hstep
    refine ⟨c, rfl, h.new_thread (h.session.of_eq rfl rfl rfl rfl) rfl (uses_task task) ?_⟩
    have hapart (o : Op P E) (ho : (Thread.worker task.code : Thread P E).head? = some o) : o.Apart :=
      ((uses_task task).head ho).apart
    cases he : (Thread.worker task.code : Thread P E).entering with
    | none => rfl
    | some requestId => exact absurd he (entering_of_apart hapart requestId)

end Worlds

section Runs

def history (surroundings : Surroundings P E) (choices : List (Choice P E)) :
    List (Event Key PromiseId Message Reply) :=
  observe World.step World.events (World.start surroundings) choices

structure Answered (w : World P E) (h : List (Event Key PromiseId Message Reply)) : Prop where
  correlated : Correlated Message.answers Message.reply h
  tables : ∀ k requestId p, ((w.session.requests k).lookup requestId).map (·.promise) = some p ↔
    ∃ x y, h = x ++ .enter (k, requestId) p :: y ∧ ∀ f, .take (k, requestId) f ∉ y
  promises : ∀ p r, w.session.promises p = some r ↔ .complete p r ∈ h
  kept : ∀ p, w.session.dropped p = false
  settled : w.receiver.head? = none → Settled Message.answers h

theorem replies_correlate (surroundings : Surroundings P E) (choices : List (Choice P E)) (w : World P E)
    (hrun : exec World.step (World.start surroundings) choices = some w)
    (hfresh : Along World.step FreshIds (World.start surroundings) choices) :
    Answered w (history surroundings choices) := by
  have hstep (t : World P E) (l : Choice P E) (t' : World P E)
      (c : State Key PromiseId Message Reply) (h : Coupled t c) (hl : FreshIds t l)
      (ht : t.step l = some t') :
      ∃ c', exec (Correlation.step Message.answers Message.reply) c (t.events l) = some c' ∧
        Coupled t' c' := h.step hl ht
  obtain ⟨c, hc, hcoupled⟩ := exec_simulates hstep (coupled_start surroundings) hfresh hrun
  constructor
  · exact Correlation.correlated_of_exec hc
  · intro k requestId p
    rw [← hcoupled.session.pending]
    exact Correlation.pending_iff hc
  · intro p r
    rw [hcoupled.session.promises]
    exact Correlation.completed_iff hc
  · exact hcoupled.session.kept
  · intro hend
    apply Correlation.settled_of_exec _ hc
    have hfollows := hcoupled.receiver
    cases hr : w.receiver with
    | op o k => simp [hr] at hend
    | _ =>
      rw [hr] at hfollows
      exact hfollows

theorem replies_correlate_answered : ∃ (choices : List (Choice Unit Unit)) (w : World Unit Unit),
    let surroundings : Surroundings Unit Unit := .receiving [.message (.unsubscribed 1)]
    exec World.step (World.start surroundings) choices = some w ∧
      w.session.promises 0 = some .acknowledged ∧ Answered w (history surroundings choices) :=
  ⟨[.request (.unsubscribe 7), .thread 0, .thread 0, .thread 0, .thread 0, .receiver, .receiver,
    .receiver, .receiver], _, rfl, rfl, replies_correlate _ _ _ rfl (by decide +kernel)⟩

theorem not_answered_with_shared_id : ∃ (choices : List (Choice Unit Unit)) (w : World Unit Unit),
    let surroundings : Surroundings Unit Unit :=
      { (.receiving [.message (.unsubscribed 1)] : Surroundings Unit Unit) with ids := fun _ => 1 }
    exec World.step (World.start surroundings) choices = some w ∧
      Along World.step FreshInTables (World.start surroundings) choices ∧
      ¬ Answered w (history surroundings choices) := by
  -- both threads draw the id before either of them enters it
  refine ⟨[.request (.unsubscribe 7), .request (.unsubscribe 7), .thread 0, .thread 1, .thread 0,
    .thread 1, .thread 1, .thread 1, .receiver, .receiver, .receiver], _, rfl, by decide +kernel, ?_⟩
  intro h
  have hfound := h.correlated.first_take [.enter (.unsubscribe, 1) 0]
    [.hand (.unsubscribe, 1), .receive (.unsubscribed 1)] [] (.unsubscribe, 1) 1 (some 0) rfl (by simp)
  simp at hfound

end Runs

end XconnCpp.Sessions

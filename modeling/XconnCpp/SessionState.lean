import XconnCpp.Library.Program
import XconnCpp.Library.Table
import XconnCpp.Values

namespace XconnCpp.Sessions

open Library Library.Program Values

inductive RequestKind
  | call
  | register
  | unregister
  | publish
  | subscribe
  | unsubscribe
  deriving DecidableEq

inductive MessageType
  | request (k : RequestKind)
  | invocation
  | other (code : ℕ)
  deriving DecidableEq

def MessageType.code : MessageType → ℕ
  | .request .call => 48
  | .request .register => 64
  | .request .unregister => 66
  | .request .publish => 16
  | .request .subscribe => 32
  | .request .unsubscribe => 34
  | .invocation => 68
  | .other code => code

inductive Message
  | goodbye
  | result (requestId : UInt64) (args : List CValue) (kwargs details : CDict)
  | registered (requestId registrationId : UInt64)
  | unregistered (requestId : UInt64)
  | invocation (requestId registrationId : UInt64) (args : List CValue) (kwargs details : CDict)
  | published (requestId : UInt64)
  | subscribed (requestId subscriptionId : UInt64)
  | event (subscriptionId : UInt64) (args : List CValue) (kwargs details : CDict)
  | unsubscribed (requestId : UInt64)
  | abort
  | error (messageType : MessageType) (requestId : UInt64) (uri : Str) (args : List CValue)
      (kwargs : CDict)
  | other (messageType : ℕ)

inductive Outgoing
  | goodbye (details : CDict) (reason : Str)
  | call (requestId : UInt64) (options : CDict) (procedure : Str) (args : List CValue) (kwargs : CDict)
  | register (requestId : UInt64) (options : CDict) (procedure : Str)
  | unregister (requestId registrationId : UInt64)
  | publish (requestId : UInt64) (options : CDict) (topic : Str) (args : List CValue) (kwargs : CDict)
  | subscribe (requestId : UInt64) (options : CDict) (topic : Str)
  | unsubscribe (requestId subscriptionId : UInt64)
  | yield (requestId : UInt64) (options : CDict) (args : List CValue) (kwargs : CDict)
  | error (messageType : MessageType) (requestId : UInt64) (details : Option CDict) (uri : Str)
      (args : Option (List CValue)) (kwargs : Option CDict)

def Outgoing.isGoodbye : Outgoing → Bool
  | .goodbye _ _ => true
  | _ => false

/-- What the receive thread gets from `receive_message`, which gives a null pointer for bytes that
cannot be deserialized and throws when the transport does. -/
inductive Inbound
  | message (m : Message)
  | null
  | failed

structure StdFunction (T : Type) where
  target : Option T
  deriving DecidableEq

/-- The name of the state that a promise shares with its future. -/
abbrev PromiseId := ℕ

inductive Reply
  | result (r : Result)
  | registration (registrationId : UInt64)
  | subscription (subscriptionId : UInt64)
  | acknowledged
  | exception (what : Str)
  | broken

section

variable (P E : Type)

/-- What a pending request holds besides its promise: `handler`, `registration_id` or
`subscription_id`. -/
@[reducible] def Payload : RequestKind → Type
  | .call => Unit
  | .register => StdFunction P
  | .unregister => UInt64
  | .publish => Unit
  | .subscribe => StdFunction E
  | .unsubscribe => UInt64

structure Request (k : RequestKind) where
  promise : PromiseId
  payload : Payload P E k

inductive Task
  | procedure (handler : StdFunction P) (invocation : Invocation) (requestId : UInt64)
  | event (handler : StdFunction E) (event : Event)

end

inductive HandlerOutcome
  | returned (r : Result)
  | applicationError (e : ApplicationError False)
  | exception
  | other

/-- What a session does not decide: the ids that `id_generator->next()` gives, the messages of the
router, after which the connection is closed, what the handlers do, which frames are written whole, and
whether closing the transport throws. -/
structure Surroundings (P E : Type) where
  ids : ℕ → UInt64
  inbox : List Inbound
  outcomes : ℕ → P → Invocation → HandlerOutcome
  eventOutcomes : ℕ → E → Event → HandlerOutcome
  written : ℕ → Bool
  closeFails : Bool

variable {P E : Type}

def Surroundings.receiving (inbox : List Inbound) : Surroundings P E where
  ids n := .ofNat (n + 1)
  inbox := inbox
  outcomes _ _ _ := .returned ⟨[], [], []⟩
  eventOutcomes _ _ _ := .returned ⟨[], [], []⟩
  written _ := true
  closeFails := false

def Surroundings.quiet : Surroundings P E := .receiving []

/-- The state that the threads of a session share, with its transport, its pool and its surroundings;
`sent` is what has been handed to the transport, and a promise that is `dropped` has been destroyed before
it was set. -/
structure Session (P E : Type) extends Surroundings P E where
  running : Bool
  goodbyeSent : Bool
  goodbyeRetrieved : Bool
  goodbyeValue : Option ℤ
  requests : (k : RequestKind) → Table UInt64 (Request P E k)
  registrations : Table UInt64 (StdFunction P)
  subscriptions : Table UInt64 (StdFunction E)
  promises : PromiseId → Option Reply
  dropped : PromiseId → Bool
  nextPromise : PromiseId
  tasks : List (Task P E)
  sent : List Outgoing
  closed : Bool
  idsGiven : ℕ
  handlerCalls : ℕ

def Session.start (surroundings : Surroundings P E) : Session P E where
  toSurroundings := surroundings
  running := true
  goodbyeSent := false
  goodbyeRetrieved := false
  goodbyeValue := none
  requests _ := ∅
  registrations := ∅
  subscriptions := ∅
  promises _ := none
  dropped _ := false
  nextPromise := 0
  tasks := []
  sent := []
  closed := false
  idsGiven := 0
  handlerCalls := 0

class Movable (T : Type) where
  moved : T → T

instance {T : Type} : Movable (StdFunction T) := ⟨fun _ => ⟨none⟩⟩

def Payload.moved : (k : RequestKind) → Payload P E k → Payload P E k
  | .call, p => p
  | .register, _ => (⟨none⟩ : StdFunction P)
  | .unregister, p => p
  | .publish, p => p
  | .subscribe, _ => (⟨none⟩ : StdFunction E)
  | .unsubscribe, p => p

instance {k : RequestKind} : Movable (Request P E k) := ⟨fun r => ⟨r.promise, r.payload.moved⟩⟩

/-- The id is converted to `int64_t` by the call and back by the search; without `erase` the entry
stays, with what moving its value out has left there. -/
def findFromMap {T : Type} [Movable T] (requestId : Int64) (map : Table UInt64 T) (erase : Bool) :
    Option T × Table UInt64 T :=
  match map.lookup requestId.toUInt64 with
  | none => (none, map)
  | some v => (some v, if erase then map.erase requestId.toUInt64
      else map.insert requestId.toUInt64 (Movable.moved v))

/-- The atomic operations of the session's threads: loads and stores of the atomic flags, critical
sections of the tables, accesses to shared states of promises, and calls of the transport, the pool
and the handlers. -/
inductive Op (P E : Type)
  | loadRunning
  | isConnected
  | storeRunning (b : Bool)
  | loadGoodbyeSent
  | storeGoodbyeSent (b : Bool)
  | getGoodbyeFuture
  | setGoodbyeValue (v : ℤ)
  | waitGoodbye
  | nextId
  | emplaceRequest (k : RequestKind) (requestId : UInt64) (payload : Payload P E k)
  | findRequest (k : RequestKind) (requestId : Int64)
  | emplaceRegistration (registrationId : UInt64) (handler : StdFunction P)
  | findRegistration (registrationId : Int64) (erase : Bool)
  | emplaceSubscription (subscriptionId : UInt64) (handler : StdFunction E)
  | findSubscription (subscriptionId : Int64) (erase : Bool)
  | setPromise (p : PromiseId) (r : Reply)
  | waitFor (p : PromiseId)
  | send (m : Outgoing)
  | close
  | receive
  | enqueue (t : Task P E)
  | callProcedure (handler : P) (invocation : Invocation)
  | callEventHandler (handler : E) (event : Event)

/-- What an operation gives back: for `getGoodbyeFuture`, `setGoodbyeValue`, `setPromise`, `send` and
`close` whether it succeeds, for a wait what the promise holds when the wait ends. -/
@[reducible] def Res : Op P E → Type
  | .loadRunning => Bool
  | .isConnected => Bool
  | .storeRunning _ => Unit
  | .loadGoodbyeSent => Bool
  | .storeGoodbyeSent _ => Unit
  | .getGoodbyeFuture => Bool
  | .setGoodbyeValue _ => Bool
  | .waitGoodbye => Option ℤ
  | .nextId => UInt64
  | .emplaceRequest _ _ _ => PromiseId
  | .findRequest k _ => Option (Request P E k)
  | .emplaceRegistration _ _ => Unit
  | .findRegistration _ _ => Option (StdFunction P)
  | .emplaceSubscription _ _ => Unit
  | .findSubscription _ _ => Option (StdFunction E)
  | .setPromise _ _ => Bool
  | .waitFor _ => Option Reply
  | .send _ => Bool
  | .close => Bool
  | .receive => Inbound
  | .enqueue _ => Unit
  | .callProcedure _ _ => HandlerOutcome
  | .callEventHandler _ _ => HandlerOutcome

def interp : (o : Op P E) → Session P E → Res o × Session P E
  | .loadRunning, s => (s.running, s)
  | .isConnected, s => (s.running, s)
  | .storeRunning b, s => ((), { s with running := b })
  | .loadGoodbyeSent, s => (s.goodbyeSent, s)
  | .storeGoodbyeSent b, s => ((), { s with goodbyeSent := b })
  | .getGoodbyeFuture, s => (!s.goodbyeRetrieved, { s with goodbyeRetrieved := true })
  | .setGoodbyeValue v, s => (s.goodbyeValue.isNone, { s with goodbyeValue := s.goodbyeValue.or (some v) })
  | .waitGoodbye, s => (s.goodbyeValue, s)
  | .nextId, s => (s.ids s.idsGiven, { s with idsGiven := s.idsGiven + 1 })
  -- the promise is made before the request is moved into its table, by the same thread; where there is a
  -- request under the id, `emplace` keeps that one and destroys the new one
  | .emplaceRequest k requestId payload, s => (s.nextPromise, { s with
      requests := Function.update s.requests k ((s.requests k).emplace requestId ⟨s.nextPromise, payload⟩)
      dropped := Function.update s.dropped s.nextPromise ((s.requests k).lookup requestId).isSome
      nextPromise := s.nextPromise + 1 })
  | .findRequest k requestId, s => ((findFromMap requestId (s.requests k) true).1, { s with
      requests := Function.update s.requests k (findFromMap requestId (s.requests k) true).2 })
  | .emplaceRegistration registrationId handler, s => ((), { s with
      registrations := s.registrations.emplace registrationId handler })
  | .findRegistration registrationId erase, s => ((findFromMap registrationId s.registrations erase).1,
      { s with registrations := (findFromMap registrationId s.registrations erase).2 })
  | .emplaceSubscription subscriptionId handler, s => ((), { s with
      subscriptions := s.subscriptions.emplace subscriptionId handler })
  | .findSubscription subscriptionId erase, s => ((findFromMap subscriptionId s.subscriptions erase).1,
      { s with subscriptions := (findFromMap subscriptionId s.subscriptions erase).2 })
  | .setPromise p r, s => ((s.promises p).isNone, { s with
      promises := Function.update s.promises p ((s.promises p).or (some r)) })
  | .waitFor p, s => (if s.dropped p then some .broken else s.promises p, s)
  | .send m, s => (s.written s.sent.length, { s with sent := s.sent ++ [m] })
  | .close, s => (!s.closeFails, { s with closed := true })
  | .receive, s =>
    match s.inbox with
    | [] => (.failed, s)
    | i :: inbox => (i, { s with inbox := inbox })
  | .enqueue t, s => ((), { s with tasks := s.tasks ++ [t] })
  | .callProcedure handler invocation, s => (s.outcomes s.handlerCalls handler invocation,
      { s with handlerCalls := s.handlerCalls + 1 })
  | .callEventHandler handler event, s => (s.eventOutcomes s.handlerCalls handler event,
      { s with handlerCalls := s.handlerCalls + 1 })

end XconnCpp.Sessions

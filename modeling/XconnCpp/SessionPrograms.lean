import XconnCpp.SessionState

namespace XconnCpp.Sessions

open Library Library.Program Values

variable {P E : Type}

inductive Exception
  | runtimeError (what : Str)
  | futureError
  | systemError
  | badOptionalAccess
  | applicationError (e : ApplicationError False)

abbrev Code (P E α : Type) := Prog (Op P E) Res Exception α

def connectionClosed : Exception := .runtimeError (ascii "Connection closed")

def timedOut : Exception := .runtimeError (ascii "Timeout waiting for future result")

def errorRuntimeError : Str := ascii "wamp.error.runtime_error"

def transmit (m : Outgoing) : Code P E Unit :=
  -- what `SocketTransport::write` returns is ignored
  .op (.send m) fun _ => .pure ()

def sendMessage (m : Outgoing) : Code P E Unit :=
  .op .isConnected fun
    | true => transmit m
    | false => .throw connectionClosed

def waitWithTimeout (p : PromiseId) : Code P E Reply :=
  .op (.waitFor p) fun
    | some (.exception what) => .throw (.runtimeError what)
    -- `std::future_errc::broken_promise`
    | some .broken => .throw .futureError
    | some r => .pure r
    | none => .throw timedOut

def complete (p : PromiseId) (r : Reply) : Code P E Unit :=
  .op (.setPromise p r) fun
    | true => .pure ()
    | false => .throw .futureError

section Requests

def request (k : RequestKind) (requestId : UInt64) (payload : Payload P E k) (m : Outgoing) :
    Code P E Reply :=
  .op (.emplaceRequest k requestId payload) fun promise => do
    sendMessage m
    waitWithTimeout promise

def callDo (procedure : Str) (args : List WholeValue) (kwargs options : WholeDict) : Code P E Reply :=
  .op .nextId fun (requestId : UInt64) => request .call requestId ()
    (.call requestId (unorderedMapToDict options) (cStr procedure) (vectorToList args)
      (unorderedMapToDict kwargs))

def registerDo (procedure : Str) (handler : StdFunction P) (options : WholeDict) : Code P E Reply :=
  .op .nextId fun (requestId : UInt64) => request .register requestId handler
    (.register requestId (unorderedMapToDict options) (cStr procedure))

def unregister (registrationId : UInt64) : Code P E Reply :=
  .op .nextId fun (requestId : UInt64) => request .unregister requestId registrationId
    (.unregister requestId registrationId)

def acknowledge (options : WholeDict) : Option Bool :=
  match options.lookup (ascii "acknowledge") with
  | none => some false
  | some v => Value.getBool v

def publishDo (topic : Str) (args : List WholeValue) (kwargs options : WholeDict) : Code P E Reply :=
  .op .nextId fun (requestId : UInt64) =>
    let m := Outgoing.publish requestId (unorderedMapToDict options) (cStr topic) (vectorToList args)
      (unorderedMapToDict kwargs)
    match acknowledge options with
    | none => .throw .badOptionalAccess
    | some true => request .publish requestId () m
    | some false => do
      sendMessage m
      pure .acknowledged

def subscribeDo (topic : Str) (handler : StdFunction E) (options : WholeDict) : Code P E Reply :=
  .op .nextId fun (requestId : UInt64) => request .subscribe requestId handler
    (.subscribe requestId (unorderedMapToDict options) (cStr topic))

def unsubscribe (subscriptionId : UInt64) : Code P E Reply :=
  .op .nextId fun (requestId : UInt64) => request .unsubscribe requestId subscriptionId
    (.unsubscribe requestId subscriptionId)

inductive Operation (P E : Type)
  | call (procedure : Str) (args : List WholeValue) (kwargs options : WholeDict)
  | register (procedure : Str) (handler : StdFunction P) (options : WholeDict)
  | unregister (registrationId : UInt64)
  | publish (topic : Str) (args : List WholeValue) (kwargs options : WholeDict)
  | subscribe (topic : Str) (handler : StdFunction E) (options : WholeDict)
  | unsubscribe (subscriptionId : UInt64)

def Operation.code : Operation P E → Code P E Reply
  | .call procedure args kwargs options => callDo procedure args kwargs options
  | .register procedure handler options => registerDo procedure handler options
  | .unregister registrationId => Sessions.unregister registrationId
  | .publish topic args kwargs options => publishDo topic args kwargs options
  | .subscribe topic handler options => subscribeDo topic handler options
  | .unsubscribe subscriptionId => Sessions.unsubscribe subscriptionId

end Requests

def leave : Code P E ℤ :=
  .op .getGoodbyeFuture fun
    | true => do
      sendMessage (.goodbye [] (ascii "wamp.close.close_realm"))
      Prog.op (.storeGoodbyeSent true) fun _ => .op .waitGoodbye fun
        | some v => .pure v
        | none => .throw timedOut
    -- the future has been retrieved before
    | false => .throw .futureError

section Tasks

def callProcedure (handler : StdFunction P) (invocation : Invocation) : Code P E HandlerOutcome :=
  match handler.target with
  -- `std::bad_function_call`
  | none => .pure .exception
  | some h => .perform (Op.callProcedure h invocation)

def callEventHandler (handler : StdFunction E) (event : Event) : Code P E HandlerOutcome :=
  match handler.target with
  | none => .pure .exception
  | some h => .perform (Op.callEventHandler h event)

def replyTo (requestId : UInt64) : HandlerOutcome → Code P E Unit
  | .returned result => transmit (.yield requestId (unorderedMapToDict result.details)
      (vectorToList result.args) (unorderedMapToDict result.kwargs))
  | .applicationError e => transmit (.error .invocation requestId (some []) errorRuntimeError
      (some (vectorToList e.list)) (some (unorderedMapToDict e.dict)))
  | .exception => transmit (.error .invocation requestId none errorRuntimeError none none)
  -- it escapes into the future of the task, which nobody keeps
  | .other => .pure ()

def Task.code : Task P E → Code P E Unit
  | .procedure handler invocation requestId => callProcedure handler invocation >>= replyTo requestId
  | .event handler e => callEventHandler handler e >>= fun _ => .pure ()

theorem code_of_empty {handler : StdFunction P} (h : handler.target = none) (invocation : Invocation)
    (requestId : UInt64) :
    (Task.procedure handler invocation requestId : Task P E).code = replyTo requestId .exception := by
  simp [Task.code, callProcedure, h]

theorem code_of_target {handler : StdFunction P} {f : P} (h : handler.target = some f)
    (invocation : Invocation) (requestId : UInt64) :
    (Task.procedure handler invocation requestId : Task P E).code =
      .op (.callProcedure f invocation) (replyTo requestId) := by
  simp [Task.code, callProcedure, h]

theorem event_code_of_empty {handler : StdFunction E} (h : handler.target = none) (e : Event) :
    (Task.event handler e : Task P E).code = .pure () := by
  simp [Task.code, callEventHandler, h]

theorem event_code_of_target {handler : StdFunction E} {f : E} (h : handler.target = some f) (e : Event) :
    (Task.event handler e : Task P E).code = .op (.callEventHandler f e) fun _ => .pure () := by
  simp [Task.code, callEventHandler, h]

end Tasks

section Receive

variable (requestId : UInt64)

def goodbyeReply : Code P E Unit := do
  sendMessage (.goodbye [] (ascii "wamp.close.goodbye_and_out"))
  Prog.perform (Op.storeGoodbyeSent true)

def goodbyeEnd : Code P E Unit :=
  .op (.setGoodbyeValue 0) fun
    | true => .op (.storeRunning false) fun _ => .op .close fun
      | true => .pure ()
      | false => .throw .systemError
    | false => .throw .futureError

def goodbyeBranch : Code P E Unit :=
  .op .loadGoodbyeSent fun
    | true => goodbyeEnd
    | false => goodbyeReply >>= fun _ => goodbyeEnd

def replyBranch (k : RequestKind) (reply : Reply) : Code P E Unit :=
  .op (.findRequest k requestId.toInt64) fun
    | some r => complete r.promise reply
    | none => .pure ()

def registeredBranch (registrationId : UInt64) : Code P E Unit :=
  .op (.findRequest .register requestId.toInt64) fun
    | some r => .op (.emplaceRegistration registrationId r.payload) fun _ =>
        complete r.promise (.registration registrationId)
    | none => .pure ()

def unregisteredBranch : Code P E Unit :=
  .op (.findRequest .unregister requestId.toInt64) fun
    | some r => .op (.findRegistration (UInt64.toInt64 r.payload) true) fun _ =>
        complete r.promise .acknowledged
    | none => .pure ()

def subscribedBranch (subscriptionId : UInt64) : Code P E Unit :=
  .op (.findRequest .subscribe requestId.toInt64) fun
    | some r => .op (.emplaceSubscription subscriptionId r.payload) fun _ =>
        complete r.promise (.subscription subscriptionId)
    -- unlike the other branches, this one uses `request->promise` outside the test
    | none => .undefined

def invocationBranch (registrationId : UInt64) (args : List CValue) (kwargs details : CDict) :
    Code P E Unit :=
  .op (.findRegistration registrationId.toInt64 false) fun
    | some handler => .perform (Op.enqueue (.procedure handler
        ⟨fromCList args, fromCDict kwargs, fromCDict details⟩ requestId))
    | none => .pure ()

def eventBranch (subscriptionId : UInt64) (args : List CValue) (kwargs details : CDict) :
    Code P E Unit :=
  .op (.findSubscription subscriptionId.toInt64 false) fun
    | some handler => .perform (Op.enqueue (.event handler
        (.make (fromCList args) (fromCDict kwargs) (fromCDict details))))
    | none => .pure ()

def invalidErrorMessage (messageType : MessageType) : Str :=
  ascii "Received " ++ decimal messageType.code ++ ascii " message for invalid request ID"

/-- One of the six cases of the inner switch: the exception is chosen by whether there is a request,
and then the request is dereferenced. -/
def failRequest (k : RequestKind) (applicationError invalidError : Str) : Code P E Unit :=
  .op (.findRequest k requestId.toInt64) fun (found : Option (Request P E k)) =>
    let exception := if found.isSome then applicationError else invalidError
    match found with
    | some r => complete r.promise (.exception exception)
    | none => .undefined

def errorSwitch (messageType : MessageType) (applicationError : Str) : Code P E Unit :=
  match messageType with
  | .request k => failRequest requestId k applicationError (invalidErrorMessage messageType)
  -- printed only
  | _ => .pure ()

def errorBranch (messageType : MessageType) (uri : Str) (args : List CValue) (kwargs : CDict) :
    Code P E Unit :=
  errorSwitch requestId messageType
    (ApplicationError.what ⟨cStr uri, fromCList args, fromCDict kwargs⟩) >>= fun _ =>
      .throw (.runtimeError (cStr uri))

def processIncomingMessage : Message → Code P E Unit
  | .goodbye => goodbyeBranch
  | .result requestId args kwargs details => replyBranch requestId .call
      (.result ⟨fromCList args, fromCDict kwargs, fromCDict details⟩)
  | .registered requestId registrationId => registeredBranch requestId registrationId
  | .unregistered requestId => unregisteredBranch requestId
  | .invocation requestId registrationId args kwargs details =>
    invocationBranch requestId registrationId args kwargs details
  | .published requestId => replyBranch requestId .publish .acknowledged
  | .subscribed requestId subscriptionId => subscribedBranch requestId subscriptionId
  | .event subscriptionId args kwargs details => eventBranch subscriptionId args kwargs details
  | .unsubscribed requestId => replyBranch requestId .unsubscribe .acknowledged
  | .abort => .pure ()
  | .error messageType requestId uri args kwargs => errorBranch requestId messageType uri args kwargs
  | .other _ => .pure ()

def receiveMessage : Code P E (Option Message) :=
  .op .receive fun
    | .message m => .pure (some m)
    | .null => .pure none
    | .failed => .throw .systemError

def waitBody : Code P E Unit :=
  (do match ← receiveMessage with
      | none => pure ()
      | some m => processIncomingMessage m).tryCatch
    -- every exception is printed and dropped
    fun _ => .pure ()

def waitRound : Code P E Bool :=
  .op .loadRunning fun
    | true => waitBody >>= fun _ => .pure true
    | false => .pure false

end Receive

end XconnCpp.Sessions

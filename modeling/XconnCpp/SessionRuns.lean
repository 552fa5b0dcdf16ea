import XconnCpp.InboundMessages
import XconnCpp.Library.Transition

namespace XconnCpp.Sessions

open Library Library.Program Library.Program.Prog Values

variable {P E : Type}

def Op.OfRequest : Op P E → Prop
  | .isConnected | .nextId | .emplaceRequest _ _ _ | .waitFor _ => True
  | .send m => m.isGoodbye = false
  | _ => False

def Op.OfLeave : Op P E → Prop
  | .getGoodbyeFuture | .isConnected | .send _ | .waitGoodbye => True
  | .storeGoodbyeSent b => b = true
  | _ => False

def Op.OfTask : Op P E → Prop
  | .callProcedure _ _ | .callEventHandler _ _ => True
  | .send m => m.isGoodbye = false
  | _ => False

def Op.ByOthers (o : Op P E) : Prop := o.OfRequest ∨ o.OfLeave ∨ o.OfTask

section ByOthers

def Outgoing.isReply : Outgoing → Bool
  | .yield _ _ _ _ | .error _ _ _ _ _ _ => true
  | _ => false

section Senders

variable {A : Op P E → Prop}

theorem uses_sendMessage {m : Outgoing} (htest : A .isConnected) (hm : A (.send m)) :
    (sendMessage m : Code P E Unit).Uses A := by
  refine ⟨htest, fun connected => ?_⟩
  cases connected with
  | true => exact ⟨hm, fun _ => trivial⟩
  | false => trivial

theorem uses_request (hquiet : ∀ o : Op P E, o.OfRequest → (∀ m, o ≠ .send m) → A o)
    (k : RequestKind) (requestId : UInt64) (payload : Payload P E k) {m : Outgoing} (hm : A (.send m)) :
    (request k requestId payload m).Uses A := by
  refine ⟨hquiet _ trivial (by simp), fun p => Uses.bind ?_ fun _ => ⟨?_, fun r => ?_⟩⟩
  · exact uses_sendMessage (hquiet _ trivial (by simp)) hm
  · exact hquiet _ trivial (by simp)
  · cases r with
    | none => trivial
    | some r => cases r <;> trivial

theorem uses_operation_of (hquiet : ∀ o : Op P E, o.OfRequest → (∀ m, o ≠ .send m) → A o)
    (hsend : ∀ m : Outgoing, m.isGoodbye = false → m.isReply = false → A (.send m))
    (operation : Operation P E) : operation.code.Uses A := by
  cases operation with
  | publish topic args kwargs options =>
    refine ⟨hquiet _ trivial (by simp), fun requestId => ?_⟩
    split
    · trivial
    · exact uses_request hquiet _ _ _ (hsend _ rfl rfl)
    · refine Uses.bind ?_ fun _ => uses_pure _
      exact uses_sendMessage (hquiet _ trivial (by simp)) (hsend _ rfl rfl)
  | _ =>
    refine ⟨hquiet _ trivial (by simp), fun requestId => ?_⟩
    exact uses_request hquiet _ _ _ (hsend _ rfl rfl)

theorem uses_leave_of (hquiet : ∀ o : Op P E, o.OfLeave → (∀ m, o ≠ .send m) → A o)
    (hsend : ∀ m : Outgoing, m.isGoodbye = true → A (.send m)) : (leave : Code P E ℤ).Uses A := by
  refine ⟨hquiet _ trivial (by simp), fun retrieved => ?_⟩
  cases retrieved with
  | true =>
    refine Uses.bind ?_ fun _ => ⟨hquiet _ rfl (by simp), fun _ => ⟨hquiet _ trivial (by simp), fun v => ?_⟩⟩
    · exact uses_sendMessage (hquiet _ trivial (by simp)) (hsend _ rfl)
    · cases v <;> trivial
  | false => trivial

end Senders

theorem uses_operation (operation : Operation P E) : operation.code.Uses Op.OfRequest :=
  uses_operation_of (fun _ ho _ => ho) (fun _ hm _ => hm) operation

theorem uses_leave : (leave : Code P E ℤ).Uses Op.OfLeave :=
  uses_leave_of (fun _ ho _ => ho) fun _ _ => trivial

theorem uses_task (t : Task P E) : t.code.Uses Op.OfTask := by
  cases t with
  | procedure handler invocation requestId =>
    refine Uses.bind ?_ fun outcome => ?_
    · cases h : handler.target <;> simp [callProcedure, h, Op.OfTask]
    · cases outcome <;> simp [replyTo, transmit, Op.OfTask, Outgoing.isGoodbye]
  | event handler e =>
    refine Uses.bind ?_ fun outcome => trivial
    cases h : handler.target <;> simp [callEventHandler, h, Op.OfTask]

end ByOthers

def Op.OfGoodbye : Op P E → Prop
  | .loadGoodbyeSent | .isConnected | .send _ | .storeGoodbyeSent _ | .setGoodbyeValue _
  | .storeRunning _ | .close => True
  | _ => False

theorem uses_goodbyeBranch_of {A : Op P E → Prop}
    (hquiet : ∀ o : Op P E, o.OfGoodbye → (∀ m, o ≠ .send m) → A o)
    (hsend : ∀ m : Outgoing, m.isGoodbye = true → A (.send m)) : (goodbyeBranch : Code P E Unit).Uses A := by
  have hend : (goodbyeEnd : Code P E Unit).Uses A := by
    refine ⟨hquiet _ trivial (by simp), fun satisfied => ?_⟩
    cases satisfied with
    | true =>
      refine ⟨hquiet _ trivial (by simp), fun _ => ⟨hquiet _ trivial (by simp), fun closed => ?_⟩⟩
      cases closed <;> trivial
    | false => trivial
  refine ⟨hquiet _ trivial (by simp), fun sent => ?_⟩
  cases sent with
  | true => exact hend
  | false =>
    refine Uses.bind (Uses.bind ?_ fun _ => ?_) fun _ => hend
    · exact uses_sendMessage (hquiet _ trivial (by simp)) (hsend _ rfl)
    · exact uses_perform_iff.mpr (hquiet _ trivial (by simp))

theorem uses_goodbyeBranch : (goodbyeBranch : Code P E Unit).Uses Op.OfGoodbye :=
  uses_goodbyeBranch_of (fun _ ho _ => ho) fun _ _ => trivial

section OtherBranches

def Op.OfPending : Op P E → Prop
  | .findRequest _ _ | .setPromise _ _ => True
  | _ => False

theorem uses_complete (p : PromiseId) (r : Reply) : (complete p r : Code P E Unit).Uses Op.OfPending := by
  refine ⟨trivial, fun satisfied => ?_⟩
  cases satisfied <;> trivial

theorem uses_replyBranch (requestId : UInt64) (k : RequestKind) (reply : Reply) :
    (replyBranch requestId k reply : Code P E Unit).Uses Op.OfPending := by
  refine ⟨trivial, fun found => ?_⟩
  cases found with
  | none => trivial
  | some r => exact uses_complete _ _

theorem uses_errorBranch (requestId : UInt64) (messageType : MessageType) (uri : Str)
    (args : List CValue) (kwargs : CDict) :
    (errorBranch requestId messageType uri args kwargs : Code P E Unit).Uses Op.OfPending := by
  apply Uses.bind _ fun _ => uses_throw _
  cases messageType with
  | request k =>
    refine ⟨trivial, fun found => ?_⟩
    cases found with
    | none => trivial
    | some r => exact uses_complete _ _
  | _ => trivial

def Op.OfReply : Op P E → Prop
  | .findRequest _ _ | .setPromise _ _ | .emplaceRegistration _ _ | .findRegistration _ _
  | .emplaceSubscription _ _ | .findSubscription _ _ | .enqueue _ => True
  | _ => False

theorem Op.OfPending.ofReply {o : Op P E} (ho : o.OfPending) : o.OfReply := by
  cases o <;> trivial

theorem uses_processIncomingMessage {m : Message} (hm : m ≠ .goodbye) :
    (processIncomingMessage m : Code P E Unit).Uses Op.OfReply := by
  cases m with
  | goodbye => exact absurd rfl hm
  | error =>
    apply (uses_errorBranch _ _ _ _ _).mono
    exact fun o ho => ho.ofReply
  | abort | other => trivial
  | result | published | unsubscribed =>
    apply (uses_replyBranch _ _ _).mono
    exact fun o ho => ho.ofReply
  | invocation | event =>
    refine ⟨trivial, fun found => ?_⟩
    cases found with
    | none => trivial
    | some handler => exact ⟨trivial, fun _ => trivial⟩
  | registered | unregistered | subscribed =>
    refine ⟨trivial, fun found => ?_⟩
    cases found with
    | none => trivial
    | some r => exact ⟨trivial, fun _ => (uses_complete _ _).mono fun o ho => ho.ofReply⟩

end OtherBranches

inductive Action (P E : Type)
  | other (o : { o : Op P E // o.ByOthers })
  | dequeue
  | inbound (m : Message)

def act (s : Session P E) : Action P E → Option (Session P E)
  | .other o => some (interp o.1 s).2
  | .dequeue => some { s with tasks := s.tasks.tail }
  | .inbound m =>
    match process m s with
    | (.undefined, _) => none
    | (_, t) => some t

theorem act_inbound_iff {s t : Session P E} {m : Message} :
    act s (.inbound m) = some t ↔ (process m s).1 ≠ .undefined ∧ (process m s).2 = t := by
  rcases h : process m s with ⟨outcome, u⟩
  cases outcome <;> simp [act, h]

end XconnCpp.Sessions

import XconnCpp.SessionPrograms

namespace XconnCpp.Sessions

open Library Library.Program Library.Program.Prog Values

variable {P E : Type}

section FindFromMap

variable {T : Type} [Movable T] {requestId : UInt64} {map : Table UInt64 T} {v : T}

theorem findFromMap_of_none (h : map.lookup requestId = none) (erase : Bool) :
    findFromMap requestId.toInt64 map erase = (none, map) := by
  rw [findFromMap, UInt64.toUInt64_toInt64, h]

theorem findFromMap_of_some (h : map.lookup requestId = some v) (erase : Bool) :
    findFromMap requestId.toInt64 map erase = (some v, if erase then map.erase requestId
      else map.insert requestId (Movable.moved v)) := by
  rw [findFromMap, UInt64.toUInt64_toInt64, h]

@[simp] theorem findFromMap_fst (erase : Bool) :
    (findFromMap requestId.toInt64 map erase).1 = map.lookup requestId := by
  cases h : map.lookup requestId with
  | none => rw [findFromMap_of_none h]
  | some v => rw [findFromMap_of_some h]

theorem findFromMap_erase (i : Int64) :
    findFromMap i map true = (map.lookup i.toUInt64, map.erase i.toUInt64) := by
  unfold findFromMap
  cases h : map.lookup i.toUInt64 with
  | none => rw [Table.erase_of_none h]
  | some v => simp

theorem lookup_findFromMap_keep_self (h : map.lookup requestId = some v) :
    (findFromMap requestId.toInt64 map false).2.lookup requestId = some (Movable.moved v) := by
  simp [findFromMap_of_some h]

theorem lookup_findFromMap_keep_of_ne {j : UInt64} (h : j ≠ requestId) :
    (findFromMap requestId.toInt64 map false).2.lookup j = map.lookup j := by
  cases hr : map.lookup requestId with
  | none => rw [findFromMap_of_none hr]
  | some v => simp [findFromMap_of_some hr, Finmap.lookup_insert_of_ne _ h]

theorem mem_findFromMap_keep {j : UInt64} :
    j ∈ (findFromMap requestId.toInt64 map false).2 ↔ j ∈ map := by
  cases h : map.lookup requestId with
  | none => rw [findFromMap_of_none h]
  | some v =>
    have hmem := Finmap.mem_of_lookup_eq_some h
    simp only [findFromMap_of_some h, Bool.false_eq_true, if_false, Finmap.mem_insert]
    exact ⟨fun hj => hj.elim (fun hj => hj ▸ hmem) id, .inr⟩

end FindFromMap

namespace Message

def answers : Message → Option (RequestKind × UInt64)
  | .result requestId _ _ _ => some (.call, requestId)
  | .registered requestId _ => some (.register, requestId)
  | .unregistered requestId => some (.unregister, requestId)
  | .published requestId => some (.publish, requestId)
  | .subscribed requestId _ => some (.subscribe, requestId)
  | .unsubscribed requestId => some (.unsubscribe, requestId)
  | .error (.request k) requestId _ _ _ => some (k, requestId)
  | _ => none

def reply : Message → Reply
  | .result _ args kwargs details =>
    .result ⟨fromCList args, fromCDict kwargs, fromCDict details⟩
  | .registered _ registrationId => .registration registrationId
  | .subscribed _ subscriptionId => .subscription subscriptionId
  | .error _ _ uri args kwargs =>
    .exception (ApplicationError.what ⟨cStr uri, fromCList args, fromCDict kwargs⟩)
  | _ => .acknowledged

def Unguarded : Message → Prop
  | .subscribed _ _ => True
  | .error _ _ _ _ _ => True
  | _ => False

instance : DecidablePred Unguarded
  | .subscribed _ _ => .isTrue trivial
  | .error _ _ _ _ _ => .isTrue trivial
  | .goodbye => .isFalse id
  | .result _ _ _ _ => .isFalse id
  | .registered _ _ => .isFalse id
  | .unregistered _ => .isFalse id
  | .invocation _ _ _ _ _ => .isFalse id
  | .published _ => .isFalse id
  | .event _ _ _ _ => .isFalse id
  | .unsubscribed _ => .isFalse id
  | .abort => .isFalse id
  | .other _ => .isFalse id

end Message

def process (m : Message) (s : Session P E) : Outcome Exception Unit × Session P E :=
  (processIncomingMessage m).run interp s

section Unsolicited

variable {m : Message} {s : Session P E} {k : RequestKind} {requestId : UInt64}

theorem interp_findRequest_of_notMem (h : requestId ∉ s.requests k) :
    interp (.findRequest k requestId.toInt64) s = (none, s) := by
  have hn := Finmap.lookup_eq_none.mpr h
  simp only [interp, findFromMap_of_none hn, Function.update_eq_self]

theorem process_of_notMem (hm : m.answers = some (k, requestId)) (h : requestId ∉ s.requests k) :
    process m s = (if m.Unguarded then .undefined else .returned (), s) := by
  cases m with
  | error messageType x uri args kwargs =>
    cases messageType with
    | request k' =>
      obtain ⟨rfl, rfl⟩ : k' = k ∧ x = requestId := by simpa [Message.answers] using hm
      simp [process, processIncomingMessage, errorBranch, errorSwitch, failRequest,
        interp_findRequest_of_notMem h, Message.Unguarded]
    | _ => simp [Message.answers] at hm
  | result | registered | unregistered | published | subscribed | unsubscribed =>
    simp only [Message.answers, Option.some.injEq, Prod.mk.injEq] at hm
    obtain ⟨rfl, rfl⟩ := hm
    simp [process, processIncomingMessage, replyBranch, registeredBranch, unregisteredBranch,
      subscribedBranch, interp_findRequest_of_notMem h, Message.Unguarded]
  | _ => simp [Message.answers] at hm

theorem interp_findRequest_of_mem (h : requestId ∈ s.requests k) :
    ∃ r t, interp (.findRequest k requestId.toInt64) s = (some r, t) := by
  obtain ⟨r, hr⟩ := Table.mem_iff_lookup.mp h
  exact ⟨r, (interp (.findRequest k requestId.toInt64) s).2, Prod.ext (by simp [interp, hr]) rfl⟩

theorem complete_defined (p : PromiseId) (r : Reply) : (complete p r : Code P E Unit).Defined := by
  intro satisfied
  cases satisfied <;> trivial

theorem sendMessage_defined (m : Outgoing) : (sendMessage m : Code P E Unit).Defined := by
  intro connected
  cases connected with
  | true => exact fun _ => trivial
  | false => trivial

theorem goodbyeEnd_defined : (goodbyeEnd : Code P E Unit).Defined := by
  intro satisfied
  cases satisfied with
  | true =>
    intro _ closed
    cases closed <;> trivial
  | false => trivial

theorem goodbyeBranch_defined : (goodbyeBranch : Code P E Unit).Defined := by
  intro sent
  cases sent with
  | true => exact goodbyeEnd_defined
  | false =>
    exact ((sendMessage_defined _).bind fun _ => defined_perform _).bind fun _ => goodbyeEnd_defined

theorem process_ne_undefined_of_mem (hm : m.answers = some (k, requestId))
    (h : requestId ∈ s.requests k) : (process m s).1 ≠ .undefined := by
  obtain ⟨r, t, hf⟩ := interp_findRequest_of_mem h
  cases m with
  | error messageType x uri args kwargs =>
    cases messageType with
    | request k' =>
      obtain ⟨rfl, rfl⟩ : k' = k ∧ x = requestId := by simpa [Message.answers] using hm
      simp only [process, processIncomingMessage, errorBranch, errorSwitch, failRequest, op_bind, run_op, hf]
      exact ((complete_defined _ _).bind fun _ => defined_throw _).run_ne t
    | _ => simp [Message.answers] at hm
  | result | registered | unregistered | published | subscribed | unsubscribed =>
    simp only [Message.answers, Option.some.injEq, Prod.mk.injEq] at hm
    obtain ⟨rfl, rfl⟩ := hm
    simp only [process, processIncomingMessage, replyBranch, registeredBranch, unregisteredBranch,
      subscribedBranch, run_op, hf]
    exact (complete_defined _ _).run_ne _
  | _ => simp [Message.answers] at hm

theorem process_ne_undefined_of_no_answer (hm : m.answers = none) : (process m s).1 ≠ .undefined := by
  cases m with
  | goodbye => exact goodbyeBranch_defined.run_ne s
  | invocation requestId registrationId args kwargs details =>
    simp only [process, processIncomingMessage, invocationBranch, run_op]
    split <;> simp [perform]
  | event subscriptionId args kwargs details =>
    simp only [process, processIncomingMessage, eventBranch, run_op]
    split <;> simp [perform]
  | error messageType x uri args kwargs =>
    cases messageType with
    | request k => simp [Message.answers] at hm
    | _ => simp [process, processIncomingMessage, errorBranch, errorSwitch]
  | abort | other => simp [process, processIncomingMessage]
  | _ => simp [Message.answers] at hm

end Unsolicited

def NamesPending (s : Session P E) (m : Message) : Prop :=
  ∀ k requestId, m.answers = some (k, requestId) → m.Unguarded → requestId ∈ s.requests k

theorem process_ne_undefined_iff {s : Session P E} {m : Message} :
    (process m s).1 ≠ .undefined ↔ NamesPending s m := by
  constructor
  · intro hdefined k requestId hm hu
    by_contra hk
    rw [process_of_notMem hm hk, if_pos hu] at hdefined
    exact hdefined rfl
  · intro hguard
    cases hm : m.answers with
    | none => exact process_ne_undefined_of_no_answer hm
    | some a =>
      obtain ⟨k, requestId⟩ := a
      by_cases hk : requestId ∈ s.requests k
      · exact process_ne_undefined_of_mem hm hk
      · rw [process_of_notMem hm hk, if_neg fun hu => hk (hguard k requestId hm hu)]
        simp

/-- Processing the message uses no empty lookup, and if the message is a reply that nobody waits for
it changes nothing: no promise, no table and no flag. -/
def Withstands (s : Session P E) (m : Message) : Prop :=
  (process m s).1 ≠ .undefined ∧
    ∀ k requestId, m.answers = some (k, requestId) → requestId ∉ s.requests k → (process m s).2 = s

theorem withstands_iff (s : Session P E) (m : Message) : Withstands s m ↔ NamesPending s m := by
  constructor
  · exact fun h => process_ne_undefined_iff.mp h.1
  · exact fun h => ⟨process_ne_undefined_iff.mpr h,
      fun k requestId hm hk => by rw [process_of_notMem hm hk]⟩

theorem not_withstands_at_start :
    let s : Session Unit Unit := Session.start .quiet
    ¬ Withstands s (.subscribed 7 9) ∧
      ∀ k, ¬ Withstands s (.error (.request k) 7 (ascii "wamp.error.no_such_procedure") [] []) := by
  refine ⟨fun h => h.1 ?_, fun k h => h.1 ?_⟩
  · rw [process_of_notMem rfl Finmap.notMem_empty]
    rfl
  · rw [process_of_notMem rfl Finmap.notMem_empty]
    rfl

end XconnCpp.Sessions

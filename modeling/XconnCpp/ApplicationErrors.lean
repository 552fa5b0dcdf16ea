import XconnCpp.RoundTrip
import XconnCpp.InboundMessages

namespace XconnCpp.Sessions

open Library Library.Program Library.Program.Prog Values

variable {P E : Type}

structure SameError (e e' : ApplicationError False) : Prop where
  message : e.message = e'.message
  list : Tree.SameList e.list e'.list
  dict : Tree.SameDict e.dict e'.dict

def readError (uri : Str) (args : List CValue) (kwargs : CDict) : ApplicationError False :=
  ⟨cStr uri, fromCList args, fromCDict kwargs⟩

section Callee

variable {s : Session P E} {handler : P} {invocation : Invocation} {requestId : UInt64} {uri : Str}
  {args : List CValue} {kwargs : CDict} {e : ApplicationError False}

def RepliesError (s : Session P E) (handler : P) (invocation : Invocation) (requestId : UInt64)
    (uri : Str) (args : List CValue) (kwargs : CDict) : Prop :=
  ∃ details, ((Task.procedure ⟨some handler⟩ invocation requestId).code.run interp s).2.sent =
    s.sent ++ [.error .invocation requestId details uri (some args) (some kwargs)]

theorem repliesError_iff (hthrown : s.outcomes s.handlerCalls handler invocation = .applicationError e) :
    RepliesError s handler invocation requestId uri args kwargs ↔
      uri = errorRuntimeError ∧ args = vectorToList e.list ∧ kwargs = unorderedMapToDict e.dict := by
  have hsent : ((Task.procedure ⟨some handler⟩ invocation requestId : Task P E).code.run interp s).2.sent =
      s.sent ++ [.error .invocation requestId (some []) errorRuntimeError (some (vectorToList e.list))
        (some (unorderedMapToDict e.dict))] := by
    simp [Task.code, callProcedure, interp, hthrown, replyTo, transmit]
  simp only [RepliesError, hsent, List.append_cancel_left_eq, List.cons.injEq, and_true]
  constructor
  · rintro ⟨details, he⟩
    cases he
    exact ⟨rfl, rfl, rfl⟩
  · rintro ⟨rfl, rfl, rfl⟩
    exact ⟨_, rfl⟩

theorem cStr_errorRuntimeError : cStr errorRuntimeError = errorRuntimeError := by
  decide

theorem exists_repliesError_iff
    (hthrown : s.outcomes s.handlerCalls handler invocation = .applicationError e)
    (hlist : ListRoundTrips e.list) (hdict : DictRoundTrips e.dict) :
    (∃ uri args kwargs, RepliesError s handler invocation requestId uri args kwargs ∧
      SameError e (readError uri args kwargs)) ↔ e.message = errorRuntimeError := by
  simp only [repliesError_iff hthrown]
  constructor
  · rintro ⟨uri, args, kwargs, ⟨rfl, rfl, rfl⟩, hsame⟩
    exact hsame.message.trans cStr_errorRuntimeError
  · intro hmessage
    refine ⟨_, _, _, ⟨rfl, rfl, rfl⟩, hmessage.trans cStr_errorRuntimeError.symm, ?_, ?_⟩
    · exact hlist _ (Tree.sameList_refl _)
    · exact hdict _ (Tree.sameDict_refl _)

end Callee

section Caller

variable {s : Session P E} {requestId : UInt64} {r : Request P E .call} {uri : Str}
  {args : List CValue} {kwargs : CDict} {x : Exception}

def CallRaises (s : Session P E) (requestId : UInt64) (uri : Str) (args : List CValue) (kwargs : CDict)
    (x : Exception) : Prop :=
  ∃ r, (s.requests .call).lookup requestId = some r ∧
    ((waitWithTimeout r.promise : Code P E Reply).run interp
      (process (.error (.request .call) requestId uri args kwargs) s).2).1 = .threw x

theorem process_error (hpending : (s.requests .call).lookup requestId = some r)
    (hunset : s.promises r.promise = none) :
    (process (.error (.request .call) requestId uri args kwargs) s).2.promises r.promise =
      some (.exception (readError uri args kwargs).what) := by
  simp [process, processIncomingMessage, errorBranch, errorSwitch, failRequest, complete, interp,
    hpending, hunset, readError]

theorem wait_error (hpending : (s.requests .call).lookup requestId = some r)
    (hunset : s.promises r.promise = none) :
    ((waitWithTimeout r.promise : Code P E Reply).run interp
      (process (.error (.request .call) requestId uri args kwargs) s).2).1 =
        .threw (if s.dropped r.promise then .futureError
          else .runtimeError (readError uri args kwargs).what) := by
  have hdropped : (process (.error (.request .call) requestId uri args kwargs) s).2.dropped = s.dropped := by
    simp [process, processIncomingMessage, errorBranch, errorSwitch, failRequest, complete, interp, hpending,
      hunset]
  cases h : s.dropped r.promise <;>
    simp [waitWithTimeout, interp, process_error hpending hunset, hdropped, h]

theorem callRaises_iff (hpending : (s.requests .call).lookup requestId = some r)
    (hunset : s.promises r.promise = none) : CallRaises s requestId uri args kwargs x ↔
      x = if s.dropped r.promise then .futureError else .runtimeError (readError uri args kwargs).what := by
  constructor
  · rintro ⟨r', hr', hx⟩
    cases hpending.symm.trans hr'
    rw [wait_error hpending hunset] at hx
    exact (Outcome.threw.inj hx).symm
  · rintro rfl
    exact ⟨r, hpending, wait_error hpending hunset⟩

end Caller

section Sessions

variable {callee caller : Session P E} {handler : P} {invocation : Invocation}
  {requestId callId : UInt64} {e : ApplicationError False}

structure ErrorSurvives (e : ApplicationError False) (callee : Session P E) (handler : P)
    (invocation : Invocation) (requestId : UInt64) (caller : Session P E) (callId : UInt64) : Prop where
  sent : ∃ uri args kwargs, RepliesError callee handler invocation requestId uri args kwargs ∧
    SameError e (readError uri args kwargs)
  raised : ∀ uri args kwargs, ∃ e', CallRaises caller callId uri args kwargs (.applicationError e') ∧
    SameError (readError uri args kwargs) e'
  relayed : ∀ uri args kwargs, RepliesError callee handler invocation requestId uri args kwargs →
    ∃ e', CallRaises caller callId uri args kwargs (.applicationError e') ∧ SameError e e'

/-- No error survives: a caller never raises an `ApplicationError`, whatever ERROR it receives, and the
ERROR that a callee sends says `wamp.error.runtime_error` in place of the message. -/
theorem not_errorSurvives (e : ApplicationError False) (callee : Session P E) (handler : P)
    (invocation : Invocation) (requestId : UInt64) (caller : Session P E) (callId : UInt64)
    (r : Request P E .call)
    (hthrown : callee.outcomes callee.handlerCalls handler invocation = .applicationError e)
    (hlist : ListRoundTrips e.list) (hdict : DictRoundTrips e.dict)
    (hpending : (caller.requests .call).lookup callId = some r)
    (hunset : caller.promises r.promise = none) :
    ¬ ErrorSurvives e callee handler invocation requestId caller callId ∧
      ((∃ uri args kwargs, RepliesError callee handler invocation requestId uri args kwargs ∧
        SameError e (readError uri args kwargs)) ↔ e.message = errorRuntimeError) ∧
      ∀ uri args kwargs e', ¬ CallRaises caller callId uri args kwargs (.applicationError e') := by
  have hnever (uri : Str) (args : List CValue) (kwargs : CDict) (e' : ApplicationError False) :
      ¬ CallRaises caller callId uri args kwargs (.applicationError e') := by
    rw [callRaises_iff hpending hunset]
    split <;> simp
  refine ⟨fun h => ?_, exists_repliesError_iff hthrown hlist hdict, hnever⟩
  obtain ⟨e', hraises, -⟩ := h.raised errorRuntimeError [] []
  exact hnever _ _ _ e' hraises

def overdrawn : ApplicationError False :=
  ⟨ascii "com.example.error.overdrawn", [.leaf (.double ⟨0⟩)], [(ascii "account", .leaf .null)]⟩

def throwing : Session Unit Unit :=
  .start { (.quiet : Surroundings Unit Unit) with outcomes := fun _ _ _ => .applicationError overdrawn }

def calling : Session Unit Unit := { Session.start .quiet with
  requests := Function.update (fun _ => ∅) .call (Table.emplace ∅ 1 ⟨0, ()⟩) }

theorem lookup_calling : (calling.requests .call).lookup 1 = some ⟨0, ()⟩ := by
  have hrequests : calling.requests .call = Table.emplace ∅ 1 ⟨0, ()⟩ := by simp [calling]
  rw [hrequests, Table.lookup_emplace_self_of_none (Finmap.lookup_empty 1)]

theorem not_errorSurvives_overdrawn :
    ¬ ErrorSurvives overdrawn throwing () ⟨[], [], []⟩ 5 calling 1 ∧
      ((∃ uri args kwargs, RepliesError throwing () ⟨[], [], []⟩ 5 uri args kwargs ∧
        SameError overdrawn (readError uri args kwargs)) ↔ overdrawn.message = errorRuntimeError) ∧
      ∀ uri args kwargs e', ¬ CallRaises calling 1 uri args kwargs (.applicationError e') := by
  refine not_errorSurvives overdrawn throwing () ⟨[], [], []⟩ 5 calling 1 ⟨0, ()⟩ rfl ?_ ?_ lookup_calling rfl
  · rw [listRoundTrips_iff_value, roundTrips_iff (by simp [overdrawn, Tree.Distinct, Tree.DistinctList])]
    simp [overdrawn, Portable, Tree.All, Tree.AllList, Scalar.Portable]
  · rw [dictRoundTrips_iff_value, roundTrips_iff (by simp [overdrawn, Tree.Distinct, Tree.DistinctDict])]
    simp [overdrawn, Portable, Tree.All, Tree.AllDict, Scalar.Portable, ascii]

theorem overdrawn_lost : ¬ ErrorSurvives overdrawn throwing () ⟨[], [], []⟩ 5 calling 1 ∧
    ∃ uri args kwargs, RepliesError throwing () ⟨[], [], []⟩ 5 uri args kwargs ∧
      CallRaises calling 1 uri args kwargs
        (.runtimeError (ascii "wamp.error.runtime_error: [0]: \x7b\"account\": null\x7d")) := by
  have hreplies (uri : Str) (args : List CValue) (kwargs : CDict) :
      RepliesError throwing () ⟨[], [], []⟩ 5 uri args kwargs ↔ uri = errorRuntimeError ∧
        args = vectorToList overdrawn.list ∧ kwargs = unorderedMapToDict overdrawn.dict :=
    repliesError_iff rfl
  refine ⟨fun h => ?_, _, _, _, (hreplies _ _ _).mpr ⟨rfl, rfl, rfl⟩, ?_⟩
  · obtain ⟨e', hraises, -⟩ := h.raised errorRuntimeError [] []
    rw [callRaises_iff lookup_calling rfl] at hraises
    cases hraises
  · rw [callRaises_iff lookup_calling rfl]
    rfl

end Sessions

end XconnCpp.Sessions

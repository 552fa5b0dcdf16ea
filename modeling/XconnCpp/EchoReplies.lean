import XconnCpp.RoundTrip
import XconnCpp.HandlerTables

namespace XconnCpp.Sessions

open Library Library.Program Library.Program.Prog Values

variable {P E : Type}

section Echo

variable {s u : Session P E} {handler : P} {requestId registrationId : UInt64}
  {args : List CValue} {kwargs details : CDict} {result : Result}

/-- The constructor of a `Result` from an `Invocation`. -/
def echo (invocation : Invocation) : Result := ⟨invocation.args, invocation.kwargs, invocation.details⟩

structure SameResult (r r' : Result) : Prop where
  args : Tree.SameList r.args r'.args
  kwargs : Tree.SameDict r.kwargs r'.kwargs
  details : Tree.SameDict r.details r'.details

theorem SameResult.refl (r : Result) : SameResult r r :=
  ⟨Tree.sameList_refl _, Tree.sameDict_refl _, Tree.sameDict_refl _⟩

def YieldsReceived (requestId : UInt64) (args : List CValue) (kwargs : CDict) (m : Outgoing) : Prop :=
  ∃ options args' kwargs', m = .yield requestId options args' kwargs' ∧
    Tree.SameList args args' ∧ Tree.SameDict kwargs kwargs'

def Echoes (s : Session P E) (handler : P) : Prop :=
  ∀ n invocation, ∃ result, s.outcomes n handler invocation = .returned result ∧
    SameResult (echo invocation) result

theorem run_task_of_returned {invocation : Invocation}
    (hreturned : u.outcomes u.handlerCalls handler invocation = .returned result) :
    ((Task.procedure ⟨some handler⟩ invocation requestId).code.run interp u).2.sent =
      u.sent ++ [.yield requestId (unorderedMapToDict result.details) (vectorToList result.args)
        (unorderedMapToDict result.kwargs)] := by
  simp [Task.code, callProcedure, interp, hreturned, replyTo, transmit]

theorem yieldsReceived_of_echo (hargs : WellFormed (.list args)) (hkwargs : WellFormed (.dict kwargs))
    (hresult : SameResult (echo ⟨fromCList args, fromCDict kwargs, fromCDict details⟩) result)
    (options : CDict) : YieldsReceived requestId args kwargs
      (.yield requestId options (vectorToList result.args) (unorderedMapToDict result.kwargs)) :=
  ⟨options, _, _, rfl, sameList_vectorToList hargs hresult.args,
    sameDict_unorderedMapToDict hkwargs hresult.kwargs⟩

theorem act_invocation (hregistered : s.registrations.lookup registrationId = some ⟨some handler⟩) :
    ∃ t, act s (.inbound (.invocation requestId registrationId args kwargs details)) = some t ∧
      t.tasks = s.tasks ++
        [.procedure ⟨some handler⟩ ⟨fromCList args, fromCDict kwargs, fromCDict details⟩ requestId] := by
  obtain ⟨t, ht, htasks⟩ :=
    act_of_no_answer (m := .invocation requestId registrationId args kwargs details) rfl s
  refine ⟨t, ht, ?_⟩
  simpa [dispatched, hregistered] using htasks

/-- Decoding and encoding give back every value on the wire, so that the task of an INVOCATION, which has
the decoded values, replies with what has been received when its handler echoes, in whatever state the task
is run. -/
theorem wire_values_preserved :
    (∀ c : CValue, WellFormed c → ∀ v, (fromCValue c).Same v → c.Same (toCValue v)) ∧
    ∀ (s : Session P E) (handler : P) (requestId registrationId : UInt64) (args : List CValue)
      (kwargs details : CDict), WellFormed (.list args) → WellFormed (.dict kwargs) →
      s.registrations.lookup registrationId = some ⟨some handler⟩ →
      let task : Task P E :=
        .procedure ⟨some handler⟩ ⟨fromCList args, fromCDict kwargs, fromCDict details⟩ requestId
      (∃ t, act s (.inbound (.invocation requestId registrationId args kwargs details)) = some t ∧
        t.tasks = s.tasks ++ [task]) ∧
      ∀ u : Session P E, Echoes u handler →
        ∃ m, (task.code.run interp u).2.sent = u.sent ++ [m] ∧ YieldsReceived requestId args kwargs m := by
  refine ⟨fun c hc v hv => same_toCValue hc hv, ?_⟩
  intro s handler requestId registrationId args kwargs details hargs hkwargs hregistered task
  refine ⟨act_invocation hregistered, fun u hechoes => ?_⟩
  obtain ⟨result, hreturned, hresult⟩ :=
    hechoes u.handlerCalls ⟨fromCList args, fromCDict kwargs, fromCDict details⟩
  exact ⟨_, run_task_of_returned hreturned, yieldsReceived_of_echo hargs hkwargs hresult _⟩

def nestedKwargs : CDict :=
  [(ascii "b", .list [.leaf (.bool 1), .leaf .null]), (ascii "a", .dict [(ascii "b", .leaf (.str (some [])))])]

def echoing : Session Unit Unit := { (Session.start .quiet : Session Unit Unit) with
  outcomes := fun _ _ invocation => .returned (echo invocation)
  registrations := Table.emplace ∅ 9 ⟨some ()⟩ }

theorem wire_values_preserved_nested :
    (Tree.dict nestedKwargs : CValue).Same (toCValue (fromCValue (.dict nestedKwargs))) ∧
    let task : Task Unit Unit :=
      .procedure ⟨some ()⟩ ⟨fromCList [.leaf (.int 1)], fromCDict nestedKwargs, fromCDict []⟩ 5
    (∃ t, act echoing (.inbound (.invocation 5 9 [.leaf (.int 1)] nestedKwargs [])) = some t ∧
      t.tasks = [task]) ∧
    ∃ m, (task.code.run interp echoing).2.sent = [m] ∧ YieldsReceived 5 [.leaf (.int 1)] nestedKwargs m := by
  have hkwargs : WellFormed (.dict nestedKwargs) := by
    constructor
    · simp [nestedKwargs, Tree.Distinct, Tree.DistinctList, Tree.DistinctDict, ascii]
    · simp [nestedKwargs, Tree.All, Tree.AllList, Tree.AllDict, CScalar.WellFormed, ascii]
  have hargs : WellFormed (.list [.leaf (.int 1)]) := by
    simp [WellFormed, Tree.Distinct, Tree.DistinctList, Tree.All, Tree.AllList, CScalar.WellFormed]
  have hechoes : Echoes echoing () := fun _ invocation => ⟨_, rfl, SameResult.refl (echo invocation)⟩
  refine ⟨wire_values_preserved (P := Unit) (E := Unit).1 _ hkwargs _ (Tree.same_refl _), ?_⟩
  obtain ⟨hact, hyields⟩ := wire_values_preserved.2 echoing () 5 9 [.leaf (.int 1)] nestedKwargs [] hargs
    hkwargs (Table.lookup_emplace_self_of_none (Finmap.lookup_empty 9))
  exact ⟨hact, hyields echoing hechoes⟩

end Echo

end XconnCpp.Sessions

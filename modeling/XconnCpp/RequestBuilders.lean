import XconnCpp.SentFrames
import XconnCpp.RoundTrip

namespace XconnCpp.Sessions

open Library Library.Program Library.Program.Prog Library.Transition Values

variable {P E : Type}

section Builders

structure Fields where
  args : List WholeValue
  kwargs : WholeDict
  options : WholeDict

namespace Fields

def empty : Fields := ⟨[], [], []⟩

def arg (f : Fields) (v : WholeValue) : Fields := { f with args := f.args ++ [v] }

def kwarg (f : Fields) (key : Str) (v : WholeValue) : Fields := { f with kwargs := Tree.assign f.kwargs key v }

def option (f : Fields) (key : Str) (v : WholeValue) : Fields := { f with options := Tree.assign f.options key v }

end Fields

structure CallRequest where
  procedure : Str
  fields : Fields

namespace CallRequest

def arg (r : CallRequest) (v : WholeValue) : CallRequest := { r with fields := r.fields.arg v }

def kwarg (r : CallRequest) (key : Str) (v : WholeValue) : CallRequest :=
  { r with fields := r.fields.kwarg key v }

def option (r : CallRequest) (key : Str) (v : WholeValue) : CallRequest :=
  { r with fields := r.fields.option key v }

def operation (r : CallRequest) : Operation P E :=
  .call r.procedure r.fields.args r.fields.kwargs r.fields.options

end CallRequest

structure RegisterRequest (P : Type) where
  procedure : Str
  handler : StdFunction P
  options : WholeDict

namespace RegisterRequest

def option (r : RegisterRequest P) (key : Str) (v : WholeValue) : RegisterRequest P :=
  { r with options := Tree.assign r.options key v }

def operation (r : RegisterRequest P) : Operation P E := .register r.procedure r.handler r.options

end RegisterRequest

structure PublishRequest where
  topic : Str
  fields : Fields

namespace PublishRequest

def arg (r : PublishRequest) (v : WholeValue) : PublishRequest := { r with fields := r.fields.arg v }

def kwarg (r : PublishRequest) (key : Str) (v : WholeValue) : PublishRequest :=
  { r with fields := r.fields.kwarg key v }

def option (r : PublishRequest) (key : Str) (v : WholeValue) : PublishRequest :=
  { r with fields := r.fields.option key v }

def acknowledge (r : PublishRequest) (value : Bool) : PublishRequest :=
  { r with fields := r.fields.option (ascii "acknowledge") (.leaf (.bool value)) }

def operation (r : PublishRequest) : Operation P E :=
  .publish r.topic r.fields.args r.fields.kwargs r.fields.options

end PublishRequest

structure SubscribeRequest (E : Type) where
  topic : Str
  handler : StdFunction E
  options : WholeDict

namespace SubscribeRequest

def option (r : SubscribeRequest E) (key : Str) (v : WholeValue) : SubscribeRequest E :=
  { r with options := Tree.assign r.options key v }

def operation (r : SubscribeRequest E) : Operation P E := .subscribe r.topic r.handler r.options

end SubscribeRequest

namespace Session

def call (procedure : Str) : CallRequest := ⟨procedure, .empty⟩

def register (procedure : Str) (handler : StdFunction P) : RegisterRequest P := ⟨procedure, handler, []⟩

def publish (topic : Str) : PublishRequest := ⟨topic, .empty⟩

def subscribe (topic : Str) (handler : StdFunction E) : SubscribeRequest E := ⟨topic, handler, []⟩

end Session

structure Registration where
  registrationId : UInt64

def Registration.unregister (r : Registration) : Operation P E := .unregister r.registrationId

structure Subscription where
  subscriptionId : UInt64

def Subscription.unsubscribe (s : Subscription) : Operation P E := .unsubscribe s.subscriptionId

end Builders

section Chains

inductive Setting
  | arg (v : WholeValue)
  | kwarg (key : Str) (v : WholeValue)
  | option (key : Str) (v : WholeValue)

namespace Setting

def value : Setting → WholeValue
  | .arg v => v
  | .kwarg _ v => v
  | .option _ v => v

def arg? : Setting → Option WholeValue
  | .arg v => some v
  | _ => none

def kwarg? : Setting → Option (Str × WholeValue)
  | .kwarg key v => some (key, v)
  | _ => none

def option? : Setting → Option (Str × WholeValue)
  | .option key v => some (key, v)
  | _ => none

end Setting

def Fields.set (f : Fields) : Setting → Fields
  | .arg v => f.arg v
  | .kwarg key v => f.kwarg key v
  | .option key v => f.option key v

def CallRequest.set (r : CallRequest) : Setting → CallRequest
  | .arg v => r.arg v
  | .kwarg key v => r.kwarg key v
  | .option key v => r.option key v

def PublishRequest.set (r : PublishRequest) : Setting → PublishRequest
  | .arg v => r.arg v
  | .kwarg key v => r.kwarg key v
  | .option key v => r.option key v

@[simp] theorem acknowledge_eq_set (r : PublishRequest) (value : Bool) :
    r.acknowledge value = r.set (.option (ascii "acknowledge") (.leaf (.bool value))) := rfl

variable {settings : List Setting}

theorem fields_call (procedure : Str) (settings : List Setting) :
    (settings.foldl CallRequest.set (Session.call procedure)).fields = settings.foldl Fields.set .empty := by
  induction settings using List.reverseRecOn with
  | nil => rfl
  | append_singleton settings s ih =>
    rw [List.foldl_concat, List.foldl_concat, ← ih]
    cases s <;> rfl

theorem fields_publish (topic : Str) (settings : List Setting) :
    (settings.foldl PublishRequest.set (Session.publish topic)).fields = settings.foldl Fields.set .empty := by
  induction settings using List.reverseRecOn with
  | nil => rfl
  | append_singleton settings s ih =>
    rw [List.foldl_concat, List.foldl_concat, ← ih]
    cases s <;> rfl

theorem fields_of_settings (settings : List Setting) : settings.foldl Fields.set .empty =
    ⟨settings.filterMap Setting.arg?, Tree.collect (settings.filterMap Setting.kwarg?),
      Tree.collect (settings.filterMap Setting.option?)⟩ := by
  induction settings using List.reverseRecOn with
  | nil => rfl
  | append_singleton settings s ih =>
    rw [List.foldl_concat, ih]
    cases s <;> simp [Fields.set, Fields.arg, Fields.kwarg, Fields.option, List.filterMap_append,
      List.filterMap_cons, Setting.arg?, Setting.kwarg?, Setting.option?, Tree.collect]

inductive Built (settings : List Setting) : Operation P E → Prop
  | call (procedure : Str) : Built settings (settings.foldl CallRequest.set (Session.call procedure)).operation
  | publish (topic : Str) : Built settings (settings.foldl PublishRequest.set (Session.publish topic)).operation

def Outgoing.content : Outgoing → Option (List CValue × CDict × CDict)
  | .call _ options _ args kwargs => some (args, kwargs, options)
  | .publish _ options _ args kwargs => some (args, kwargs, options)
  | _ => none

theorem content_of_built {operation : Operation P E} (h : Built settings operation) (requestId : UInt64) :
    (operation.frame requestId).content = some (vectorToList (settings.filterMap Setting.arg?),
      unorderedMapToDict (Tree.collect (settings.filterMap Setting.kwarg?)),
      unorderedMapToDict (Tree.collect (settings.filterMap Setting.option?))) := by
  cases h with
  | call procedure =>
    simp [CallRequest.operation, Operation.frame, Outgoing.content, fields_call, fields_of_settings]
  | publish topic =>
    simp [PublishRequest.operation, Operation.frame, Outgoing.content, fields_publish, fields_of_settings]

def Arrives (settings : List Setting) (m : Outgoing) : Prop :=
  ∃ args kwargs options, m.content = some (args, kwargs, options) ∧
    (∀ c, Tree.SameList args c → Tree.SameList (settings.filterMap Setting.arg?) (fromCList c)) ∧
    (∀ c, Tree.SameDict kwargs c →
      Tree.SameDict (Tree.collect (settings.filterMap Setting.kwarg?)) (fromCDict c)) ∧
    ∀ c, Tree.SameDict options c →
      Tree.SameDict (Tree.collect (settings.filterMap Setting.option?)) (fromCDict c)

def PortableInForce (pairs : List (Str × WholeValue)) : Prop :=
  ∀ key v, pairs.reverse.lookup key = some v → 0 ∉ key ∧ Portable v

theorem portableInForce_iff (pairs : List (Str × WholeValue)) :
    PortableDict (Tree.collect pairs) ↔ PortableInForce pairs := by
  rw [PortableDict, Tree.allDict_iff]
  constructor
  · exact fun h key v hlast => h (key, v) (Tree.mem_collect_iff.mpr hlast)
  · exact fun h p hp => h p.1 p.2 (Tree.mem_collect_iff.mp hp)

theorem distinct_collect {pairs : List (Str × WholeValue)} (h : ∀ p ∈ pairs, p.2.Distinct) :
    (Tree.dict (Tree.collect pairs) : WholeValue).Distinct :=
  ⟨Tree.nodup_collect _, Tree.distinctDict_iff.mpr fun p hp => h p (Tree.mem_of_mem_collect hp)⟩

theorem portableList_iff (vs : List WholeValue) : PortableList vs ↔ ∀ v ∈ vs, Portable v := by
  induction vs with
  | nil => simp [PortableList, Tree.AllList]
  | cons v vs ih => simpa [PortableList, Tree.AllList, Portable] using fun _ => ih

theorem distinctList_iff (vs : List WholeValue) : Tree.DistinctList vs ↔ ∀ v ∈ vs, v.Distinct := by
  induction vs with
  | nil => simp [Tree.DistinctList]
  | cons v vs ih => simp [Tree.DistinctList, ih]

theorem arrives_iff {m : Outgoing} (hproper : ∀ s ∈ settings, s.value.Distinct)
    (hm : m.content = some (vectorToList (settings.filterMap Setting.arg?),
      unorderedMapToDict (Tree.collect (settings.filterMap Setting.kwarg?)),
      unorderedMapToDict (Tree.collect (settings.filterMap Setting.option?)))) :
    Arrives settings m ↔ (∀ v ∈ settings.filterMap Setting.arg?, Portable v) ∧
      PortableInForce (settings.filterMap Setting.kwarg?) ∧
      PortableInForce (settings.filterMap Setting.option?) := by
  have hargs : ∀ v ∈ settings.filterMap Setting.arg?, v.Distinct := by
    intro v hv
    obtain ⟨s, hs, hvalue⟩ := List.mem_filterMap.mp hv
    cases s with
    | arg v' =>
      cases hvalue
      exact hproper _ hs
    | _ => cases hvalue
  have hkwargs : ∀ p ∈ settings.filterMap Setting.kwarg?, p.2.Distinct := by
    intro p hp
    obtain ⟨s, hs, hvalue⟩ := List.mem_filterMap.mp hp
    cases s with
    | kwarg key v =>
      cases hvalue
      exact hproper _ hs
    | _ => cases hvalue
  have hoptions : ∀ p ∈ settings.filterMap Setting.option?, p.2.Distinct := by
    intro p hp
    obtain ⟨s, hs, hvalue⟩ := List.mem_filterMap.mp hp
    cases s with
    | option key v =>
      cases hvalue
      exact hproper _ hs
    | _ => cases hvalue
  have hlist := (listRoundTrips_iff_value _).trans (roundTrips_iff ((distinctList_iff _).mpr hargs))
  have hdict := (dictRoundTrips_iff_value _).trans (roundTrips_iff (distinct_collect hkwargs))
  have hdict' := (dictRoundTrips_iff_value _).trans (roundTrips_iff (distinct_collect hoptions))
  rw [← portableList_iff, ← portableInForce_iff, ← portableInForce_iff]
  rw [show PortableList _ ↔ _ from hlist.symm, show PortableDict _ ↔ _ from hdict.symm,
    show PortableDict _ ↔ _ from hdict'.symm]
  constructor
  · rintro ⟨args, kwargs, options, he, harrives⟩
    cases hm.symm.trans he
    exact harrives
  · exact fun h => ⟨_, _, _, hm, h⟩

theorem frame_of_sends {surroundings : Surroundings P E} {choices : List (Choice P E)} {w : World P E} {i : ℕ}
    {operation : Operation P E} {rest : Code P E Reply} {m : Outgoing}
    (hrun : exec World.step (World.start surroundings) choices = some w)
    (hi : w.threads[i]? = some (.request operation rest)) (ho : rest.head? = some (.send m)) :
    ∃ requestId, m = operation.frame requestId := by
  obtain ⟨drawn, hsigned⟩ := signed_of_exec hrun
  obtain ⟨-, q, rfl, hfiles, hstands⟩ := hsigned.filing i _ hi
  obtain ⟨A, rfl, hm⟩ : ∃ A, q = .ready A ∧ A m := Follows.head hfiles ho
  obtain ⟨k, -, hframe⟩ : ∃ k, drawn i = some k ∧ m = operation.frame (surroundings.ids k) := hstands.2 m hm
  exact ⟨_, hframe⟩

/-- Whatever chain of calls has built a CALL or a PUBLISH, what it sends arrives as it was built exactly
when the arguments and the last value set for every key do survive the C representation. -/
theorem built_requests_arrive_iff (surroundings : Surroundings P E) (choices : List (Choice P E)) (w : World P E)
    (hrun : exec World.step (World.start surroundings) choices = some w) (settings : List Setting)
    (hproper : ∀ s ∈ settings, s.value.Distinct) (operation : Operation P E) (hbuilt : Built settings operation)
    (i : ℕ) (rest : Code P E Reply) (m : Outgoing) (hi : w.threads[i]? = some (.request operation rest))
    (ho : rest.head? = some (.send m)) :
    Arrives settings m ↔ (∀ v ∈ settings.filterMap Setting.arg?, Portable v) ∧
      PortableInForce (settings.filterMap Setting.kwarg?) ∧
      PortableInForce (settings.filterMap Setting.option?) := by
  obtain ⟨requestId, rfl⟩ := frame_of_sends hrun hi ho
  exact arrives_iff hproper (content_of_built hbuilt requestId)

def overwriting : List Setting :=
  [.kwarg (ascii "age") (.leaf (.uint64 25)), .arg (.leaf (.bool true)),
    .kwarg (ascii "age") (.leaf (.int64 25))]

def overwritingCall : Operation Unit Unit :=
  (overwriting.foldl CallRequest.set (Session.call (ascii "io.xconn.sum"))).operation

def overwritingChoices : List (Choice Unit Unit) := [.request overwritingCall, .thread 0, .thread 0, .thread 0]

theorem built_requests_arrive_iff_overwriting :
    ∃ (w : World Unit Unit) (rest : Code Unit Unit Reply) (m : Outgoing),
      exec World.step (World.start .quiet) overwritingChoices = some w ∧
      w.threads[0]? = some (.request overwritingCall rest) ∧ rest.head? = some (.send m) ∧
      (Arrives overwriting m ↔ (∀ v ∈ overwriting.filterMap Setting.arg?, Portable v) ∧
        PortableInForce (overwriting.filterMap Setting.kwarg?) ∧
        PortableInForce (overwriting.filterMap Setting.option?)) := by
  have hproper : ∀ s ∈ overwriting, s.value.Distinct := by
    simp [overwriting, Setting.value, Tree.Distinct]
  refine ⟨_, _, _, rfl, rfl, rfl, ?_⟩
  exact built_requests_arrive_iff .quiet overwritingChoices _ rfl overwriting hproper overwritingCall (.call _) 0
    _ _ rfl rfl

end Chains

end XconnCpp.Sessions

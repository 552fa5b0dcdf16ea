import XconnCpp.ReceiverInvariants

namespace XconnCpp.Sessions

open Library Library.Program Library.Program.Prog Library.Transition Values

variable {P E : Type}

section Receiver

def holdingProtocol : Protocol (Option PromiseId) (Op P E) Res where
  allows held o :=
    match o with
    | .setPromise p _ => held = some p
    | .nextId | .emplaceRequest _ _ _ => False
    | _ => True
  next held o r :=
    match o, r with
    | .findRequest _ _, found => found.map (·.promise)
    | .setPromise _ _, _ => none
    | _, _ => held

abbrev Holds {α : Type} (p : Code P E α) (held : Option PromiseId) : Prop :=
  p.Follows holdingProtocol (fun _ => True) (fun _ => True) held

def Op.Empty : Op P E → Prop
  | .setPromise _ _ | .nextId | .emplaceRequest _ _ _ | .findRequest _ _ => False
  | _ => True

theorem holds_of_empty {α : Type} {p : Code P E α} (hp : p.Uses Op.Empty) (held : Option PromiseId) :
    Holds p held := by
  apply hp.follows (I := fun _ => True) _ (fun _ h => h) (fun _ h => h) trivial
  intro o ho q _
  cases o <;> first | exact ho.elim | exact ⟨trivial, fun _ => trivial⟩

theorem holds_complete (p : PromiseId) (r : Reply) : Holds (complete p r : Code P E Unit) (some p) := by
  refine ⟨rfl, fun satisfied => ?_⟩
  cases satisfied <;> trivial

theorem holds_processIncomingMessage (m : Message) (held : Option PromiseId) :
    Holds (processIncomingMessage m : Code P E Unit) held := by
  cases m with
  | goodbye =>
    apply holds_of_empty
    apply uses_goodbyeBranch.mono
    intro o ho
    cases o <;> first | exact ho.elim | trivial
  | abort | other => trivial
  | result | published | unsubscribed =>
    refine ⟨trivial, fun found => ?_⟩
    cases found with
    | none => trivial
    | some r => exact holds_complete _ _
  | registered | unregistered | subscribed =>
    refine ⟨trivial, fun found => ?_⟩
    cases found with
    | none => trivial
    | some r => exact ⟨trivial, fun _ => holds_complete _ _⟩
  | invocation | event =>
    refine ⟨trivial, fun found => ?_⟩
    cases found with
    | none => trivial
    | some handler => exact ⟨trivial, fun _ => trivial⟩
  | error messageType requestId uri args kwargs =>
    refine Follows.bind (fun _ => True) ?_ fun _ _ _ => trivial
    cases messageType with
    | request k =>
      refine ⟨trivial, fun found => ?_⟩
      cases found with
      | none => trivial
      | some r => exact holds_complete _ _
    | _ => trivial

theorem holds_waitRound (held : Option PromiseId) : Holds (waitRound : Code P E Bool) held := by
  refine ⟨trivial, fun running => ?_⟩
  cases running with
  | false => trivial
  | true =>
    refine Follows.bind (fun _ => True) ?_ fun _ _ _ => trivial
    refine Follows.tryCatch ⟨trivial, fun i => ?_⟩ fun _ _ _ => trivial
    cases i with
    | message m => exact holds_processIncomingMessage m _
    | _ => trivial

end Receiver

section Owners

structure Owned (s : Session P E) (held : Option PromiseId) : Prop where
  fresh : ∀ p, s.nextPromise ≤ p → s.promises p = none
  pending : ∀ k requestId r, (s.requests k).lookup requestId = some r →
    r.promise < s.nextPromise ∧ s.promises r.promise = none ∧ held ≠ some r.promise
  apart : ∀ k requestId r j id q, (s.requests k).lookup requestId = some r →
    (s.requests j).lookup id = some q → r.promise = q.promise → k = j ∧ requestId = id
  held : ∀ p, held = some p → p < s.nextPromise ∧ s.promises p = none

variable {s t : Session P E} {held : Option PromiseId} {k : RequestKind} {requestId : UInt64}

theorem Owned.of_eq (h : Owned s held) (hrequests : t.requests = s.requests)
    (hpromises : t.promises = s.promises) (hnext : t.nextPromise = s.nextPromise) : Owned t held := by
  constructor
  · rw [hpromises, hnext]
    exact h.fresh
  · rw [hrequests, hpromises, hnext]
    exact h.pending
  · rw [hrequests]
    exact h.apart
  · rw [hpromises, hnext]
    exact h.held

theorem lookup_after_emplace {payload : Payload P E k} {j : RequestKind} {id : UInt64}
    {r : Request P E j} (hr : ((interp (.emplaceRequest k requestId payload) s).2.requests j).lookup id =
      some r) : (s.requests j).lookup id = some r ∨ j = k ∧ id = requestId ∧ r.promise = s.nextPromise := by
  by_cases hj : j = k
  · subst hj
    simp only [interp, Function.update_self] at hr
    by_cases hmem : requestId ∈ s.requests j
    · rw [Table.emplace_of_mem hmem] at hr
      exact .inl hr
    · rw [Table.emplace_of_notMem hmem] at hr
      by_cases hid : id = requestId
      · subst hid
        rw [Finmap.lookup_insert] at hr
        obtain rfl := Option.some.inj hr
        exact .inr ⟨rfl, rfl, rfl⟩
      · rw [Finmap.lookup_insert_of_ne _ hid] at hr
        exact .inl hr
  · left
    simpa [interp, hj] using hr

theorem Owned.emplace (h : Owned s held) (payload : Payload P E k) :
    Owned (interp (.emplaceRequest k requestId payload) s).2 held := by
  have hnext : (interp (.emplaceRequest k requestId payload) s).2.nextPromise = s.nextPromise + 1 := rfl
  have hpromises : (interp (.emplaceRequest k requestId payload) s).2.promises = s.promises := rfl
  have hnew : s.promises s.nextPromise = none := h.fresh _ le_rfl
  have hnot {p : PromiseId} (hlt : p < s.nextPromise) : p ≠ s.nextPromise := Nat.ne_of_lt hlt
  constructor
  · intro p hp
    exact h.fresh p (Nat.le_of_succ_le hp)
  · intro j id r hr
    rw [hnext, hpromises]
    rcases lookup_after_emplace hr with hr | ⟨-, -, hr⟩
    · obtain ⟨hlt, hunset, hheld⟩ := h.pending j id r hr
      exact ⟨Nat.lt_succ_of_lt hlt, hunset, hheld⟩
    · rw [hr]
      exact ⟨Nat.lt_succ_self _, hnew, fun hheld => hnot (h.held _ hheld).1 rfl⟩
  · intro j id r j' id' r' hr hr' he
    rcases lookup_after_emplace hr with hold | ⟨rfl, rfl, hp⟩
    · rcases lookup_after_emplace hr' with hold' | ⟨rfl, rfl, hp'⟩
      · exact h.apart j id r j' id' r' hold hold' he
      · exact absurd (he.trans hp') (hnot (h.pending j id r hold).1)
    · rcases lookup_after_emplace hr' with hold' | ⟨rfl, rfl, -⟩
      · exact absurd (he.symm.trans hp) (hnot (h.pending j' id' r' hold').1)
      · exact ⟨rfl, rfl⟩
  · intro p hp
    rw [hnext, hpromises]
    obtain ⟨hlt, hunset⟩ := h.held p hp
    exact ⟨Nat.lt_succ_of_lt hlt, hunset⟩

theorem lookup_after_find {i : Int64} {j : RequestKind} {id : UInt64} {r : Request P E j}
    (hr : ((interp (.findRequest k i) s).2.requests j).lookup id = some r) :
    (s.requests j).lookup id = some r ∧ ¬ (j = k ∧ id = i.toUInt64) := by
  by_cases hj : j = k
  · subst hj
    simp only [interp, Function.update_self, findFromMap_erase] at hr
    by_cases hid : id = i.toUInt64
    · subst hid
      rw [Finmap.lookup_erase] at hr
      cases hr
    · rw [Finmap.lookup_erase_ne hid] at hr
      exact ⟨hr, fun hsame => hid hsame.2⟩
  · exact ⟨by simpa [interp, hj] using hr, fun hsame => hj hsame.1⟩

theorem Owned.find (h : Owned s held) (k : RequestKind) (i : Int64) :
    Owned (interp (.findRequest k i) s).2 ((interp (.findRequest k i) s).1.map (·.promise)) := by
  have hfound : (interp (.findRequest k i) s).1 = (s.requests k).lookup i.toUInt64 := by
    simp only [interp, findFromMap_erase]
  rw [hfound]
  constructor
  · exact h.fresh
  · intro j id r hr
    obtain ⟨hold, hnot⟩ := lookup_after_find hr
    obtain ⟨hlt, hunset, -⟩ := h.pending j id r hold
    refine ⟨hlt, hunset, fun hsame => ?_⟩
    obtain ⟨q, hq, hpromise⟩ := Option.map_eq_some_iff.mp hsame
    exact hnot (h.apart j id r k _ q hold hq hpromise.symm)
  · intro j id r j' id' r' hr hr'
    exact h.apart j id r j' id' r' (lookup_after_find hr).1 (lookup_after_find hr').1
  · intro p hp
    obtain ⟨q, hq, rfl⟩ := Option.map_eq_some_iff.mp hp
    obtain ⟨hlt, hunset, -⟩ := h.pending k _ q hq
    exact ⟨hlt, hunset⟩

theorem Owned.set {p : PromiseId} (h : Owned s (some p)) (r : Reply) :
    Owned (interp (.setPromise p r) s).2 none := by
  obtain ⟨hlt, -⟩ := h.held p rfl
  have hother {q : PromiseId} (hq : q ≠ p) :
      (interp (.setPromise p r : Op P E) s).2.promises q = s.promises q := by
    simp [interp, hq]
  constructor
  · intro q (hq : s.nextPromise ≤ q)
    rw [hother (Nat.ne_of_gt (Nat.lt_of_lt_of_le hlt hq))]
    exact h.fresh q hq
  · intro j id q hq
    obtain ⟨hlt', hunset, hnot⟩ := h.pending j id q hq
    have hne : q.promise ≠ p := fun he => hnot (he ▸ rfl)
    exact ⟨hlt', (hother hne).trans hunset, by simp⟩
  · exact h.apart
  · intro q hq
    cases hq

theorem guards_owned : Guards (P := P) (E := E) holdingProtocol (fun _ => True) Op.ByOthers Owned where
  round held _ := holds_waitRound held
  own s held o h ho := by
    cases o with
    | findRequest k i => exact h.find k i
    | setPromise p r =>
      obtain rfl : held = some p := ho
      exact h.set r
    | nextId | emplaceRequest => exact ho.elim
    | receive =>
      cases hi : s.inbox
      all_goals exact h.of_eq (by simp [interp, hi]) (by simp [interp, hi]) (by simp [interp, hi])
    | _ => exact h.of_eq rfl rfl rfl
  other s held o h ho := by
    cases o with
    | emplaceRequest k requestId payload => exact h.emplace payload
    | findRequest | setPromise | receive =>
      simp [Op.ByOthers, Op.OfRequest, Op.OfLeave, Op.OfTask] at ho
    | _ => exact h.of_eq rfl rfl rfl
  dequeue _ _ _ _ h _ := h.of_eq rfl rfl rfl

end Owners

section Runs

variable {w : World P E} {surroundings : Surroundings P E} {choices : List (Choice P E)}

theorem owned_of_exec (hrun : exec World.step (World.start surroundings) choices = some w) :
    Guarded holdingProtocol (fun _ => True) Owned w := by
  apply guards_owned.of_exec (q := none) trivial _ hrun
  constructor <;> simp [Session.start]

/-- Whatever ids are given and whatever the router sends: no two pending requests share a promise, none
of these promises has been set, and a promise that is about to be set has not been set before. -/
theorem promises_have_one_owner (surroundings : Surroundings P E) (choices : List (Choice P E))
    (w : World P E) (hrun : exec World.step (World.start surroundings) choices = some w) :
    (∀ k requestId r, (w.session.requests k).lookup requestId = some r →
      w.session.promises r.promise = none) ∧
    (∀ k requestId r j id q, (w.session.requests k).lookup requestId = some r →
      (w.session.requests j).lookup id = some q → r.promise = q.promise → k = j ∧ requestId = id) ∧
    ∀ l p r, w.performs l = some (.setPromise p r) → w.session.promises p = none ∧
      ∀ k requestId q, (w.session.requests k).lookup requestId = some q → q.promise ≠ p := by
  have hguarded := owned_of_exec hrun
  have howned := hguarded
  obtain ⟨held, -, h⟩ := howned
  refine ⟨fun k requestId r hr => (h.pending k requestId r hr).2.1, h.apart, fun l p r hl => ?_⟩
  cases l with
  | receiver =>
    obtain ⟨held, h, hallows⟩ := hguarded.allows hl
    obtain rfl : held = some p := hallows
    refine ⟨(h.held p rfl).2, fun k requestId q hq he => ?_⟩
    exact (h.pending k requestId q hq).2.2 (he ▸ rfl)
  | thread i =>
    have hothers := byOthers_of_exec hrun hl
    simp [Op.ByOthers, Op.OfRequest, Op.OfLeave, Op.OfTask] at hothers
  | _ => cases hl

def sharedId : Surroundings Unit Unit :=
  { (.receiving [.message (.unsubscribed 1)] : Surroundings Unit Unit) with ids := fun _ => 1 }

def sharedIdChoices : List (Choice Unit Unit) :=
  [.request (.unsubscribe 7), .request (.unsubscribe 7), .thread 0, .thread 1, .thread 0, .thread 1,
    .receiver, .receiver, .receiver]

theorem promises_have_one_owner_shared_id : ∃ w : World Unit Unit,
    exec World.step (World.start sharedId) sharedIdChoices = some w ∧
      w.performs .receiver = some (.setPromise 0 .acknowledged) ∧ w.session.promises 0 = none :=
  ⟨_, rfl, rfl,
    ((promises_have_one_owner sharedId sharedIdChoices _ rfl).2.2 .receiver 0 .acknowledged rfl).1⟩

end Runs

end XconnCpp.Sessions

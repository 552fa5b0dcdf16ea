import XconnCpp.PromiseOwners
import XconnCpp.RequestCorrelation

namespace XconnCpp.Sessions

open Library Library.Program Library.Program.Prog Library.Transition Values

variable {P E : Type} {k : RequestKind} {requestId : UInt64} {w w' : World P E} {l : Choice P E}

def LooksUp (k : RequestKind) (requestId : UInt64) (w : World P E) (l : Choice P E) : Prop :=
  ∃ i, w.performs l = some (.findRequest k i) ∧ i.toUInt64 = requestId

section Pending

end Pending

section Threads

variable {i : ℕ} {operation : Operation P E} {rest : Code P E Reply} {t : Thread P E}
  {surroundings : Surroundings P E} {choices : List (Choice P E)}

theorem entered_next {awaits : Bool} {q : RequestPhase} {o : Op P E} {r : Res o} {key : Key}
    (hallows : (requestProtocol awaits).allows q o)
    (hnext : (requestProtocol awaits).next q o r = .entered key) :
    q = .entered key ∨ ∃ payload, o = .emplaceRequest key.1 key.2 payload := by
  cases q with
  | entered => exact .inl hnext
  | drawn id =>
    cases o with
    | emplaceRequest kind id' payload =>
      obtain rfl : id' = id := hallows
      obtain rfl := RequestPhase.entered.inj hnext
      exact .inr ⟨payload, rfl⟩
    | isConnected => cases hnext
    | _ => exact hallows.elim
  | fresh =>
    cases o with
    | nextId => cases hnext
    | _ => exact hallows.elim
  | bare => cases hnext

def Thread.HasEntered (key : Key) : Thread P E → Prop
  | .request operation rest => Requesting operation.awaitsReply rest (.entered key)
  | _ => False

def World.AboutToEnter (w : World P E) (i : ℕ) (operation : Operation P E) (key : Key) : Prop :=
  ∃ payload next,
    w.threads[i]? = some (.request operation (.op (.emplaceRequest key.1 key.2 payload) next))

def EntersAt (surroundings : Surroundings P E) (choices : List (Choice P E)) (i : ℕ)
    (operation : Operation P E) (key : Key) : Prop :=
  ∃ before after w₀, choices = before ++ .thread i :: after ∧
    exec World.step (World.start surroundings) before = some w₀ ∧ w₀.AboutToEnter i operation key

theorem EntersAt.snoc {key : Key} (h : EntersAt surroundings choices i operation key) (l : Choice P E) :
    EntersAt surroundings (choices ++ [l]) i operation key := by
  obtain ⟨before, after, w₀, rfl, hbefore, henters⟩ := h
  exact ⟨before, after ++ [l], w₀, by simp, hbefore, henters⟩

theorem requesting_of_exec (hrun : exec World.step (World.start surroundings) choices = some w)
    (hi : w.threads[i]? = some (.request operation rest)) :
    ∃ q, Requesting operation.awaitsReply rest q ∧
      ∀ key, q = .entered key → EntersAt surroundings choices i operation key := by
  induction choices using List.reverseRecOn generalizing w rest with
  | nil =>
    cases hrun
    simp [World.start] at hi
  | append_singleton choices l ih =>
    obtain ⟨v, hv, hstep⟩ := exec_snoc_iff.mp hrun
    rcases thread_before_step hstep hi with
      hsame | ⟨rfl, t, ht, ha⟩ | ⟨operation', -, he⟩ | he | ⟨-, task, -, he⟩
    · obtain ⟨q, hq, hentered⟩ := ih hv hsame
      exact ⟨q, hq, fun key hk => (hentered key hk).snoc l⟩
    · rcases advance_cases ha with
        ⟨operation', o, next, rfl, -, he⟩ | ⟨o, next, rfl, -, he⟩ | ⟨o, next, rfl, -, he⟩
      · cases he
        obtain ⟨q, ⟨hallows, hnext⟩, hentered⟩ := ih hv ht
        refine ⟨_, hnext _, fun key hk => ?_⟩
        rcases entered_next hallows hk with hq | ⟨payload, rfl⟩
        · exact (hentered key hq).snoc _
        · exact ⟨choices, [], v, rfl, hv, payload, next, ht⟩
      · cases he
      · cases he
    · cases he
      exact ⟨.fresh, requesting_code operation, fun key hk => by cases hk⟩
    · cases he
    · cases he

def Op.AfterEntry : Op P E → Prop
  | .isConnected | .send _ | .waitFor _ => True
  | _ => False

theorem Thread.HasEntered.advance {key : Key} {t' : Thread P E} {s s' : Session P E}
    (h : t.HasEntered key) (ha : t.advance s = some (t', s')) :
    t'.HasEntered key ∧ ∃ o : Op P E, o.AfterEntry ∧ s' = (interp o s).2 := by
  rcases advance_cases ha with
    ⟨operation, o, next, rfl, rfl, rfl⟩ | ⟨o, next, rfl, -, -⟩ | ⟨o, next, rfl, -, -⟩
  · obtain ⟨hallows, hnext⟩ := h
    refine ⟨hnext _, o, ?_, rfl⟩
    cases o with
    | isConnected | send | waitFor => trivial
    | _ => exact hallows.elim
  · exact h.elim
  · exact h.elim

end Threads

section Grants

def Op.Installs : Op P E → Prop
  | .emplaceRegistration _ _ | .emplaceSubscription _ _ => True
  | _ => False

inductive GrantPhase
  | idle
  | found (p : PromiseId)
  | owing (p : PromiseId)

def GrantPhase.Idle : GrantPhase → Prop
  | .idle => True
  | _ => False

def grantProtocol : Protocol GrantPhase (Op P E) Res where
  allows q o :=
    match q, o with
    | .idle, .setPromise _ _ => False
    | .idle, .emplaceRegistration _ _ => False
    | .idle, .emplaceSubscription _ _ => False
    | .found p, .setPromise p' _ => p' = p
    | .owing p, .setPromise p' _ => p' = p
    | .owing _, _ => False
    | _, _ => True
  next q o r :=
    match o, r, q with
    | .findRequest _ _, found, _ => found.elim .idle fun r => .found r.promise
    | .setPromise _ _, _, _ => .idle
    | _, _, .found p => .owing p
    | _, _, q => q

variable {p : PromiseId} {rest : Code P E Bool} {q : GrantPhase} {o : Op P E}
  {surroundings : Surroundings P E} {choices : List (Choice P E)}

theorem Op.Installs.phase (ho : o.Installs) (hallows : grantProtocol.allows q o) : ∃ p, q = .found p := by
  cases o with
  | emplaceRegistration | emplaceSubscription =>
    cases q with
    | found p => exact ⟨p, rfl⟩
    | _ => exact hallows.elim
  | _ => exact ho.elim

theorem Op.Installs.next (ho : o.Installs) (r : Res o) : grantProtocol.next (.found p) o r = .owing p := by
  cases o with
  | emplaceRegistration | emplaceSubscription => rfl
  | _ => exact ho.elim

end Grants

section Confined

structure Confined (K : RequestKind → UInt64 → Prop) (p : PromiseId) (s : Session P E) : Prop where
  made : p < s.nextPromise
  under : ∀ k requestId r, (s.requests k).lookup requestId = some r → r.promise = p → K k requestId

variable {K : RequestKind → UInt64 → Prop} {p : PromiseId} {s : Session P E}

theorem Confined.interp (h : Confined K p s) (o : Op P E) : Confined K p (interp o s).2 := by
  cases o with
  | findRequest k i => exact ⟨h.made, fun j id r hr => h.under j id r (lookup_after_find hr).1⟩
  | emplaceRequest k requestId payload =>
    refine ⟨Nat.lt_succ_of_lt h.made, fun j id r hr hp => ?_⟩
    rcases lookup_after_emplace hr with hr | ⟨-, -, hnew⟩
    · exact h.under j id r hr hp
    · exact absurd (hp.symm.trans hnew) (Nat.ne_of_lt h.made)
  | receive =>
    cases hi : s.inbox with
    | nil => simpa [Sessions.interp, hi] using h
    | cons m inbox =>
      have hreceive : (Sessions.interp .receive s).2 = { s with inbox := inbox } := by simp [Sessions.interp, hi]
      rw [hreceive]
      exact ⟨h.made, h.under⟩
  | _ => exact ⟨h.made, h.under⟩

theorem Confined.step (h : Confined K p w.session) (hstep : w.step l = some w') : Confined K p w'.session := by
  rcases session_of_step hstep with ⟨o, -, hs⟩ | ⟨-, tasks, hs⟩
  · exact hs ▸ h.interp o
  · exact hs ▸ ⟨h.made, h.under⟩

end Confined

section NoTrace

variable {s s' : Session P E} {i : ℕ} {operation : Operation P E} {t : Thread P E}
  {w₀ w₁ : World P E} {choices before : List (Choice P E)}

structure OthersKept (k : RequestKind) (requestId : UInt64) (s s' : Session P E) : Prop where
  requests : ∀ j id, (j, id) ≠ (k, requestId) → (s'.requests j).lookup id = (s.requests j).lookup id
  registrations : s'.registrations = s.registrations
  subscriptions : s'.subscriptions = s.subscriptions

theorem othersKept_emplaceRequest (payload : Payload P E k) (s : Session P E) :
    OthersKept k requestId s (interp (.emplaceRequest k requestId payload) s).2 := by
  refine ⟨fun j id hne => ?_, rfl, rfl⟩
  by_cases hj : j = k
  · subst hj
    have hid : id ≠ requestId := fun he => hne (he ▸ rfl)
    simp [interp, Table.lookup_emplace_of_ne hid]
  · simp [interp, hj]

theorem enter_step {key : Key} {surroundings : Surroundings P E}
    (hbefore : exec World.step (World.start surroundings) before = some w₀)
    (hi : w₀.AboutToEnter i operation key) (hstep : w₀.step (.thread i) = some w₁) :
    OthersKept key.1 key.2 w₀.session w₁.session ∧
      ∃ t, w₁.threads[i]? = some t ∧ t.HasEntered key := by
  obtain ⟨payload, next, hi⟩ := hi
  obtain ⟨t, t', s', ht, ha, rfl⟩ := step_thread_iff.mp hstep
  cases hi.symm.trans ht
  cases ha
  have hlt : i < w₀.threads.length := (List.getElem?_eq_some_iff.mp hi).1
  obtain ⟨q, ⟨hallows, hnext⟩, -⟩ := requesting_of_exec hbefore hi
  have hentered (p : PromiseId) : (Thread.request operation (next p)).HasEntered key := by
    cases q with
    | drawn id =>
      obtain rfl : key.2 = id := hallows
      exact hnext p
    | _ => exact hallows.elim
  exact ⟨othersKept_emplaceRequest payload w₀.session, _, List.getElem?_set_self hlt, hentered _⟩

end NoTrace

end XconnCpp.Sessions

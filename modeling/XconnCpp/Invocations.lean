import XconnCpp.Interleaving

namespace XconnCpp.Sessions

open Library Library.Program Library.Program.Prog Library.Transition Values

variable {P E : Type} {r : UInt64}

def Inbound.isInvocation (r : UInt64) : Inbound → Bool
  | .message (.invocation requestId _ _ _ _) => requestId = r
  | _ => false

def Outgoing.invocation? : Outgoing → Option UInt64
  | .yield requestId _ _ _ => some requestId
  | .error .invocation requestId _ _ _ _ => some requestId
  | _ => none

def Task.invocation? : Task P E → Option UInt64
  | .procedure _ _ requestId => some requestId
  | .event _ _ => none

def Op.invocation? : Op P E → Option UInt64
  | .send m => m.invocation?
  | .enqueue t => t.invocation?
  | _ => none

def Elsewhere (r : UInt64) (o : Op P E) : Prop := o.invocation? ≠ some r ∧ o ≠ .receive

def Concerns {α : Type} (r : UInt64) (p : Code P E α) : Prop := ¬ p.Uses fun o => o.invocation? ≠ some r

section Receiver

inductive Desk
  | waiting
  | idle
  | owing

def deskProtocol (r : UInt64) : Protocol Desk (Op P E) Res where
  allows q o :=
    match q, o with
    | .waiting, .loadRunning => True
    | .waiting, .receive => True
    | .idle, o => Elsewhere r o
    | .owing, .findRegistration _ erase => erase = false
    | .owing, .enqueue t => t.invocation? = some r
    | _, _ => False
  next q o res :=
    match q, o, res with
    | .waiting, .receive, i => if i.isInvocation r then .owing else .idle
    | .owing, .findRegistration _ _, none => .idle
    | .owing, .enqueue _, _ => .idle
    | q, _, _ => q

def Desk.Done (q : Desk) : Prop := q ≠ .owing

theorem Desk.done_idle : Desk.idle.Done := by simp [Desk.Done]

theorem Desk.done_waiting : Desk.waiting.Done := by simp [Desk.Done]

theorem follows_of_elsewhere {α : Type} {p : Code P E α} (hp : p.Uses (Elsewhere r)) :
    p.Follows (deskProtocol r) Desk.Done Desk.Done .idle := by
  have hdone (q : Desk) (hq : q = .idle) : q.Done := hq ▸ Desk.done_idle
  apply hp.follows (I := (· = Desk.idle)) _ hdone hdone rfl
  rintro o ho q rfl
  exact ⟨ho, fun _ => rfl⟩

theorem elsewhere_of_pending {o : Op P E} (ho : o.OfPending) : Elsewhere r o := by
  cases o <;> first | exact ho.elim | simp [Elsewhere, Op.invocation?]

theorem elsewhere_of_goodbye {o : Op P E} (ho : o.OfGoodbye) (hquiet : ∀ m, o ≠ .send m) :
    Elsewhere r o := by
  cases o <;> first | exact ho.elim | simp_all [Elsewhere, Op.invocation?]

theorem elsewhere_send {m : Outgoing} (hm : m.invocation? = none) : Elsewhere r (.send m : Op P E) := by
  simp [Elsewhere, Op.invocation?, hm]

theorem invocation?_of_isGoodbye {m : Outgoing} (hm : m.isGoodbye = true) : m.invocation? = none := by
  cases m with
  | goodbye => rfl
  | _ => cases hm

theorem invocation?_of_isReply {m : Outgoing} (hm : m.isReply = false) : m.invocation? = none := by
  cases m with
  | yield | error => cases hm
  | _ => rfl

theorem elsewhere_process {m : Message} (hm : (Inbound.message m).isInvocation r = false) :
    (processIncomingMessage m : Code P E Unit).Uses (Elsewhere r) := by
  cases m with
  | goodbye =>
    apply uses_goodbyeBranch_of
    · exact fun o ho hquiet => elsewhere_of_goodbye ho hquiet
    · exact fun m hm => elsewhere_send (invocation?_of_isGoodbye hm)
  | error => exact (uses_errorBranch _ _ _ _ _).mono fun o ho => elsewhere_of_pending ho
  | abort | other => trivial
  | result | published | unsubscribed =>
    exact (uses_replyBranch _ _ _).mono fun o ho => elsewhere_of_pending ho
  | invocation requestId registrationId args kwargs details =>
    refine ⟨by simp [Elsewhere, Op.invocation?], fun found => ?_⟩
    cases found with
    | none => trivial
    | some handler =>
      have hne : requestId ≠ r := by simpa [Inbound.isInvocation] using hm
      exact ⟨by simp [Elsewhere, Op.invocation?, Task.invocation?, hne], fun _ => trivial⟩
  | event =>
    refine ⟨by simp [Elsewhere, Op.invocation?], fun found => ?_⟩
    cases found with
    | none => trivial
    | some handler => exact ⟨by simp [Elsewhere, Op.invocation?, Task.invocation?], fun _ => trivial⟩
  | registered | unregistered | subscribed =>
    refine ⟨by simp [Elsewhere, Op.invocation?], fun found => ?_⟩
    cases found with
    | none => trivial
    | some r =>
      refine ⟨by simp [Elsewhere, Op.invocation?], fun _ => ?_⟩
      exact (uses_complete _ _).mono fun o ho => elsewhere_of_pending ho

theorem processIncomingMessage_desk (m : Message) :
    (processIncomingMessage m : Code P E Unit).Follows (deskProtocol r) Desk.Done Desk.Done
      (if (Inbound.message m).isInvocation r then .owing else .idle) := by
  cases hm : (Inbound.message m).isInvocation r with
  | false => exact follows_of_elsewhere (elsewhere_process hm)
  | true =>
    cases m with
    | invocation requestId registrationId args kwargs details =>
      obtain rfl : requestId = r := by simpa [Inbound.isInvocation] using hm
      refine ⟨rfl, fun found => ?_⟩
      cases found with
      | none => exact Desk.done_idle
      | some handler => exact ⟨rfl, fun _ => Desk.done_idle⟩
    | _ => cases hm

theorem waitRound_desk :
    (waitRound : Code P E Bool).Follows (deskProtocol r) Desk.Done Desk.Done .waiting := by
  refine ⟨trivial, fun running => ?_⟩
  cases running with
  | false => exact Desk.done_waiting
  | true =>
    refine Follows.bind Desk.Done ?_ fun _ q hq => hq
    refine Follows.tryCatch ⟨trivial, fun i => ?_⟩ fun _ q hq => hq
    cases i with
    | message m => exact processIncomingMessage_desk m
    | _ => exact Desk.done_idle

theorem not_concerns_of_idle {α : Type} {p : Code P E α} {post exc : Desk → Prop}
    (hp : p.Follows (deskProtocol r) post exc .idle) : ¬ Concerns r p := by
  apply not_not_intro
  apply hp.uses (I := (· = Desk.idle)) _ rfl
  rintro q o rfl ho
  exact ⟨ho.1, fun _ => rfl⟩

theorem concerns_of_owing {α : Type} {p : Code P E α}
    (hp : p.Follows (deskProtocol r) Desk.Done Desk.Done .owing) : Concerns r p := by
  induction p with
  | op o k ih =>
    intro huses
    cases o with
    | findRegistration i erase =>
      -- on the path on which the lookup succeeds the task is still owed
      exact ih (some ⟨none⟩) (hp.2 (some ⟨none⟩)) (huses.2 _)
    | enqueue t => exact huses.1 hp.1
    | _ => exact hp.1.elim
  | _ => exact absurd rfl hp

end Receiver

section Workers

def taskProtocol (r : UInt64) : Protocol Bool (Op P E) Res where
  allows owes o :=
    match o with
    | .callProcedure _ _ => True
    | .callEventHandler _ _ => owes = false
    | .send m => m.invocation? = some r ↔ owes = true
    | _ => False
  next owes o res :=
    match o, res with
    | .callProcedure _ _, .other => false
    | .send _, _ => false
    | _, _ => owes

abbrev Owes (r : UInt64) (owes : Bool) (rest : Code P E Unit) : Prop :=
  rest.Follows (taskProtocol r) (· = false) (· = false) owes

theorem owes_replyTo (requestId : UInt64) {outcome : HandlerOutcome} (h : outcome ≠ .other) :
    Owes r (decide (requestId = r)) (replyTo requestId outcome : Code P E Unit) := by
  cases outcome with
  | other => exact absurd rfl h
  | _ => exact ⟨by simp [taskProtocol, Outgoing.invocation?], fun _ => rfl⟩

theorem owes_code (t : Task P E) : Owes r (decide (t.invocation? = some r)) t.code := by
  cases t with
  | procedure handler invocation requestId =>
    have hreply (outcome : HandlerOutcome) (ho : outcome ≠ .other) :
        Owes r (decide (some requestId = some r)) (replyTo requestId outcome : Code P E Unit) := by
      simpa using owes_replyTo requestId ho
    cases hh : handler.target with
    | none =>
      rw [code_of_empty hh]
      exact hreply .exception (by simp)
    | some h =>
      rw [code_of_target hh]
      refine ⟨trivial, fun outcome => ?_⟩
      cases outcome with
      | other => exact rfl
      | _ => exact hreply _ (by simp)
  | event handler e =>
    cases hh : handler.target with
    | none =>
      rw [event_code_of_empty hh]
      rfl
    | some h =>
      rw [event_code_of_target hh]
      exact ⟨rfl, fun _ => rfl⟩

theorem not_concerns_of_false {p : Code P E Unit} (hp : Owes r false p) : ¬ Concerns r p := by
  apply not_not_intro
  apply hp.uses (I := (· = false)) _ rfl
  rintro owes o rfl ho
  cases o with
  | send m => exact ⟨by simpa [taskProtocol, Op.invocation?] using ho, fun _ => rfl⟩
  | callProcedure =>
    refine ⟨by simp [Op.invocation?], fun outcome => ?_⟩
    cases outcome <;> rfl
  | callEventHandler => exact ⟨by simp [Op.invocation?], fun _ => rfl⟩
  | _ => exact ho.elim

theorem concerns_of_true {p : Code P E Unit} (hp : Owes r true p) : Concerns r p := by
  induction p with
  | op o k ih =>
    intro huses
    cases o with
    | callProcedure => exact ih .exception (hp.2 .exception) (huses.2 _)
    | callEventHandler => cases hp.1
    | send m => exact huses.1 (hp.1.mpr rfl)
    | _ => exact hp.1.elim
  | _ => cases hp

end Workers

section Worlds

def World.InHand (w : World P E) (r : UInt64) : Prop :=
  w.receiver.head? ≠ some .loadRunning ∧ w.receiver.head? ≠ some .receive ∧ Concerns r w.receiver

structure World.DoneWith (w : World P E) (r : UInt64) : Prop where
  receiver : ¬ w.InHand r
  tasks : ∀ t ∈ w.session.tasks, t.invocation? ≠ some r
  workers : ∀ rest, .worker rest ∈ w.threads → ¬ Concerns r rest

def AnsweredOnce (inbox : List Inbound) (r : UInt64) (s : Session P E) : Prop :=
  ∃ received, inbox = received ++ s.inbox ∧
    s.sent.countP (fun m => m.invocation? = some r) = received.countP (Inbound.isInvocation r)

/-- The INVOCATION names no registration, or its handler ends by what is not a `std::exception`. -/
def GoesUnanswered (r : UInt64) (w : World P E) : Choice P E → Prop
  | .receiver => w.InHand r ∧ ∃ i erase, w.receiver.head? = some (.findRegistration i erase) ∧
      i.toUInt64 ∉ w.session.registrations
  | .thread i => ∃ rest handler invocation, w.threads[i]? = some (.worker rest) ∧ Concerns r rest ∧
      rest.head? = some (.callProcedure handler invocation) ∧
      w.session.outcomes w.session.handlerCalls handler invocation = .other
  | _ => False

def Session.desk (r : UInt64) (s : Session P E) : List Inbound × ℕ × ℕ :=
  (s.inbox, s.sent.countP (fun m => m.invocation? = some r),
    s.tasks.countP (fun t => t.invocation? = some r))

def KeepsDesk (r : UInt64) (o : Op P E) : Prop := ∀ s, (interp o s).2.desk r = s.desk r

theorem Elsewhere.keepsDesk {o : Op P E} (ho : Elsewhere r o) : KeepsDesk r o := by
  intro s
  cases o with
  | receive => exact absurd rfl ho.2
  | send m =>
    have hm : m.invocation? ≠ some r := ho.1
    simp [Session.desk, interp, hm]
  | enqueue t =>
    have ht : t.invocation? ≠ some r := ho.1
    simp [Session.desk, interp, ht]
  | _ => rfl

def Thread.Owes (r : UInt64) (owes : Bool) : Thread P E → Prop
  | .worker rest => Sessions.Owes r owes rest
  | .request _ rest => owes = false ∧ rest.Uses (Elsewhere r)
  | .leaving rest => owes = false ∧ rest.Uses (Elsewhere r)

def Desk.owes : Desk → Bool
  | .owing => true
  | _ => false

structure Accounted (inbox : List Inbound) (r : UInt64) (unanswered : ℕ) (w : World P E) (q : Desk)
    (marked : List (Thread P E × Bool)) : Prop where
  receiver : w.receiver.Follows (deskProtocol r) Desk.Done Desk.Done q
  threads : marked.map Prod.fst = w.threads
  owes : ∀ p ∈ marked, p.1.Owes r p.2
  balance : ∃ received, inbox = received ++ w.session.inbox ∧
    received.countP (Inbound.isInvocation r) =
      w.session.sent.countP (fun m => m.invocation? = some r) + q.owes.toNat +
        w.session.tasks.countP (fun t => t.invocation? = some r) + marked.countP Prod.snd + unanswered

theorem countP_set_add {α : Type} (p : α → Bool) {l : List α} {i : ℕ} {a b : α} (h : l[i]? = some b) :
    (l.set i a).countP p + (p b).toNat = l.countP p + (p a).toNat := by
  induction l generalizing i with
  | nil => simp at h
  | cons x l ih =>
    cases i with
    | zero =>
      obtain rfl : x = b := by simpa using h
      cases hx : p x <;> cases ha : p a <;> simp [hx, ha]
    | succ i =>
      have hl := ih (i := i) (by simpa using h)
      cases hx : p x <;> simp [hx] <;> omega

variable {inbox : List Inbound} {n : ℕ} {w w' : World P E} {q : Desk}
  {marked : List (Thread P E × Bool)}

theorem Accounted.mark (h : Accounted inbox r n w q marked) {i : ℕ} {t : Thread P E}
    (hi : w.threads[i]? = some t) : ∃ b, marked[i]? = some (t, b) ∧ t.Owes r b := by
  rw [← h.threads, List.getElem?_map, Option.map_eq_some_iff] at hi
  obtain ⟨⟨t', b⟩, hm, rfl⟩ := hi
  exact ⟨b, hm, h.owes _ (List.mem_of_getElem? hm)⟩

theorem Accounted.start (surroundings : Surroundings P E) :
    Accounted surroundings.inbox r 0 (World.start surroundings : World P E) .waiting [] where
  receiver := waitRound_desk
  threads := rfl
  owes _ hp := by simp at hp
  balance := ⟨[], rfl, rfl⟩

theorem Accounted.move {n' : ℕ} {q' : Desk} {marked' : List (Thread P E × Bool)}
    (h : Accounted inbox r n w q marked) (got : List Inbound)
    (hreceiver : w'.receiver.Follows (deskProtocol r) Desk.Done Desk.Done q')
    (hthreads : marked'.map Prod.fst = w'.threads) (howes : ∀ p ∈ marked', p.1.Owes r p.2)
    (hinbox : w.session.inbox = got ++ w'.session.inbox)
    (hbalance : w'.session.sent.countP (fun m => m.invocation? = some r) + q'.owes.toNat +
        w'.session.tasks.countP (fun t => t.invocation? = some r) + marked'.countP Prod.snd + n' =
      w.session.sent.countP (fun m => m.invocation? = some r) + q.owes.toNat +
        w.session.tasks.countP (fun t => t.invocation? = some r) + marked.countP Prod.snd + n +
        got.countP (Inbound.isInvocation r)) :
    Accounted inbox r n' w' q' marked' := by
  obtain ⟨received, hr, hcount⟩ := h.balance
  refine ⟨hreceiver, hthreads, howes, received ++ got, by rw [hr, hinbox, List.append_assoc], ?_⟩
  rw [List.countP_append, hcount, hbalance]

theorem KeepsDesk.counts {o : Op P E} (ho : KeepsDesk r o) (s : Session P E) :
    (interp o s).2.inbox = s.inbox ∧
      (interp o s).2.sent.countP (fun m => m.invocation? = some r) =
        s.sent.countP (fun m => m.invocation? = some r) ∧
      (interp o s).2.tasks.countP (fun t => t.invocation? = some r) =
        s.tasks.countP (fun t => t.invocation? = some r) := by
  simpa [Session.desk] using ho s

section ReceiverSteps

variable {k : Inbound → Code P E Bool}

theorem Accounted.receive (h : Accounted inbox r n w .waiting marked) (hr : w.receiver = .op .receive k) :
    ∃ q', Accounted inbox r n
      { w with session := (interp .receive w.session).2, receiver := k (interp .receive w.session).1 }
      q' marked := by
  have hnext : ∀ i, (k i).Follows (deskProtocol r) Desk.Done Desk.Done
      (if i.isInvocation r then .owing else .idle) := by
    have hfollows := h.receiver
    rw [hr] at hfollows
    exact hfollows.2
  cases hi : w.session.inbox with
  | nil =>
    refine ⟨.idle, h.move [] ?_ h.threads h.owes ?_ ?_⟩
    · have hfailed := hnext .failed
      simp only [interp, hi]
      exact hfailed
    · simp [interp, hi]
    · simp [interp, hi, Desk.owes]
  | cons i rest =>
    refine ⟨_, h.move [i] (hnext _) h.threads h.owes ?_ ?_⟩
    · simp [interp, hi]
    · cases hinv : i.isInvocation r with
      | false => simp [interp, hi, hinv, Desk.owes]
      | true =>
        simp [interp, hi, hinv, Desk.owes]
        omega

end ReceiverSteps

def Counts (r : UInt64) (w : World P E) (l : Choice P E) (n n' : ℕ) : Prop :=
  n' = n ∧ ¬ GoesUnanswered r w l ∨ n' = n + 1 ∧ GoesUnanswered r w l

theorem findFromMap_fst_eq {T : Type} [Movable T] (i : Int64) (map : Table UInt64 T) (erase : Bool) :
    (findFromMap i map erase).1 = map.lookup i.toUInt64 := by
  unfold findFromMap
  cases map.lookup i.toUInt64 <;> rfl

theorem Accounted.elsewhere {o : Op P E} (h : Accounted inbox r n w q marked) (ho : KeepsDesk r o)
    {q' : Desk} {receiver : Code P E Bool} {threads : List (Thread P E)}
    {marked' : List (Thread P E × Bool)}
    (hreceiver : receiver.Follows (deskProtocol r) Desk.Done Desk.Done q') (hq : q'.owes = q.owes)
    (hthreads : marked'.map Prod.fst = threads) (howes : ∀ p ∈ marked', p.1.Owes r p.2)
    (hmarked : marked'.countP Prod.snd = marked.countP Prod.snd) :
    Accounted inbox r n ⟨(interp o w.session).2, receiver, threads⟩ q' marked' := by
  obtain ⟨hinbox, hsent, htasks⟩ := ho.counts w.session
  apply h.move [] hreceiver hthreads howes
  · simp [hinbox]
  · simp [hsent, htasks, hq, hmarked]

theorem Accounted.lookup {i : Int64} {k : Option (StdFunction P) → Code P E Bool}
    (h : Accounted inbox r n w .owing marked) (hr : w.receiver = .op (.findRegistration i false) k) :
    ∃ n' q', Accounted inbox r n' { w with
        session := (interp (.findRegistration i false) w.session).2
        receiver := k (interp (.findRegistration i false) w.session).1 } q' marked ∧
      Counts r w .receiver n n' := by
  have hfollows := h.receiver
  have hconcerns : Concerns r w.receiver := concerns_of_owing h.receiver
  have hinhand : w.InHand r := ⟨by simp [hr], by simp [hr], hconcerns⟩
  rw [hr] at hfollows
  have hnext := hfollows.2
  have hfound : (interp (.findRegistration i false) w.session).1 =
      w.session.registrations.lookup i.toUInt64 := findFromMap_fst_eq i _ false
  rw [hfound]
  cases hlookup : w.session.registrations.lookup i.toUInt64 with
  | none =>
    refine ⟨n + 1, .idle, h.move [] (hnext none) h.threads h.owes rfl ?_, .inr ⟨rfl, hinhand, i, false, ?_, ?_⟩⟩
    · simp [interp, Desk.owes]
      omega
    · simp [hr]
    · exact Finmap.lookup_eq_none.mp hlookup
  | some handler =>
    refine ⟨n, .owing, h.move [] (hnext (some handler)) h.threads h.owes rfl rfl, .inl ⟨rfl, ?_⟩⟩
    rintro ⟨-, j, erase, hj, hnot⟩
    rw [hr, head?_op, Option.some.injEq, Op.findRegistration.injEq] at hj
    rw [← hj.1, ← Finmap.lookup_eq_none, hlookup] at hnot
    cases hnot

theorem Accounted.enqueue {t : Task P E} {k : Unit → Code P E Bool}
    (h : Accounted inbox r n w .owing marked) (hr : w.receiver = .op (.enqueue t) k) :
    Accounted inbox r n { w with
        session := (interp (.enqueue t) w.session).2
        receiver := k () } .idle marked := by
  have hfollows := h.receiver
  rw [hr] at hfollows
  have ht : t.invocation? = some r := hfollows.1
  refine h.move [] (hfollows.2 ()) h.threads h.owes rfl ?_
  simp [interp, Desk.owes, ht]
  omega

theorem Accounted.receiver_step (h : Accounted inbox r n w q marked) (hstep : w.step .receiver = some w') :
    ∃ n' q', Accounted inbox r n' w' q' marked ∧ Counts r w .receiver n n' := by
  rcases step_receiver_iff.mp hstep with ⟨hr, rfl⟩ | ⟨o, k, hr, rfl⟩
  · have hdone := h.receiver
    rw [hr] at hdone
    refine ⟨n, .waiting, h.move [] waitRound_desk h.threads h.owes rfl ?_, .inl ⟨rfl, ?_⟩⟩
    · cases q with
      | owing => exact absurd rfl hdone
      | _ => rfl
    · rintro ⟨-, i, erase, hhead, -⟩
      simp [hr] at hhead
  · have hfollows := h.receiver
    rw [hr] at hfollows
    obtain ⟨hallows, hnext⟩ := hfollows
    cases q with
    | waiting =>
      cases o with
      | loadRunning =>
        refine ⟨n, .waiting, h.elsewhere (o := .loadRunning) (fun _ => rfl) (hnext _) rfl h.threads h.owes
          rfl, .inl ⟨rfl, ?_⟩⟩
        rintro ⟨⟨hhead, -⟩, -⟩
        exact hhead (by rw [hr]; rfl)
      | receive =>
        obtain ⟨q', h'⟩ := h.receive hr
        refine ⟨n, q', h', .inl ⟨rfl, ?_⟩⟩
        rintro ⟨⟨-, hhead, -⟩, -⟩
        exact hhead (by rw [hr]; rfl)
      | _ => exact hallows.elim
    | idle =>
      refine ⟨n, .idle, h.elsewhere (Elsewhere.keepsDesk hallows) (hnext _) rfl h.threads h.owes rfl,
        .inl ⟨rfl, ?_⟩⟩
      rintro ⟨⟨-, -, hconcerns⟩, -⟩
      exact not_concerns_of_idle h.receiver hconcerns
    | owing =>
      cases o with
      | findRegistration i erase =>
        obtain rfl : erase = false := hallows
        exact h.lookup hr
      | enqueue t =>
        refine ⟨n, .idle, h.enqueue hr, .inl ⟨rfl, ?_⟩⟩
        rintro ⟨-, i, erase, hhead, -⟩
        simp [hr] at hhead
      | _ => exact hallows.elim

section ThreadSteps

variable {i : ℕ} {t t' : Thread P E} {b b' : Bool}

theorem marked_set (h : Accounted inbox r n w q marked) (ht' : t'.Owes r b') :
    (marked.set i (t', b')).map Prod.fst = w.threads.set i t' ∧
      ∀ p ∈ marked.set i (t', b'), p.1.Owes r p.2 := by
  refine ⟨by rw [List.map_set, h.threads], fun p hp => ?_⟩
  rcases List.mem_or_eq_of_mem_set hp with hp | rfl
  · exact h.owes p hp
  · exact ht'

theorem marked_append (h : Accounted inbox r n w q marked) (ht' : t'.Owes r b') :
    (marked ++ [(t', b')]).map Prod.fst = w.threads ++ [t'] ∧
      ∀ p ∈ marked ++ [(t', b')], p.1.Owes r p.2 := by
  refine ⟨by simp [h.threads], fun p hp => ?_⟩
  rcases List.mem_append.mp hp with hp | hp
  · exact h.owes p hp
  · rw [List.mem_singleton.mp hp]
    exact ht'

theorem Accounted.thread_move {o : Op P E} {n' : ℕ} (h : Accounted inbox r n w q marked)
    (hm : marked[i]? = some (t, b)) (ht' : t'.Owes r b')
    (hinbox : (interp o w.session).2.inbox = w.session.inbox)
    (htasks : (interp o w.session).2.tasks = w.session.tasks)
    (hbalance : (interp o w.session).2.sent.countP (fun m => m.invocation? = some r) + b'.toNat + n' =
      w.session.sent.countP (fun m => m.invocation? = some r) + b.toNat + n) :
    Accounted inbox r n' { w with
      session := (interp o w.session).2
      threads := w.threads.set i t' } q (marked.set i (t', b')) := by
  obtain ⟨hthreads, howes⟩ := marked_set (i := i) h ht'
  have hcount : (marked.set i (t', b')).countP Prod.snd + b.toNat = marked.countP Prod.snd + b'.toNat :=
    countP_set_add Prod.snd hm
  refine h.move [] h.receiver hthreads howes ?_ ?_
  · simp [hinbox]
  · simp only [htasks, List.countP_nil]
    omega

theorem Accounted.worker_step {o : Op P E} {k : Res o → Code P E Unit}
    (h : Accounted inbox r n w q marked) (hi : w.threads[i]? = some (.worker (.op o k))) :
    ∃ n' marked', Accounted inbox r n' { w with
        session := (interp o w.session).2
        threads := w.threads.set i (.worker (k (interp o w.session).1)) } q marked' ∧
      Counts r w (.thread i) n n' := by
  obtain ⟨b, hm, howes⟩ := h.mark hi
  obtain ⟨hallows, hnext⟩ := howes
  have hrest : (Thread.worker (k (interp o w.session).1)).Owes r
      ((taskProtocol r).next b o (interp o w.session).1) :=
    hnext _
  cases o with
  | callProcedure handler invocation =>
    have hgoes : GoesUnanswered r w (.thread i) ↔
        b = true ∧ w.session.outcomes w.session.handlerCalls handler invocation = .other := by
      constructor
      · rintro ⟨rest, f, g, hrest', hconcerns, hhead, hother⟩
        rw [hi, Option.some.injEq, Thread.worker.injEq] at hrest'
        subst hrest'
        cases hhead
        cases b with
        | true => exact ⟨rfl, hother⟩
        | false => exact absurd hconcerns (not_concerns_of_false ⟨hallows, hnext⟩)
      · rintro ⟨rfl, hother⟩
        exact ⟨_, handler, invocation, hi, concerns_of_true ⟨hallows, hnext⟩, rfl, hother⟩
    have hcalled : (interp (.callProcedure handler invocation) w.session).1 =
        w.session.outcomes w.session.handlerCalls handler invocation := rfl
    by_cases hother : w.session.outcomes w.session.handlerCalls handler invocation = .other
    · have hended : (Thread.worker (k .other) : Thread P E).Owes r false := hnext .other
      refine ⟨n + b.toNat, marked.set i (.worker (k .other), false), ?_, ?_⟩
      · rw [hcalled, hother]
        apply h.thread_move (o := .callProcedure handler invocation) hm hended rfl rfl
        simp only [interp, Bool.toNat_false]
        omega
      · cases b with
        | true => exact .inr ⟨rfl, hgoes.mpr ⟨rfl, hother⟩⟩
        | false => exact .inl ⟨rfl, fun hg => by cases (hgoes.mp hg).1⟩
    · refine ⟨n, _, h.thread_move hm hrest rfl rfl ?_, .inl ⟨rfl, fun hg => hother (hgoes.mp hg).2⟩⟩
      rw [hcalled]
      cases ho : w.session.outcomes w.session.handlerCalls handler invocation <;> simp_all [interp, taskProtocol]
  | callEventHandler handler e =>
    obtain rfl : b = false := hallows
    refine ⟨n, _, h.thread_move hm hrest rfl rfl rfl, .inl ⟨rfl, ?_⟩⟩
    rintro ⟨rest, f, invocation, hrest', -, hhead, -⟩
    rw [hi, Option.some.injEq, Thread.worker.injEq] at hrest'
    simp [← hrest'] at hhead
  | send m =>
    refine ⟨n, _, h.thread_move hm hrest rfl rfl ?_, .inl ⟨rfl, ?_⟩⟩
    · have hm' : m.invocation? = some r ↔ b = true := hallows
      cases b <;> simp_all [interp, taskProtocol]
    · rintro ⟨rest, f, invocation, hrest', -, hhead, -⟩
      rw [hi, Option.some.injEq, Thread.worker.injEq] at hrest'
      simp [← hrest'] at hhead
  | _ => exact hallows.elim

theorem Accounted.other_step {o : Op P E} (h : Accounted inbox r n w q marked)
    (hi : w.threads[i]? = some t) (ht : ∀ rest, t ≠ .worker rest) (hb : ∀ b, t.Owes r b → b = false)
    (ho : Elsewhere r o) (ht' : t'.Owes r false) :
    ∃ n' marked', Accounted inbox r n' { w with
        session := (interp o w.session).2
        threads := w.threads.set i t' } q marked' ∧ Counts r w (.thread i) n n' := by
  obtain ⟨b, hm, howes⟩ := h.mark hi
  obtain rfl := hb b howes
  obtain ⟨hthreads, howes'⟩ := marked_set (i := i) h ht'
  have hcount : (marked.set i (t', false)).countP Prod.snd + false.toNat =
    marked.countP Prod.snd + false.toNat := countP_set_add Prod.snd hm
  refine ⟨n, _, h.elsewhere ho.keepsDesk h.receiver rfl hthreads howes' (by simpa using hcount), .inl ⟨rfl, ?_⟩⟩
  rintro ⟨rest, f, g, hrest, -⟩
  exact ht rest (Option.some.inj (hi.symm.trans hrest))

theorem Accounted.thread_step (h : Accounted inbox r n w q marked) (hstep : w.step (.thread i) = some w') :
    ∃ n' marked', Accounted inbox r n' w' q marked' ∧ Counts r w (.thread i) n n' := by
  rcases step_thread_cases hstep with ⟨operation, o, k, hi, rfl⟩ | ⟨o, k, hi, rfl⟩ | ⟨o, k, hi, rfl⟩
  · obtain ⟨b, -, -, huses⟩ := h.mark hi
    exact h.other_step hi (by simp) (fun _ hb => hb.1) huses.1 ⟨rfl, huses.2 _⟩
  · obtain ⟨b, -, -, huses⟩ := h.mark hi
    exact h.other_step hi (by simp) (fun _ hb => hb.1) huses.1 ⟨rfl, huses.2 _⟩
  · exact h.worker_step hi

theorem Accounted.new_thread (h : Accounted inbox r n w q marked) (ht : t.Owes r false) :
    Accounted inbox r n { w with threads := w.threads ++ [t] } q (marked ++ [(t, false)]) := by
  obtain ⟨hthreads, howes⟩ := marked_append h ht
  refine h.move [] h.receiver hthreads howes rfl ?_
  simp

theorem owes_operation (operation : Operation P E) :
    (Thread.request operation operation.code).Owes r false := by
  refine ⟨rfl, uses_operation_of (fun o ho hquiet => ?_) (fun m _ hm => ?_) operation⟩
  · cases o <;> first | exact ho.elim | simp_all [Elsewhere, Op.invocation?]
  · exact elsewhere_send (invocation?_of_isReply hm)

theorem owes_leave : (Thread.leaving leave : Thread P E).Owes r false := by
  refine ⟨rfl, uses_leave_of (fun o ho hquiet => ?_) (fun m hm => ?_)⟩
  · cases o <;> first | exact ho.elim | simp_all [Elsewhere, Op.invocation?]
  · exact elsewhere_send (invocation?_of_isGoodbye hm)

theorem Accounted.work (h : Accounted inbox r n w q marked) {task : Task P E} {tasks : List (Task P E)}
    (htasks : w.session.tasks = task :: tasks) : Accounted inbox r n { w with
      session := { w.session with tasks := tasks }
      threads := w.threads ++ [.worker task.code] } q
      (marked ++ [(.worker task.code, decide (task.invocation? = some r))]) := by
  have howes : (Thread.worker task.code).Owes r (decide (task.invocation? = some r)) := owes_code task
  obtain ⟨hthreads, howes⟩ := marked_append h howes
  refine h.move [] h.receiver hthreads howes rfl ?_
  cases ht : decide (task.invocation? = some r) with
  | false => simp [htasks, ht]
  | true =>
    simp only [htasks, List.countP_cons, List.countP_append, ht, List.countP_nil, if_true]
    omega

theorem Accounted.step {l : Choice P E} (h : Accounted inbox r n w q marked) (hstep : w.step l = some w') :
    ∃ n' q' marked', Accounted inbox r n' w' q' marked' ∧ Counts r w l n n' := by
  cases l with
  | receiver =>
    obtain ⟨n', q', h', hcounts⟩ := h.receiver_step hstep
    exact ⟨n', q', marked, h', hcounts⟩
  | thread i =>
    obtain ⟨n', marked', h', hcounts⟩ := h.thread_step hstep
    exact ⟨n', q, marked', h', hcounts⟩
  | request operation =>
    cases hstep
    exact ⟨n, q, _, h.new_thread (owes_operation operation), .inl ⟨rfl, id⟩⟩
  | leave =>
    cases hstep
    exact ⟨n, q, _, h.new_thread owes_leave, .inl ⟨rfl, id⟩⟩
  | work =>
    obtain ⟨task, tasks, htasks, rfl⟩ := step_work_iff.mp hstep
    exact ⟨n, q, _, h.work htasks, .inl ⟨rfl, id⟩⟩

end ThreadSteps

section Runs

variable {surroundings : Surroundings P E} {choices : List (Choice P E)}

theorem accounted_of_exec (hrun : exec World.step (World.start surroundings) choices = some w) :
    ∃ n q marked, Accounted surroundings.inbox r n w q marked ∧
      (n = 0 ↔ Along World.step (fun u l => ¬ GoesUnanswered r u l) (World.start surroundings) choices) := by
  induction choices using List.reverseRecOn generalizing w with
  | nil =>
    cases hrun
    exact ⟨0, .waiting, [], .start surroundings, by simp [Along]⟩
  | append_singleton choices l ih =>
    obtain ⟨v, hv, hstep⟩ := exec_snoc_iff.mp hrun
    obtain ⟨n, q, marked, h, halong⟩ := ih hv
    obtain ⟨n', q', marked', h', hcounts⟩ := h.step hstep
    refine ⟨n', q', marked', h', ?_⟩
    rw [along_snoc_iff hv, ← halong]
    rcases hcounts with ⟨rfl, hnot⟩ | ⟨rfl, hgoes⟩
    · simp [hnot]
    · simp [hgoes]

theorem Accounted.of_done (h : Accounted inbox r n w q marked) (hdone : w.DoneWith r) :
    q.owes = false ∧ w.session.tasks.countP (fun t => t.invocation? = some r) = 0 ∧
      marked.countP Prod.snd = 0 := by
  refine ⟨?_, ?_, ?_⟩
  · cases q with
    | owing =>
      apply absurd _ hdone.receiver
      refine ⟨?_, ?_, concerns_of_owing h.receiver⟩
      all_goals
        intro hhead
        exact h.receiver.head hhead
    | _ => rfl
  · simpa [List.countP_eq_zero] using hdone.tasks
  · rw [List.countP_eq_zero]
    rintro ⟨t, b⟩ hp hb
    obtain rfl : b = true := hb
    have howes := h.owes _ hp
    have ht : t ∈ w.threads := h.threads ▸ List.mem_map_of_mem hp
    cases t with
    | worker rest => exact hdone.workers rest ht (concerns_of_true howes)
    | _ => cases howes.1

theorem AnsweredOnce.congr (h : Accounted inbox r n w q marked) (hdone : w.DoneWith r) :
    AnsweredOnce inbox r w.session ↔ n = 0 := by
  obtain ⟨received, hr, hbalance⟩ := h.balance
  obtain ⟨hq, htasks, hmarked⟩ := h.of_done hdone
  rw [hq, htasks, hmarked, Bool.toNat_false] at hbalance
  constructor
  · rintro ⟨received', hr', hcount⟩
    obtain rfl := List.append_cancel_right (hr'.symm.trans hr)
    omega
  · rintro rfl
    exact ⟨received, hr, by omega⟩

abbrev KeepsTo (requestId : UInt64) (rest : Code P E Unit) : Prop :=
  rest.Uses fun o => ∀ r, o.invocation? = some r → r = requestId

theorem keepsTo_code (handler : StdFunction P) (invocation : Invocation) (requestId : UInt64) :
    KeepsTo requestId (Task.procedure handler invocation requestId : Task P E).code := by
  have hreply (outcome : HandlerOutcome) : KeepsTo requestId (replyTo requestId outcome : Code P E Unit) := by
    cases outcome with
    | other => trivial
    | _ => exact ⟨by simp [Op.invocation?, Outgoing.invocation?], fun _ => trivial⟩
  apply Uses.bind _ hreply
  cases hh : handler.target <;> simp [callProcedure, hh, Op.invocation?]

theorem keepsTo_of_exec {i : ℕ} {requestId : UInt64}
    (hi : ∃ rest, w.threads[i]? = some (.worker rest) ∧ KeepsTo requestId rest)
    (hrun : exec World.step w choices = some w') :
    ∃ rest, w'.threads[i]? = some (.worker rest) ∧ KeepsTo requestId rest := by
  apply exec_invariant (I := fun u : World P E =>
    ∃ rest, u.threads[i]? = some (.worker rest) ∧ KeepsTo requestId rest) _ hi hrun
  rintro u l u' ⟨rest, hi, hrest⟩ hstep
  rcases thread_of_step hstep hi with hsame | ⟨-, t', ha, hi'⟩
  · exact ⟨rest, hsame, hrest⟩
  · obtain ⟨⟨rest', s⟩, hadvance, he⟩ := Option.map_eq_some_iff.mp ha
    cases he
    obtain ⟨o, k, rfl, rfl, -⟩ := advance_iff.mp hadvance
    exact ⟨_, hi', hrest.2 _⟩

/-- When everything is done for an id, each INVOCATION with that id has got one reply exactly when all
of them named a registration and no handler ended by what is not a `std::exception`; and a worker replies
to no INVOCATION but the one whose task it took. -/
theorem answered_once_iff (surroundings : Surroundings P E) (choices : List (Choice P E)) (w : World P E)
    (hrun : exec World.step (World.start surroundings) choices = some w) :
    (∀ r, w.DoneWith r → (AnsweredOnce surroundings.inbox r w.session ↔
      Along World.step (fun u l => ¬ GoesUnanswered r u l) (World.start surroundings) choices)) ∧
    ∀ before after v handler invocation requestId tasks rest, choices = before ++ .work :: after →
      exec World.step (World.start surroundings) before = some v →
      v.session.tasks = .procedure handler invocation requestId :: tasks →
      w.threads[v.threads.length]? = some (.worker rest) → KeepsTo requestId rest := by
  constructor
  · intro r hdone
    obtain ⟨n, q, marked, h, halong⟩ := accounted_of_exec (r := r) hrun
    rw [AnsweredOnce.congr h hdone, halong]
  · rintro before after v handler invocation requestId tasks rest rfl hv htasks hrest
    obtain ⟨v', u, hv', hwork, hafter⟩ := exec_split_iff.mp hrun
    cases hv.symm.trans hv'
    obtain ⟨task, tasks', htasks', rfl⟩ := step_work_iff.mp hwork
    rw [htasks] at htasks'
    cases htasks'
    obtain ⟨rest', hrest', hkeeps⟩ := keepsTo_of_exec (i := v.threads.length)
      ⟨_, by simp, keepsTo_code handler invocation requestId⟩ hafter
    cases hrest.symm.trans hrest'
    exact hkeeps

def echoSurroundings : Surroundings Unit Unit :=
  .receiving [.message (.registered 1 9), .message (.invocation 5 9 [] [] [])]

def echoChoices : List (Choice Unit Unit) :=
  [.request (.register (ascii "com.example.echo") ⟨some ()⟩ []), .thread 0, .thread 0, .thread 0, .thread 0] ++
    List.replicate 10 .receiver ++ [.work, .thread 1, .thread 1]

theorem answered_once_iff_echo : ∃ w : World Unit Unit,
    exec World.step (World.start echoSurroundings) echoChoices = some w ∧ w.DoneWith 5 ∧
      w.session.sent.getLast?.bind Outgoing.invocation? = some 5 ∧
      (AnsweredOnce echoSurroundings.inbox 5 w.session ↔
        Along World.step (fun u l => ¬ GoesUnanswered 5 u l) (World.start echoSurroundings) echoChoices) := by
  refine ⟨_, rfl, ?_, rfl, (answered_once_iff echoSurroundings echoChoices _ rfl).1 5 ?_⟩
  all_goals
    refine ⟨fun h => h.2.2 trivial, fun t ht => ?_, fun rest hrest => ?_⟩
    · cases ht
    · cases hrest with
      | tail _ hrest =>
        obtain rfl := Thread.worker.inj (List.mem_singleton.mp hrest)
        exact fun h => h trivial

theorem not_answered_once_unknown : ∃ (choices : List (Choice Unit Unit)) (w : World Unit Unit),
    let surroundings : Surroundings Unit Unit := .receiving [.message (.invocation 5 9 [] [] [])]
    exec World.step (World.start surroundings) choices = some w ∧ w.DoneWith 5 ∧
      ¬ AnsweredOnce surroundings.inbox 5 w.session := by
  refine ⟨[.receiver, .receiver, .receiver], _, rfl, ⟨fun h => h.2.2 trivial, ?_, ?_⟩, ?_⟩
  · intro t ht
    cases ht
  · intro rest hrest
    cases hrest
  · rintro ⟨received, hr, hcount⟩
    have hinbox : [.message (.invocation 5 9 [] [] [])] = received ++ [] := hr
    rw [List.append_nil] at hinbox
    rw [← hinbox] at hcount
    cases hcount

end Runs

end Worlds

end XconnCpp.Sessions

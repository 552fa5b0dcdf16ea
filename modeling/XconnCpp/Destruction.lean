import XconnCpp.Stopping
import XconnCpp.UrlParser

namespace XconnCpp.Sessions

open Library Library.Program Library.Program.Prog Library.Transition Values
open Urls (TransportKind)

variable {P E : Type}

section Code

/-- `~Session` up to the join of the receive thread; what escapes from it ends the process. -/
def destroy : Code P E Unit :=
  .op .isConnected fun
    | true => .op .close fun
      | true => Prog.perform (Op.storeRunning false)
      | false => .throw .systemError
    | false => Prog.perform (Op.storeRunning false)

/-- A session that is destroyed at some time; until the receive thread is joined, the other threads may
still run. The peer may be idle: `reading` says that the receive thread has begun a `read` for which there
is nothing, `hungUp` that the peer has ended the connection. -/
structure Ending (P E : Type) where
  world : World P E
  destructor : Code P E Unit
  transport : TransportKind
  reading : Bool
  hungUp : Bool

inductive EndingChoice (P E : Type)
  | world (l : Choice P E)
  | destructor
  | read
  | hangUp

def World.reads (w : World P E) : Bool :=
  match w.receiver with
  | .op .receive _ => true
  | _ => false

def Choice.isReceiver : Choice P E → Bool
  | .receiver => true
  | _ => false

def EndingChoice.isReceiver : EndingChoice P E → Bool
  | .world l => l.isReceiver
  | .read => true
  | _ => false

namespace Ending

def start (transport : TransportKind) (surroundings : Surroundings P E) : Ending P E :=
  ⟨.start surroundings, destroy, transport, false, false⟩

-- closing a TCP socket shuts it down, which ends a `read`; one that a Unix socket was closed under goes on
def readEnded (e : Ending P E) : Bool :=
  e.hungUp || e.world.session.closed && (e.transport = .tcp || !e.reading)

def waits (e : Ending P E) : Bool :=
  e.world.reads && e.world.session.inbox.isEmpty && !e.readEnded

def step (e : Ending P E) : EndingChoice P E → Option (Ending P E)
  | .world l =>
    if l.isReceiver && e.waits then none
    else (e.world.step l).map fun w => { e with world := w, reading := e.reading && !l.isReceiver }
  | .destructor => (e.destructor.advance interp e.world.session).map fun (rest, s) =>
      { e with world := { e.world with session := s }, destructor := rest }
  | .read => if e.waits && !e.reading then some { e with reading := true } else none
  | .hangUp => some { e with hungUp := true }

end Ending

end Code

section Budget

theorem within_sendMessage (m : Outgoing) : (sendMessage m : Code P E Unit).Within 2 := by
  intro connected
  cases connected <;> simp [transmit]

theorem within_complete (p : PromiseId) (r : Reply) : (complete p r : Code P E Unit).Within 1 := by
  intro satisfied
  cases satisfied <;> simp

theorem within_goodbyeEnd : (goodbyeEnd : Code P E Unit).Within 3 := by
  intro satisfied
  cases satisfied with
  | true =>
    intro _ closed
    cases closed <;> simp
  | false => simp

theorem within_goodbyeBranch : (goodbyeBranch : Code P E Unit).Within 7 := by
  intro sent
  cases sent with
  | true => exact within_goodbyeEnd.mono (by decide)
  | false =>
    have hreply : (goodbyeReply : Code P E Unit).Within 3 :=
      @Within.bind _ _ _ _ _ 2 1 _ _ (within_sendMessage _) fun _ _ => trivial
    exact hreply.bind fun _ => within_goodbyeEnd

theorem within_errorBranch (requestId : UInt64) (messageType : MessageType) (uri : Str)
    (args : List CValue) (kwargs : CDict) :
    (errorBranch requestId messageType uri args kwargs : Code P E Unit).Within 2 := by
  apply @Within.bind _ _ _ _ _ 2 0 _ _ _ fun _ => within_throw _
  cases messageType with
  | request k =>
    intro found
    cases found with
    | none => simp
    | some r => exact within_complete _ _
  | _ => simp [errorSwitch]

theorem within_processIncomingMessage (m : Message) :
    (processIncomingMessage m : Code P E Unit).Within 7 := by
  cases m with
  | goodbye => exact within_goodbyeBranch
  | error => exact (within_errorBranch _ _ _ _ _).mono (by decide)
  | abort | other => simp [processIncomingMessage]
  | result | published | unsubscribed =>
    intro found
    cases found with
    | none => simp
    | some r => exact (within_complete _ _).mono (by decide)
  | registered | unregistered | subscribed =>
    intro found
    cases found with
    | none => simp
    | some r => exact fun _ => (within_complete _ _).mono (by decide)
  | invocation | event =>
    intro found
    cases found <;> simp [perform]

theorem within_waitRound : (waitRound : Code P E Bool).Within 9 := by
  intro running
  cases running with
  | false => simp
  | true =>
    apply @Within.bind _ _ _ _ _ 8 0 _ _ _ fun _ => within_pure _
    apply @Within.tryCatch _ _ _ _ 8 0 _ _ _ fun _ => within_pure _
    intro i
    cases i with
    | message m => exact within_processIncomingMessage m
    | _ => trivial

inductive Left : ℕ → Code P E Bool → Prop
  | within {n : ℕ} {rest : Code P E Bool} (h : rest.Within n) : Left (n + 2) rest
  | round : Left 1 waitRound
  | ended : Left 0 (.pure false)

end Budget

section Joining

variable {w w' : World P E} {e e' : Ending P E} {l : Choice P E}

theorem Left.step {n : ℕ} (h : Left n w.receiver) (hrunning : w.session.running = false)
    (hstep : w.step .receiver = some w') : ∃ m < n, Left m w'.receiver := by
  generalize hr : w.receiver = receiver at h
  cases h with
  | within hwithin =>
    rename_i n
    rcases step_receiver_iff.mp hstep with ⟨-, rfl⟩ | ⟨o, k, ho, rfl⟩
    · exact ⟨1, by omega, .round⟩
    · obtain rfl := hr.symm.trans ho
      cases n with
      | zero => exact hwithin.elim
      | succ n => exact ⟨n + 2, by omega, .within (hwithin _)⟩
  | round =>
    obtain rfl := receiver_step_eq hr hstep
    have hres : (interp (.loadRunning : Op P E) w.session).1 = false := hrunning
    refine ⟨0, by omega, ?_⟩
    simp only [hres]
    exact .ended
  | ended =>
    exact absurd rfl (receiver_stays hr hstep).1

theorem running_of_others (hstep : w.step l = some w') (hkeep : ∀ t ∈ w.threads, t.KeepsTo)
    (hl : l ≠ .receiver) : w'.session.running = w.session.running := by
  rcases session_of_step hstep with ⟨o, ho, hs⟩ | ⟨-, tasks, hs⟩
  · cases l with
    | receiver => exact absurd rfl hl
    | thread i =>
      obtain ⟨t, ht, hhead⟩ := Option.bind_eq_some_iff.mp ho
      have hothers := (hkeep t (List.mem_of_getElem? ht)).head hhead
      rw [hs, (hothers.keepsStanding _).1]
    | _ => cases ho
  · rw [hs]

theorem stopped_step (hstep : w.step l = some w') (hkeep : ∀ t ∈ w.threads, t.KeepsTo)
    (hcloses : ∃ q, Closes w.receiver (fun _ => True) q) (hrunning : w.session.running = false) :
    w'.session.running = false := by
  by_cases hl : l = .receiver
  · subst hl
    rcases step_receiver_iff.mp hstep with ⟨-, rfl⟩ | ⟨o, k, hr, rfl⟩
    · exact hrunning
    · obtain ⟨q, hq⟩ := hcloses
      rw [hr] at hq
      by_cases hstore : ∃ b, o = .storeRunning b
      · obtain ⟨b, rfl⟩ := hstore
        exact hq.1.1
      · exact (running_interp (fun b hb => hstore ⟨b, hb⟩) _).trans hrunning
  · exact (running_of_others hstep hkeep hl).trans hrunning

theorem catches_waitRound : (waitRound : Code P E Bool).Catches := by
  intro running
  cases running with
  | false => trivial
  | true =>
    refine Catches.bind (catches_tryCatch (fun e => ?_) _) fun _ => trivial
    trivial

structure World.Sane (w : World P E) : Prop where
  threads : ∀ t ∈ w.threads, t.KeepsTo
  closes : ∃ q, Closes w.receiver (fun _ => True) q
  within : w.receiver.Within 9
  catches : w.receiver.Catches

theorem World.Sane.start (surroundings : Surroundings P E) :
    (World.start surroundings : World P E).Sane where
  threads := by simp [World.start]
  closes := ⟨.up, closes_waitRound .up⟩
  within := within_waitRound
  catches := catches_waitRound

theorem World.Sane.step (h : w.Sane) (hstep : w.step l = some w') : w'.Sane := by
  have hthreads := threads_keepTo_step h.threads hstep
  rcases receiver_of_step hstep with ⟨-, hr⟩ | ⟨-, ⟨-, hr⟩ | ⟨o, k, ho, -, hr⟩⟩
  · exact ⟨hthreads, hr ▸ h.closes, hr ▸ h.within, hr ▸ h.catches⟩
  · exact ⟨hthreads, hr ▸ ⟨.up, closes_waitRound .up⟩, hr ▸ within_waitRound, hr ▸ catches_waitRound⟩
  · obtain ⟨q, hcloses⟩ := h.closes
    have hwithin := h.within
    have hcatches := h.catches
    rw [ho] at hcloses hwithin hcatches
    have hnext : (k (interp o w.session).1).Within 8 := hwithin _
    rw [← hr] at hnext
    exact ⟨hthreads, ⟨_, hr ▸ hcloses.2 _⟩, hnext.mono (by decide), hr ▸ hcatches _⟩

theorem World.Sane.receiver_step (h : w.Sane) : w.receiver = .pure false ∨ w.receiver = .undefined ∨
    ∃ w', w.step .receiver = some w' := by
  cases hr : w.receiver with
  | pure b =>
    cases b with
    | false => exact .inl rfl
    | true => exact .inr (.inr ⟨_, step_receiver_iff.mpr (.inl ⟨hr, rfl⟩)⟩)
  | throw e =>
    have hcatches := h.catches
    rw [hr] at hcatches
    exact hcatches.elim
  | undefined => exact .inr (.inl rfl)
  | op o k => exact .inr (.inr ⟨_, step_receiver_iff.mpr (.inr ⟨o, k, hr, rfl⟩)⟩)

end Joining

section Destroying

variable {e e' : Ending P E} {w w' : World P E} {l : EndingChoice P E}

inductive Destroying
  | before
  | down
  | up
  | shut
  | stored

def destroyingProtocol : Protocol Destroying (Op P E) Res where
  allows d o :=
    match o with
    | .isConnected => d = .before
    | .close => d = .up
    | .storeRunning b => b = false ∧ (d = .down ∨ d = .shut)
    | _ => False
  next d o r :=
    match o, r with
    | .isConnected, true => .up
    | .isConnected, false => .down
    | .close, _ => .shut
    | .storeRunning _, _ => .stored
    | _, _ => d

abbrev Destroys (p : Code P E Unit) (d : Destroying) : Prop :=
  p.Follows destroyingProtocol (· = .stored) (fun _ => True) d

theorem destroys_destroy : Destroys (destroy : Code P E Unit) .before := by
  refine ⟨rfl, fun connected => ?_⟩
  cases connected with
  | true =>
    refine ⟨rfl, fun closed => ?_⟩
    cases closed with
    | true => exact ⟨⟨rfl, .inr rfl⟩, fun _ => rfl⟩
    | false => trivial
  | false => exact ⟨⟨rfl, .inl rfl⟩, fun _ => rfl⟩

def World.Settled (w : World P E) : Prop :=
  w.session.closed = true ∨
    w.session.running = false ∧ ∃ q, q ≠ .up ∧ Closes w.receiver (fun _ => True) q

def Destroying.Holds (w : World P E) : Destroying → Prop
  | .before => ∃ q, Closes w.receiver (fun _ => True) q ∧ (q = .up → w.session.running = true)
  | .up => True
  | .down | .shut => w.Settled
  | .stored => w.Settled ∧ w.session.running = false

theorem World.Settled.closed (h : w.Settled) (hreads : w.reads = true) : w.session.closed = true := by
  rcases h with hclosed | ⟨-, q, hq, hcloses⟩
  · exact hclosed
  · unfold World.reads at hreads
    split at hreads
    next k hr =>
      rw [hr] at hcloses
      exact absurd hcloses.1 hq
    next => cases hreads

theorem World.Settled.step {l : Choice P E} (h : w.Settled) (hkeep : ∀ t ∈ w.threads, t.KeepsTo)
    (hstep : w.step l = some w') : w'.Settled := by
  rcases h with hclosed | ⟨hrunning, q, hq, hcloses⟩
  · exact .inl (closed_step hstep hclosed)
  · right
    refine ⟨stopped_step hstep hkeep ⟨q, hcloses⟩ hrunning, ?_⟩
    rcases receiver_of_step hstep with ⟨-, hr⟩ | ⟨-, ⟨-, hr⟩ | ⟨o, k, ho, -, hr⟩⟩
    · exact ⟨q, hq, hr ▸ hcloses⟩
    · exact ⟨.stopped, by simp, hr ▸ closes_waitRound .stopped⟩
    · rw [ho] at hcloses
      refine ⟨_, ?_, hr ▸ hcloses.2 _⟩
      cases o with
      | loadRunning => simpa [closingProtocol, interp, hrunning] using hq
      | storeRunning | close => simp [closingProtocol]
      | _ => exact hq

theorem Destroying.Holds.step {l : Choice P E} {d : Destroying} (h : d.Holds w)
    (hkeep : ∀ t ∈ w.threads, t.KeepsTo) (hcloses : ∃ q, Closes w.receiver (fun _ => True) q)
    (hstep : w.step l = some w') : d.Holds w' := by
  cases d with
  | before =>
    obtain ⟨q, hq, hup⟩ := h
    rcases receiver_of_step hstep with ⟨hl, hr⟩ | ⟨-, ⟨-, hr⟩ | ⟨o, k, ho, hs, hr⟩⟩
    · exact ⟨q, hr ▸ hq, fun h => (running_of_others hstep hkeep hl).trans (hup h)⟩
    · exact ⟨.stopped, hr ▸ closes_waitRound .stopped, by simp⟩
    · rw [ho] at hq
      refine ⟨_, hr ▸ hq.2 _, ?_⟩
      rw [hs]
      cases o with
      | loadRunning =>
        cases hrunning : w.session.running with
        | true => simp [interp, hrunning]
        | false => simpa [closingProtocol, interp, hrunning] using hup
      | storeRunning | close => simp [closingProtocol]
      | receive => exact fun h => (running_interp (by simp) _).trans (hup h)
      | _ => exact hup
  | up => trivial
  | down | shut => exact World.Settled.step h hkeep hstep
  | stored => exact ⟨h.1.step hkeep hstep, stopped_step hstep hkeep hcloses h.2⟩

structure Ending.Sane (e : Ending P E) : Prop where
  world : e.world.Sane
  destroys : ∃ d, Destroys e.destructor d ∧ d.Holds e.world

theorem Ending.step_world_iff {l : Choice P E} : e.step (.world l) = some e' ↔
    (l = .receiver → e.waits = false) ∧ ∃ w, e.world.step l = some w ∧
      e' = { e with world := w, reading := e.reading && !l.isReceiver } := by
  have hguard : (l.isReceiver && e.waits) = true ↔ ¬ (l = .receiver → e.waits = false) := by
    cases l <;> simp [Choice.isReceiver]
  simp only [Ending.step]
  split
  next hwaits => simp [hguard.mp hwaits]
  next hwaits =>
    have hreads : l = .receiver → e.waits = false := not_not.mp (mt hguard.mpr hwaits)
    rw [Option.map_eq_some_iff]
    exact ⟨fun ⟨w, hw, he⟩ => ⟨hreads, w, hw, he.symm⟩, fun ⟨_, w, hw, he⟩ => ⟨w, hw, he.symm⟩⟩

theorem Ending.step_destructor_iff : e.step .destructor = some e' ↔ ∃ o k, e.destructor = .op o k ∧
    e' = { e with world := { e.world with session := (interp o e.world.session).2 },
                  destructor := k (interp o e.world.session).1 } := by
  simp only [Ending.step, Option.map_eq_some_iff, Prod.exists, advance_iff]
  constructor
  · rintro ⟨rest, s, ⟨o, k, hd, rfl, rfl⟩, rfl⟩
    exact ⟨o, k, hd, rfl⟩
  · rintro ⟨o, k, hd, rfl⟩
    exact ⟨_, _, ⟨o, k, hd, rfl, rfl⟩, rfl⟩

theorem Ending.step_read_iff : e.step .read = some e' ↔
    e.waits = true ∧ e.reading = false ∧ e' = { e with reading := true } := by
  simp only [Ending.step, Option.ite_none_right_eq_some, Bool.and_eq_true, Bool.not_eq_true',
    Option.some.injEq, and_assoc]
  exact and_congr_right fun _ => and_congr_right fun _ => eq_comm

theorem Ending.Sane.step (h : e.Sane) (hstep : e.step l = some e') : e'.Sane := by
  obtain ⟨d, hfollows, hholds⟩ := h.destroys
  cases l with
  | world l =>
    obtain ⟨-, w, hw, rfl⟩ := Ending.step_world_iff.mp hstep
    exact ⟨h.world.step hw, d, hfollows, hholds.step h.world.threads h.world.closes hw⟩
  | destructor =>
    obtain ⟨o, k, hd, rfl⟩ := Ending.step_destructor_iff.mp hstep
    rw [hd] at hfollows
    refine ⟨⟨h.world.threads, h.world.closes, h.world.within, h.world.catches⟩, _, hfollows.2 _, ?_⟩
    obtain ⟨hallows, -⟩ := hfollows
    cases o with
    | isConnected =>
      obtain rfl : d = .before := hallows
      obtain ⟨q, hq, hup⟩ := hholds
      cases hrunning : e.world.session.running with
      | true => simp [destroyingProtocol, interp, hrunning, Destroying.Holds]
      | false =>
        have hdown : q ≠ .up := fun he => by simp [hup he] at hrunning
        simpa [destroyingProtocol, interp, hrunning, Destroying.Holds, World.Settled] using
          .inr ⟨q, hdown, hq⟩
    | close => exact .inl rfl
    | storeRunning b =>
      obtain ⟨rfl, hfound⟩ := hallows
      refine ⟨?_, rfl⟩
      rcases hfound with rfl | rfl
      all_goals exact hholds.imp id fun hstopped => ⟨rfl, hstopped.2⟩
    | _ => exact hallows.elim
  | read =>
    obtain ⟨-, -, rfl⟩ := Ending.step_read_iff.mp hstep
    exact ⟨h.world, d, hfollows, hholds⟩
  | hangUp =>
    cases hstep
    exact ⟨h.world, d, hfollows, hholds⟩

theorem sane_of_exec {transport : TransportKind} {surroundings : Surroundings P E}
    {choices : List (EndingChoice P E)}
    (hrun : exec Ending.step (Ending.start transport surroundings) choices = some e) : e.Sane := by
  apply exec_invariant (I := fun e : Ending P E => e.Sane) _ _ hrun
  · exact fun _ _ _ he hstep => he.step hstep
  · exact ⟨.start surroundings, .before, destroys_destroy, .up, closes_waitRound .up, fun _ => rfl⟩

theorem Ending.Sane.stored (h : e.Sane) (hdone : e.destructor = .pure ()) :
    e.world.Settled ∧ e.world.session.running = false := by
  obtain ⟨d, hfollows, hholds⟩ := h.destroys
  rw [hdone] at hfollows
  obtain rfl : d = .stored := hfollows
  exact hholds

theorem Ending.destructor_stays (hdone : e.destructor = .pure ()) (hstep : e.step l = some e') :
    e'.destructor = .pure () := by
  cases l with
  | world l =>
    obtain ⟨-, w, -, rfl⟩ := step_world_iff.mp hstep
    exact hdone
  | destructor =>
    obtain ⟨o, k, hd, -⟩ := step_destructor_iff.mp hstep
    cases hdone.symm.trans hd
  | read =>
    obtain ⟨-, -, rfl⟩ := step_read_iff.mp hstep
    exact hdone
  | hangUp =>
    cases hstep
    exact hdone

theorem Ending.waits_iff : e.waits = true ↔
    e.world.reads = true ∧ e.world.session.inbox = [] ∧ e.readEnded = false := by
  simp [waits, and_assoc]

/-- A Unix socket has been closed under a `read` that has begun, and the peer is idle. -/
structure Ending.Stranded (e : Ending P E) : Prop where
  transport : e.transport = .unix
  reading : e.reading = true
  waits : e.waits = true

theorem Ending.Sane.stranded (h : e.Sane) (hdone : e.destructor = .pure ()) (hwaits : e.waits = true) :
    e.Stranded := by
  obtain ⟨hreads, -, hended⟩ := Ending.waits_iff.mp hwaits
  have hclosed := (h.stored hdone).1.closed hreads
  have hboth : e.transport ≠ .tcp ∧ e.reading = true := by
    simpa [Ending.readEnded, hclosed] using (Bool.or_eq_false_iff.mp hended).2
  refine ⟨?_, hboth.2, hwaits⟩
  cases ht : e.transport with
  | tcp => exact absurd ht hboth.1
  | unix => rfl

theorem inbox_of_others {l : Choice P E} (hstep : w.step l = some w') (hl : l ≠ .receiver)
    (hkeep : ∀ t ∈ w.threads, t.KeepsTo) : w'.session.inbox = w.session.inbox := by
  rcases session_of_step hstep with ⟨o, ho, hs⟩ | ⟨-, tasks, hs⟩
  · cases l with
    | receiver => exact absurd rfl hl
    | thread i =>
      obtain ⟨t, ht, hhead⟩ := Option.bind_eq_some_iff.mp ho
      have hothers := (hkeep t (List.mem_of_getElem? ht)).head hhead
      rw [hs]
      cases o with
      | receive => simp [Op.ByOthers, Op.OfRequest, Op.OfLeave, Op.OfTask] at hothers
      | _ => rfl
    | _ => cases ho
  · rw [hs]

theorem Ending.Stranded.step (h : e.Stranded) (hkeep : ∀ t ∈ e.world.threads, t.KeepsTo)
    (hdone : e.destructor = .pure ()) (hl : l ≠ .hangUp) (hstep : e.step l = some e') :
    l.isReceiver = false ∧ e'.Stranded := by
  obtain ⟨hreads, hinbox, hended⟩ := Ending.waits_iff.mp h.waits
  have hidle : e.hungUp = false := (Bool.or_eq_false_iff.mp hended).1
  cases l with
  | world l =>
    obtain ⟨hguard, w, hw, rfl⟩ := Ending.step_world_iff.mp hstep
    have hne : l ≠ .receiver := fun he => by cases (hguard he).symm.trans h.waits
    have hnot : l.isReceiver = false := by
      cases l with
      | receiver => exact absurd rfl hne
      | _ => rfl
    have hr : w.receiver = e.world.receiver :=
      (receiver_of_step hw).elim And.right fun hreceiver => absurd hreceiver.1 hne
    refine ⟨hnot, h.transport, by simp [h.reading, hnot], Ending.waits_iff.mpr ⟨?_, ?_, ?_⟩⟩
    · simpa [World.reads, hr] using hreads
    · exact (inbox_of_others hw hne hkeep).trans hinbox
    · simp [Ending.readEnded, hidle, h.transport, h.reading, hnot]
  | destructor =>
    obtain ⟨o, k, hd, -⟩ := Ending.step_destructor_iff.mp hstep
    cases hdone.symm.trans hd
  | read =>
    obtain ⟨-, hnot, -⟩ := Ending.step_read_iff.mp hstep
    cases h.reading.symm.trans hnot
  | hangUp => exact absurd rfl hl

theorem countP_isReceiver_le {n : ℕ} {more : List (EndingChoice P E)} (h : e.Sane)
    (hdone : e.destructor = .pure ()) (hleft : Left n e.world.receiver)
    (hmore : exec Ending.step e more = some e') : more.countP EndingChoice.isReceiver ≤ n := by
  induction more generalizing e n with
  | nil => simp
  | cons l more ih =>
    obtain ⟨d, hd, hrest⟩ := exec_cons_iff.mp hmore
    have hsane := h.step hd
    have hdone' := Ending.destructor_stays hdone hd
    cases l with
    | world l =>
      obtain ⟨-, w, hw, rfl⟩ := Ending.step_world_iff.mp hd
      rcases receiver_of_step hw with ⟨hl, hr⟩ | ⟨rfl, -⟩
      · have hle := ih hsane hdone' (hr.symm ▸ hleft) hrest
        cases l with
        | receiver => exact absurd rfl hl
        | _ => simpa [List.countP_cons, EndingChoice.isReceiver, Choice.isReceiver] using hle
      · obtain ⟨m, hm, hleft'⟩ := hleft.step (h.stored hdone).2 hw
        have hle := ih hsane hdone' hleft' hrest
        simp only [List.countP_cons, EndingChoice.isReceiver, Choice.isReceiver, if_true]
        omega
    | destructor =>
      obtain ⟨o, k, hpending, -⟩ := Ending.step_destructor_iff.mp hd
      cases hdone.symm.trans hpending
    | read =>
      obtain ⟨hwaits, hnot, -⟩ := Ending.step_read_iff.mp hd
      cases (h.stranded hdone hwaits).reading.symm.trans hnot
    | hangUp =>
      cases hd
      simpa [List.countP_cons, EndingChoice.isReceiver] using ih hsane hdone' hleft hrest

theorem stranded_of_exec {more : List (EndingChoice P E)} (h : e.Stranded) (hsane : e.Sane)
    (hdone : e.destructor = .pure ()) (hidle : ∀ l ∈ more, l ≠ .hangUp)
    (hmore : exec Ending.step e more = some e') :
    e'.Stranded ∧ more.countP EndingChoice.isReceiver = 0 := by
  induction more generalizing e with
  | nil =>
    cases hmore
    exact ⟨h, rfl⟩
  | cons l more ih =>
    obtain ⟨d, hd, hrest⟩ := exec_cons_iff.mp hmore
    obtain ⟨hl, hidle⟩ := List.forall_mem_cons.mp hidle
    obtain ⟨hnot, h'⟩ := h.step hsane.world.threads hdone hl hd
    obtain ⟨hstranded, hcount⟩ := ih h' (hsane.step hd) (Ending.destructor_stays hdone hd) hidle hrest
    exact ⟨hstranded, by simp [hcount, hnot]⟩

/-- Once the destructor has stored `running_`, the receive thread has at most eleven steps left, and until
it has ended it can take the next, unless it is stranded; then the join waits for the peer to hang up. -/
structure Joins (e : Ending P E) (more : List (EndingChoice P E)) (e' : Ending P E) : Prop where
  bounded : more.countP EndingChoice.isReceiver ≤ 11
  unhindered : e'.world.receiver = .pure false ∨ e'.world.receiver = .undefined ∨
    (∃ e'', e'.step (.world .receiver) = some e'') ∨ e'.Stranded
  stranded : ∀ later e'', e'.Stranded → (∀ l ∈ later, l ≠ .hangUp) →
    exec Ending.step e' later = some e'' → e''.Stranded ∧ later.countP EndingChoice.isReceiver = 0

theorem destructor_joins (transport : TransportKind) (surroundings : Surroundings P E)
    (choices more : List (EndingChoice P E)) (e e' : Ending P E)
    (hrun : exec Ending.step (Ending.start transport surroundings) choices = some e)
    (hdone : e.destructor = .pure ()) (hmore : exec Ending.step e more = some e') : Joins e more e' := by
  have hsane := sane_of_exec hrun
  obtain ⟨hlater, hdone'⟩ : e'.Sane ∧ e'.destructor = .pure () := by
    apply exec_invariant (I := fun e : Ending P E => e.Sane ∧ e.destructor = .pure ()) _ ⟨hsane, hdone⟩ hmore
    exact fun _ _ _ h hstep => ⟨h.1.step hstep, Ending.destructor_stays h.2 hstep⟩
  refine ⟨countP_isReceiver_le hsane hdone (.within hsane.world.within) hmore, ?_,
    fun later e'' h hidle hrest => stranded_of_exec h hlater hdone' hidle hrest⟩
  rcases hlater.world.receiver_step with hend | hundefined | ⟨w, hw⟩
  · exact .inl hend
  · exact .inr (.inl hundefined)
  · right; right
    cases hwaits : e'.waits with
    | true => exact .inr (hlater.stranded hdone' hwaits)
    | false => exact .inl ⟨_, Ending.step_world_iff.mpr ⟨fun _ => hwaits, w, hw, rfl⟩⟩

def destroyedWhileReading : List (EndingChoice Unit Unit) :=
  [.world .receiver, .read, .destructor, .destructor, .destructor]

theorem destructor_joins_reader : ∃ e e' : Ending Unit Unit,
    exec Ending.step (.start .unix .quiet) destroyedWhileReading = some e ∧
      exec Ending.step e [.world .leave] = some e' ∧ e'.Stranded ∧ Joins e [.world .leave] e' :=
  ⟨_, _, rfl, rfl, ⟨rfl, rfl, rfl⟩,
    destructor_joins .unix .quiet destroyedWhileReading [.world .leave] _ _ rfl rfl rfl⟩

end Destroying

end XconnCpp.Sessions

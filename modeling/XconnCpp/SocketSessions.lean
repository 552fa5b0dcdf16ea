import XconnCpp.Deliveries
import XconnCpp.FrameWriters
import XconnCpp.Stopping

namespace XconnCpp.Sessions

open Library Library.Program Library.Program.Prog Library.Transition Library.Lock
open SocketTransport (Byte HeaderCodec Socket Writers Writing frame deliveries)

variable {P E : Type}

/-- What the protocol library makes of messages: `serialize` is `send_message` of its session, and the
serializer for the replies of the workers. -/
structure Serializer where
  serialize : Outgoing → List Byte
  deserialize : List Byte → Option Message

namespace Serializer

def inbound (serializer : Serializer) (bytes : List Byte) : Inbound :=
  match serializer.deserialize bytes with
  | some m => .message m
  | none => .null

end Serializer

section Code

variable (codec : HeaderCodec) (serializer : Serializer)

/-- `BaseSession::receive_message`. -/
def receiveFrom (socket : Socket) : Inbound × Socket :=
  match socket.read codec with
  | (.error _, t) => (.failed, t)
  | (.ok bytes, t) => (serializer.inbound bytes, t)

def inboxOf (socket : Socket) : List Inbound :=
  (deliveries codec socket).map fun d => serializer.inbound (d.getD [])

def Session.given (s : Session P E) (inbox : List Inbound) (written : ℕ → Bool) : Session P E :=
  { s with inbox := inbox, written := written }

def World.given (w : World P E) (inbox : List Inbound) (written : ℕ → Bool) : World P E :=
  { w with session := w.session.given inbox written }

/-- A session with its transport: `writers` are the calls of `SocketTransport::write` under way, by the
receive thread (`none`) and by the others, and `returned` is what those that have ended have returned. -/
structure Linked (P E : Type) where
  world : World P E
  writers : Writers (Option ℕ)
  socket : Socket
  returned : List Bool

inductive LinkedChoice (P E : Type)
  | session (l : Choice P E)
  | call (t : Option ℕ)
  | writer (t : Option ℕ)
  | chunk (t : Option ℕ) (k : ℕ)
  | failure (t : Option ℕ)

def choiceOf : Option ℕ → Choice P E
  | none => .receiver
  | some i => .thread i

namespace Linked

def start (surroundings : Surroundings P E) (socket : Socket) : Linked P E :=
  ⟨.start surroundings, .start, socket, []⟩

def receive (s : Linked P E) : Inbound × Socket :=
  if s.world.session.closed then (.failed, s.socket) else receiveFrom codec serializer s.socket

def step (s : Linked P E) : LinkedChoice P E → Option (Linked P E)
  | .session l =>
    match s.world.performs l with
    -- a message is handed over by the steps of `write`
    | some (.send _) => none
    | some .receive =>
      ((s.world.given [(s.receive codec serializer).1] s.world.session.written).step l).map fun w =>
        { s with world := w, socket := (s.receive codec serializer).2 }
    | _ => (s.world.step l).map fun w => { s with world := w }
  | .call t =>
    match s.world.performs (choiceOf t) with
    | some (.send m) => (s.writers.step codec (.call t (serializer.serialize m))).map fun writers =>
        { s with writers := writers }
    | _ => none
  | .writer t =>
    match s.writers.writers t with
    | some (.unlocking written) =>
      -- `write` returns, and its caller goes on
      (s.writers.step codec (.writer t)).bind fun writers =>
        ((s.world.given s.world.session.inbox fun _ => written.isSome).step (choiceOf t)).map fun w =>
          { s with world := w, writers := writers, returned := s.returned ++ [written.isSome] }
    | _ => (s.writers.step codec (.writer t)).map fun writers => { s with writers := writers }
  | .chunk t k =>
    if s.world.session.closed then none
    else (s.writers.step codec (.chunk t k)).map fun writers => { s with writers := writers }
  | .failure t => (s.writers.step codec (.failure t)).map fun writers => { s with writers := writers }

def toWorld (s : Linked P E) (written : ℕ → Bool) : World P E :=
  s.world.given (inboxOf codec serializer s.socket) written

end Linked

end Code

section Resuming

variable {w w' : World P E} {l : Choice P E} {o : Op P E} {inbox inbox' : List Inbound}
  {written written' : ℕ → Bool}

theorem performs_given : (w.given inbox written).performs l = w.performs l := by
  cases l <;> rfl

theorem exists_resumes (h : w.performs l = some o) : ∃ next : Res o → World P E, ∀ s,
    { w with session := s }.step l = some { next (interp o s).1 with session := (interp o s).2 } := by
  cases l with
  | receiver =>
    obtain ⟨k, hr⟩ := head?_eq_some_iff.mp h
    refine ⟨fun r => { w with receiver := k r }, fun s => ?_⟩
    exact step_receiver_iff.mpr (.inr ⟨o, k, hr, rfl⟩)
  | thread i =>
    obtain ⟨t, ht, ho⟩ := Option.bind_eq_some_iff.mp h
    cases t with
    | request operation rest =>
      obtain ⟨k, rfl⟩ := head?_eq_some_iff.mp ho
      refine ⟨fun r => { w with threads := w.threads.set i (.request operation (k r)) }, fun s => ?_⟩
      exact step_thread_iff.mpr ⟨_, _, _, ht, rfl, rfl⟩
    | leaving rest =>
      obtain ⟨k, rfl⟩ := head?_eq_some_iff.mp ho
      refine ⟨fun r => { w with threads := w.threads.set i (.leaving (k r)) }, fun s => ?_⟩
      exact step_thread_iff.mpr ⟨_, _, _, ht, rfl, rfl⟩
    | worker rest =>
      obtain ⟨k, rfl⟩ := head?_eq_some_iff.mp ho
      refine ⟨fun r => { w with threads := w.threads.set i (.worker (k r)) }, fun s => ?_⟩
      exact step_thread_iff.mpr ⟨_, _, _, ht, rfl, rfl⟩
  | _ => cases h

theorem step_given_of_none (h : w.performs l = none) (hstep : w.step l = some w') :
    (w.given inbox written).step l = some (w'.given inbox written) := by
  cases l with
  | receiver =>
    rcases step_receiver_iff.mp hstep with ⟨hr, rfl⟩ | ⟨o, k, hr, -⟩
    · exact step_receiver_iff.mpr (.inl ⟨hr, rfl⟩)
    · simp [World.performs, hr] at h
  | thread i =>
    obtain ⟨t, t', s', ht, ha, -⟩ := step_thread_iff.mp hstep
    rcases advance_cases ha with ⟨operation, o, k, rfl, -⟩ | ⟨o, k, rfl, -⟩ | ⟨o, k, rfl, -⟩
    all_goals simp [World.performs, ht, Thread.head?] at h
  | work =>
    obtain ⟨t, tasks, ht, rfl⟩ := step_work_iff.mp hstep
    exact step_work_iff.mpr ⟨t, tasks, ht, rfl⟩
  | request operation =>
    cases hstep
    rfl
  | leave =>
    cases hstep
    rfl

theorem interp_given (hreceive : o ≠ .receive) (hsend : ∀ m, o ≠ .send m) (s : Session P E) :
    interp o (s.given inbox written) = ((interp o s).1, (interp o s).2.given inbox written) := by
  cases o with
  | receive => exact absurd rfl hreceive
  | send m => exact absurd rfl (hsend m)
  | _ => rfl

theorem step_given (h : w.performs l = some o) (hreceive : o ≠ .receive) (hsend : ∀ m, o ≠ .send m)
    (hstep : w.step l = some w') : (w.given inbox written).step l = some (w'.given inbox written) := by
  obtain ⟨next, hnext⟩ := exists_resumes h
  obtain rfl := Option.some.inj (hstep.symm.trans (hnext w.session))
  have hgiven := hnext (w.session.given inbox written)
  rw [interp_given hreceive hsend] at hgiven
  exact hgiven

theorem step_given_receive {i : Inbound} (h : w.performs l = some .receive)
    (hstep : (w.given [i] written).step l = some w') (inbox : List Inbound) (written' : ℕ → Bool) :
    (w.given (i :: inbox) written').step l = some (w'.given inbox written') := by
  obtain ⟨next, hnext⟩ := exists_resumes h
  obtain rfl := Option.some.inj (hstep.symm.trans (hnext (w.session.given [i] written)))
  exact hnext (w.session.given (i :: inbox) written')

theorem step_given_failed (h : w.performs l = some .receive)
    (hstep : (w.given [.failed] written).step l = some w') (written' : ℕ → Bool) :
    (w.given [] written').step l = some (w'.given [] written') := by
  obtain ⟨next, hnext⟩ := exists_resumes h
  obtain rfl := Option.some.inj (hstep.symm.trans (hnext (w.session.given [.failed] written)))
  exact hnext (w.session.given [] written')

theorem step_given_send {m : Outgoing} {b : Bool} (h : w.performs l = some (.send m))
    (hstep : (w.given inbox fun _ => b).step l = some w') (hb : written w.session.sent.length = b) :
    (w.given inbox' written).step l = some (w'.given inbox' written) := by
  obtain ⟨next, hnext⟩ := exists_resumes h
  obtain rfl := Option.some.inj (hstep.symm.trans (hnext (w.session.given inbox fun _ => b)))
  have hgiven := hnext (w.session.given inbox' written)
  have hres : (interp (.send m : Op P E) (w.session.given inbox' written)).1 = b := hb
  rw [hres] at hgiven
  exact hgiven

end Resuming

section Writing

variable {codec : HeaderCodec} {T : Type} {t : T} {q q' : SocketTransport.Wire T} {v v' : Writing}
  {bytes part : List Byte}

variable (codec) in
def Sending (bytes part : List Byte) : Writing → Prop
  | .locking b => b = bytes ∧ part = []
  | .making b => b = bytes ∧ part = []
  | .sendingHeader b rest => b = bytes ∧ part ++ rest = codec.send ⟨.wamp, bytes.length⟩
  | .sendingPayload b rest => b = bytes ∧ part ++ rest = frame codec bytes
  | .unlocking (some b) => b = bytes ∧ part = frame codec bytes
  | .unlocking none => part <+: frame codec bytes

theorem Sending.prefix_frame (h : Sending codec bytes part v) : part <+: frame codec bytes := by
  cases v with
  | locking b | making b =>
    obtain ⟨-, rfl⟩ := h
    exact List.nil_prefix
  | sendingHeader b rest =>
    obtain ⟨rfl, hpart⟩ := h
    have hheader : part <+: codec.send ⟨.wamp, b.length⟩ := ⟨rest, hpart⟩
    exact hheader.trans (List.prefix_append _ _)
  | sendingPayload b rest =>
    obtain ⟨-, hpart⟩ := h
    exact ⟨rest, hpart⟩
  | unlocking written =>
    cases written with
    | none => exact h
    | some b =>
      obtain ⟨-, rfl⟩ := h
      exact List.prefix_rfl

variable (codec) in
structure KeepsMutex (v v' : Writing) (more : List Byte) : Prop where
  before : v.inside = true
  after : v'.inside = true
  sends : ∀ bytes part, Sending codec bytes part v → Sending codec bytes (part ++ more) v'

theorem keepsMutex_of_advance (hin : v.inside = true) (hnot : ∀ written, v ≠ .unlocking written)
    {u : Option Writing} (ha : v.advance codec t q = some (u, q')) :
    q' = q ∧ ∃ v', u = some v' ∧ KeepsMutex codec v v' [] := by
  cases v with
  | locking b => cases hin
  | making b =>
    rw [Writing.advance_making] at ha
    cases ha
    refine ⟨rfl, _, rfl, rfl, rfl, ?_⟩
    rintro bytes part ⟨rfl, rfl⟩
    exact ⟨rfl, by simp⟩
  | sendingHeader b rest =>
    cases rest with
    | nil =>
      cases ha
      refine ⟨rfl, _, rfl, rfl, rfl, ?_⟩
      rintro bytes part ⟨rfl, hpart⟩
      rw [List.append_nil] at hpart
      exact ⟨rfl, by simp [hpart, frame]⟩
    | cons => cases ha
  | sendingPayload b rest =>
    cases rest with
    | nil =>
      cases ha
      refine ⟨rfl, _, rfl, rfl, rfl, ?_⟩
      rintro bytes part ⟨rfl, hpart⟩
      exact ⟨rfl, hpart⟩
    | cons => cases ha
  | unlocking written => exact absurd rfl (hnot written)

theorem keepsMutex_of_chunk {k : ℕ} (hc : v.chunk k q = some (v', q')) :
    ∃ more, q' = { q with outgoing := q.outgoing ++ more } ∧ KeepsMutex codec v v' more := by
  cases v with
  | sendingHeader b rest =>
    obtain ⟨-, he⟩ := Option.ite_none_right_eq_some.mp hc
    cases he
    refine ⟨rest.take k, rfl, rfl, rfl, ?_⟩
    rintro bytes part ⟨rfl, hpart⟩
    exact ⟨rfl, by simpa using hpart⟩
  | sendingPayload b rest =>
    obtain ⟨-, he⟩ := Option.ite_none_right_eq_some.mp hc
    cases he
    refine ⟨rest.take k, rfl, rfl, rfl, ?_⟩
    rintro bytes part ⟨rfl, hpart⟩
    exact ⟨rfl, by simpa using hpart⟩
  | _ => cases hc

theorem keepsMutex_of_fail (hf : v.fail = some v') : KeepsMutex codec v v' [] := by
  cases v with
  | sendingHeader b rest =>
    cases hf
    refine ⟨rfl, rfl, ?_⟩
    intro bytes part h
    rw [Sending, List.append_nil]
    exact h.prefix_frame
  | sendingPayload b rest =>
    cases hf
    refine ⟨rfl, rfl, ?_⟩
    intro bytes part h
    rw [Sending, List.append_nil]
    exact h.prefix_frame
  | _ => cases hf

theorem Sending.whole {written : Option (List Byte)}
    (h : Sending codec bytes part (.unlocking written)) (hw : written.isSome = true) :
    part = frame codec bytes := by
  cases written with
  | none => cases hw
  | some b => exact h.2

end Writing

section Linking

variable {codec : HeaderCodec} {serializer : Serializer} {s s' : Linked P E} {t : Option ℕ}

structure Write where
  message : Outgoing
  whole : Bool
  bytes : List Byte

variable (codec serializer) in
structure Write.Fair (x : Write) : Prop where
  initial : x.bytes <+: frame codec (serializer.serialize x.message)
  whole : x.whole = true → x.bytes = frame codec (serializer.serialize x.message)

variable (codec serializer) in
structure Linking (s : Linked P E) (writes : List Write) (part : List Byte) : Prop where
  exclusive : Exclusive s.writers.writeMutex s.writers.inside
  sent : writes.map (·.message) = s.world.session.sent
  returned : writes.map (·.whole) = s.returned
  fair : ∀ x ∈ writes, x.Fair codec serializer
  wire : s.writers.outgoing = writes.flatMap (·.bytes) ++ part
  calling : ∀ t v, s.writers.writers t = some v → ∃ m, s.world.performs (choiceOf t) = some (.send m) ∧
    (v.inside = false → v = .locking (serializer.serialize m)) ∧
    (v.inside = true → Sending codec (serializer.serialize m) part v)
  free : s.writers.writeMutex = none → part = []

variable {writes : List Write} {part : List Byte}

def Linked.put (s : Linked P E) (t : Option ℕ) (v : Option Writing)
    (q : SocketTransport.Wire (Option ℕ)) : Linked P E :=
  { s with writers := s.writers.put t v q }

theorem Linking.start (surroundings : Surroundings P E) (socket : Socket) :
    Linking codec serializer (Linked.start surroundings socket : Linked P E) [] [] where
  exclusive i := by simp [Linked.start, Writers.inside, Writers.start]
  sent := rfl
  returned := rfl
  fair _ h := by cases h
  wire := rfl
  calling _ _ h := by cases h
  free _ := rfl

theorem Linking.holder (h : Linking codec serializer s writes part) {v : Writing}
    (ht : s.writers.writers t = some v) (hin : v.inside = true) : s.writers.writeMutex = some t :=
  (h.exclusive t).mp (by simpa [Writers.inside, ht] using hin)

theorem Linking.outside (h : Linking codec serializer s writes part) {v u : Writing} {j : Option ℕ}
    (ht : s.writers.writers t = some v) (hin : v.inside = true) (hj : j ≠ t)
    (hu : s.writers.writers j = some u) : u.inside = false := by
  cases hinside : u.inside with
  | false => rfl
  | true =>
    have hsame := (h.holder hu hinside).symm.trans (h.holder ht hin)
    exact absurd (Option.some.inj hsame) hj

theorem Linking.hold (h : Linking codec serializer s writes part) {v u : Writing} {more : List Byte}
    (ht : s.writers.writers t = some v) (hholds : KeepsMutex codec v u more) :
    Linking codec serializer
      (s.put t (some u) { s.writers.toWire with outgoing := s.writers.outgoing ++ more }) writes
      (part ++ more) := by
  obtain ⟨hin, hin', hsends⟩ := hholds
  have hholder := h.holder ht hin
  constructor
  · apply h.exclusive.same
    intro j
    by_cases hj : j = t
    · subst hj
      simp [Linked.put, Writers.inside, ht, hin, hin']
    · exact Writers.put_inside_of_ne hj
  · exact h.sent
  · exact h.returned
  · exact h.fair
  · simp [Linked.put, h.wire]
  · intro j x hx
    by_cases hj : j = t
    · subst hj
      obtain rfl : u = x := by simpa [Linked.put] using hx
      obtain ⟨m, hm, -, hsending⟩ := h.calling j v ht
      exact ⟨m, hm, fun hout => by simp [hin'] at hout, fun _ => hsends _ _ (hsending hin)⟩
    · have hx : s.writers.writers j = some x := by simpa [Linked.put, hj] using hx
      obtain ⟨m', hm', hlocking, -⟩ := h.calling j x hx
      have hout := h.outside ht hin hj hx
      exact ⟨m', hm', hlocking, fun hin => by simp [hout] at hin⟩
  · intro hfree
    cases hholder.symm.trans hfree

theorem Linking.enter (h : Linking codec serializer s writes part) {bytes : List Byte}
    (ht : s.writers.writers t = some (.locking bytes)) (hfree : s.writers.writeMutex = none) :
    Linking codec serializer
      (s.put t (some (.making bytes)) { s.writers.toWire with writeMutex := some t }) writes part := by
  constructor
  · apply h.exclusive.turn (t := t)
    · exact .inr (.inl ⟨hfree, rfl, by simp [Linked.put, Writers.inside, Writing.inside]⟩)
    · exact fun j hj => Writers.put_inside_of_ne hj
  · exact h.sent
  · exact h.returned
  · exact h.fair
  · exact h.wire
  · intro j x hx
    by_cases hj : j = t
    · subst hj
      obtain rfl : Writing.making bytes = x := by simpa [Linked.put] using hx
      obtain ⟨m, hm, hlocking, -⟩ := h.calling j _ ht
      obtain rfl := Writing.locking.inj (hlocking rfl)
      exact ⟨m, hm, fun hout => (by cases hout), fun _ => ⟨rfl, h.free hfree⟩⟩
    · have hx : s.writers.writers j = some x := by simpa [Linked.put, hj] using hx
      exact h.calling j x hx
  · intro hnone
    cases hnone

theorem Linking.leave (h : Linking codec serializer s writes part) {written : Option (List Byte)}
    {m : Outgoing} {w : World P E} (ht : s.writers.writers t = some (.unlocking written))
    (hm : s.world.performs (choiceOf t) = some (.send m)) (hsent : w.session.sent = s.world.session.sent ++ [m])
    (hothers : ∀ j m', j ≠ t → s.world.performs (choiceOf j) = some (.send m') →
      w.performs (choiceOf j) = some (.send m')) :
    Linking codec serializer { s.put t none { s.writers.toWire with writeMutex := none } with
      world := w, returned := s.returned ++ [written.isSome] } (writes ++ [⟨m, written.isSome, part⟩]) [] := by
  have hsending : Sending codec (serializer.serialize m) part (.unlocking written) := by
    obtain ⟨m', hm', -, hsending⟩ := h.calling t _ ht
    cases hm.symm.trans hm'
    exact hsending rfl
  constructor
  · apply h.exclusive.turn (t := t)
    · exact .inr (.inr ⟨by simp [Writers.inside, ht, Writing.inside], rfl, by simp [Linked.put, Writers.inside]⟩)
    · exact fun j hj => Writers.put_inside_of_ne hj
  · simp [h.sent, hsent]
  · simp [h.returned]
  · intro x hx
    rcases List.mem_append.mp hx with hx | hx
    · exact h.fair x hx
    · obtain rfl := List.mem_singleton.mp hx
      exact ⟨hsending.prefix_frame, hsending.whole⟩
  · simp [Linked.put, h.wire]
  · intro j x hx
    by_cases hj : j = t
    · subst hj
      simp [Linked.put] at hx
    · have hx : s.writers.writers j = some x := by simpa [Linked.put, hj] using hx
      obtain ⟨m', hm', hlocking, -⟩ := h.calling j x hx
      have hout := h.outside ht rfl hj hx
      exact ⟨m', hothers j m' hj hm', hlocking, fun hin => by simp [hout] at hin⟩
  · exact fun _ => rfl

theorem Linking.call (h : Linking codec serializer s writes part) {m : Outgoing}
    (hm : s.world.performs (choiceOf t) = some (.send m)) (ht : s.writers.writers t = none)
    (calls : Option ℕ → List (List Byte)) :
    Linking codec serializer { s with writers := { s.writers with
      writers := Function.update s.writers.writers t (some (.locking (serializer.serialize m)))
      calls := calls } } writes part := by
  constructor
  · apply h.exclusive.same
    intro j
    by_cases hj : j = t
    · subst hj
      simp [Writers.inside, ht, Writing.inside]
    · simp [Writers.inside, hj]
  · exact h.sent
  · exact h.returned
  · exact h.fair
  · exact h.wire
  · intro j x hx
    by_cases hj : j = t
    · subst hj
      obtain rfl : Writing.locking (serializer.serialize m) = x := by simpa using hx
      exact ⟨m, hm, fun _ => rfl, fun hin => by cases hin⟩
    · exact h.calling j x (by simpa [hj] using hx)
  · exact h.free

theorem Linking.session (h : Linking codec serializer s writes part) {w : World P E}
    (hsent : w.session.sent = s.world.session.sent)
    (hothers : ∀ j m, s.world.performs (choiceOf j) = some (.send m) →
      w.performs (choiceOf j) = some (.send m)) (socket : Socket) :
    Linking codec serializer { s with world := w, socket := socket } writes part := by
  refine ⟨h.exclusive, h.sent.trans hsent.symm, h.returned, h.fair, h.wire, ?_, h.free⟩
  intro j x hx
  obtain ⟨m, hm, hcalling⟩ := h.calling j x hx
  exact ⟨m, hothers j m hm, hcalling⟩

end Linking

section Steps

variable {codec : HeaderCodec} {serializer : Serializer} {s s' : Linked P E} {l : LinkedChoice P E}

theorem performs_of_step {w w' : World P E} {c : Choice P E} {o : Op P E} {j : Option ℕ}
    (hstep : w.step c = some w') (hj : choiceOf j ≠ c) (h : w.performs (choiceOf j) = some o) :
    w'.performs (choiceOf j) = some o := by
  cases j with
  | none =>
    rcases receiver_of_step hstep with ⟨-, hr⟩ | ⟨hc, -⟩
    · simpa [World.performs, choiceOf, hr] using h
    · exact absurd hc.symm hj
  | some i =>
    obtain ⟨t, ht, ho⟩ := Option.bind_eq_some_iff.mp h
    rcases thread_of_step hstep ht with hsame | ⟨hc, -⟩
    · simpa [World.performs, choiceOf, hsame] using ho
    · exact absurd hc.symm hj

theorem choiceOf_injective {j t : Option ℕ} (h : (choiceOf j : Choice P E) = choiceOf t) : j = t := by
  cases j <;> cases t <;> simp_all [choiceOf]

theorem sent_interp {o : Op P E} (ho : ∀ m, o ≠ .send m) (s : Session P E) :
    (interp o s).2.sent = s.sent := by
  cases o with
  | send m => exact absurd rfl (ho m)
  | receive => cases hi : s.inbox <;> simp [interp, hi]
  | _ => rfl

variable (codec serializer) in
inductive Linked.Stepped (s : Linked P E) : Linked P E → Prop
  | session (l : Choice P E) (w : World P E) (hsend : ∀ m, s.world.performs l ≠ some (.send m))
      (hreceive : s.world.performs l ≠ some .receive) (h : s.world.step l = some w) :
      Stepped s { s with world := w }
  | receive (l : Choice P E) (w : World P E) (hl : s.world.performs l = some .receive)
      (h : (s.world.given [(s.receive codec serializer).1] s.world.session.written).step l = some w) :
      Stepped s { s with world := w, socket := (s.receive codec serializer).2 }
  | call (t : Option ℕ) (m : Outgoing) (calls : Option ℕ → List (List Byte))
      (hm : s.world.performs (choiceOf t) = some (.send m)) (ht : s.writers.writers t = none) :
      Stepped s { s with writers := { s.writers with
        writers := Function.update s.writers.writers t (some (.locking (serializer.serialize m)))
        calls := calls } }
  | enter (t : Option ℕ) (bytes : List Byte) (ht : s.writers.writers t = some (.locking bytes))
      (hfree : s.writers.writeMutex = none) :
      Stepped s (s.put t (some (.making bytes)) { s.writers.toWire with writeMutex := some t })
  | hold (t : Option ℕ) (v u : Writing) (more : List Byte) (ht : s.writers.writers t = some v)
      (hholds : KeepsMutex codec v u more) : Stepped s
        (s.put t (some u) { s.writers.toWire with outgoing := s.writers.outgoing ++ more })
  | leave (t : Option ℕ) (written : Option (List Byte)) (w : World P E)
      (ht : s.writers.writers t = some (.unlocking written))
      (h : (s.world.given s.world.session.inbox fun _ => written.isSome).step (choiceOf t) = some w) :
      Stepped s { s.put t none { s.writers.toWire with writeMutex := none } with
        world := w, returned := s.returned ++ [written.isSome] }

theorem stepped_of_writer {t : Option ℕ} {v : Writing} {writers : Writers (Option ℕ)}
    (ht : s.writers.writers t = some v) (hnot : ∀ written, v ≠ .unlocking written)
    (h : s.writers.step codec (.writer t) = some writers) :
    s.Stepped codec serializer { s with writers := writers } := by
  obtain ⟨v', hv, hstep⟩ := Option.bind_eq_some_iff.mp h
  cases ht.symm.trans hv
  obtain ⟨⟨u, q⟩, ha, rfl⟩ := Option.map_eq_some_iff.mp hstep
  cases hin : v.inside with
  | true =>
    obtain ⟨rfl, u, rfl, hholds⟩ := keepsMutex_of_advance hin hnot ha
    have hstepped := @Linked.Stepped.hold P E codec serializer s t v u [] ht hholds
    rw [List.append_nil] at hstepped
    exact hstepped
  | false =>
    cases v with
    | locking bytes =>
      obtain ⟨hfree, he⟩ := Option.ite_none_right_eq_some.mp ha
      cases he
      exact .enter t bytes ht (Option.isNone_iff_eq_none.mp hfree)
    | _ => cases hin

theorem Linked.stepped (h : s.step codec serializer l = some s') : s.Stepped codec serializer s' := by
  cases l with
  | session l =>
    simp only [Linked.step] at h
    split at h
    · cases h
    · rename_i hl
      obtain ⟨w, hw, rfl⟩ := Option.map_eq_some_iff.mp h
      exact .receive l w hl hw
    · rename_i hsend hreceive
      obtain ⟨w, hw, rfl⟩ := Option.map_eq_some_iff.mp h
      exact .session l w hsend hreceive hw
  | call t =>
    simp only [Linked.step] at h
    split at h
    · rename_i m hm
      obtain ⟨writers, hw, rfl⟩ := Option.map_eq_some_iff.mp h
      obtain ⟨ht, he⟩ := Option.ite_none_right_eq_some.mp hw
      cases he
      exact .call t m _ hm (Option.isNone_iff_eq_none.mp ht)
    · cases h
  | writer t =>
    simp only [Linked.step] at h
    split at h
    · rename_i written ht
      obtain ⟨writers, hw, hstep⟩ := Option.bind_eq_some_iff.mp h
      obtain ⟨w, hw', rfl⟩ := Option.map_eq_some_iff.mp hstep
      obtain ⟨v, hv, hstep⟩ := Option.bind_eq_some_iff.mp hw
      cases ht.symm.trans hv
      cases hstep
      exact .leave t written w ht hw'
    · rename_i hnot
      obtain ⟨writers, hw, rfl⟩ := Option.map_eq_some_iff.mp h
      cases hv : s.writers.writers t with
      | none => simp [Writers.step, hv] at hw
      | some v => exact stepped_of_writer hv (fun written he => hnot written (he ▸ hv)) hw
  | chunk t k =>
    simp only [Linked.step] at h
    split at h
    · cases h
    · obtain ⟨writers, hw, rfl⟩ := Option.map_eq_some_iff.mp h
      obtain ⟨v, hv, hstep⟩ := Option.bind_eq_some_iff.mp hw
      obtain ⟨⟨u, q⟩, hc, rfl⟩ := Option.map_eq_some_iff.mp hstep
      obtain ⟨more, rfl, hholds⟩ := keepsMutex_of_chunk hc
      exact .hold t v u more hv hholds
  | failure t =>
    obtain ⟨writers, hw, rfl⟩ := Option.map_eq_some_iff.mp h
    obtain ⟨v, hv, hstep⟩ := Option.bind_eq_some_iff.mp hw
    obtain ⟨u, hf, rfl⟩ := Option.map_eq_some_iff.mp hstep
    have hstepped := @Linked.Stepped.hold P E codec serializer s t v u [] hv (keepsMutex_of_fail hf)
    rw [List.append_nil] at hstepped
    exact hstepped

theorem sent_of_step {w w' : World P E} {c : Choice P E} (hstep : w.step c = some w')
    (hsend : ∀ m, w.performs c ≠ some (.send m)) : w'.session.sent = w.session.sent := by
  rcases session_of_step hstep with ⟨o, ho, hs⟩ | ⟨-, tasks, hs⟩
  · rw [hs, sent_interp]
    rintro m rfl
    exact hsend m ho
  · rw [hs]

theorem sent_of_send {w w' : World P E} {c : Choice P E} {m : Outgoing}
    (hsend : w.performs c = some (.send m)) (hstep : w.step c = some w') :
    w'.session.sent = w.session.sent ++ [m] := by
  rcases session_of_step hstep with ⟨o, ho, hs⟩ | ⟨hnone, -⟩
  · cases hsend.symm.trans ho
    rw [hs]
    rfl
  · cases hsend.symm.trans hnone

theorem Linking.stepped {writes : List Write} {part : List Byte}
    (h : Linking codec serializer s writes part) (hstep : s.Stepped codec serializer s') :
    ∃ writes' part', Linking codec serializer s' writes' part' := by
  cases hstep with
  | session l w hsend hreceive hw =>
    refine ⟨writes, part, h.session (sent_of_step hw hsend) (fun j m hm => ?_) s.socket⟩
    apply performs_of_step hw _ hm
    rintro rfl
    exact hsend m hm
  | receive l w hl hw =>
    have hgiven := hl
    rw [← performs_given] at hgiven
    have hsent := sent_of_step hw fun m hm => by cases hgiven.symm.trans hm
    refine ⟨writes, part, h.session hsent (fun j m hm => ?_) _⟩
    apply performs_of_step hw
    · rintro rfl
      cases hl.symm.trans hm
    · rw [performs_given]
      exact hm
  | call t m calls hm ht => exact ⟨writes, part, h.call hm ht calls⟩
  | enter t bytes ht hfree => exact ⟨writes, part, h.enter ht hfree⟩
  | hold t v u more ht hholds => exact ⟨writes, part ++ more, h.hold ht hholds⟩
  | leave t written w ht hw =>
    obtain ⟨m, hm, -, -⟩ := h.calling t _ ht
    have hsent := sent_of_send (performs_given.trans hm) hw
    refine ⟨_, [], h.leave ht hm hsent fun j m' hj hm' => ?_⟩
    apply performs_of_step hw
    · exact fun he => hj (choiceOf_injective he)
    · rw [performs_given]
      exact hm'

theorem linking_of_exec {surroundings : Surroundings P E} {socket : Socket} {labels : List (LinkedChoice P E)}
    (hrun : exec (Linked.step codec serializer) (Linked.start surroundings socket) labels = some s) :
    ∃ writes part, Linking codec serializer s writes part := by
  apply exec_invariant (I := fun s : Linked P E => ∃ writes part, Linking codec serializer s writes part)
    _ _ hrun
  · rintro t l t' ⟨writes, part, h⟩ hstep
    exact h.stepped (Linked.stepped hstep)
  · exact ⟨[], [], .start surroundings socket⟩

end Steps

end XconnCpp.Sessions

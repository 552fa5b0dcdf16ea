import XconnCpp.SocketSessions

namespace XconnCpp.Sessions

open Library Library.Program Library.Program.Prog Library.Transition Library.Lock
open SocketTransport

variable {P E : Type}

section Reading

variable {codec : HeaderCodec} {serializer : Serializer} {socket t : Socket}

theorem recvExactly_error {n : ℕ} {e : SocketTransport.SystemError}
    (h : socket.recvExactly n = (.error e, t)) : t.incoming = [] := by
  simp only [Socket.recvExactly, Socket.transportRead] at h
  split_ifs at h with hn hempty
  · cases h
  · cases h
    exact hempty
  · cases h

theorem readFrame_error {e : SocketTransport.SystemError} (h : socket.readFrame codec = (.error e, t)) :
    t.incoming = [] := by
  rcases hheader : socket.recvExactly 4 with ⟨e' | _ | headerBytes, u⟩
  · simp only [Socket.readFrame, hheader] at h
    cases h
    exact recvExactly_error hheader
  · simp [Socket.readFrame, hheader] at h
  · simp only [Socket.readFrame, hheader] at h
    cases hdecode : codec.receive headerBytes with
    | none => simp [hdecode] at h
    | some header =>
      rw [hdecode] at h
      exact recvExactly_error h

theorem deliveries_of_empty (h : socket.incoming = []) : deliveries codec socket = [] := by
  have hread : ∃ u, socket.readFrame codec = (.error .eof, u) := by
    simp [Socket.readFrame, Socket.recvExactly, Socket.transportRead, h]
  obtain ⟨u, hu⟩ := hread
  exact SocketTransport.deliveries_of_error hu

theorem receiveFrom_inboxOf : inboxOf codec serializer socket =
      (receiveFrom codec serializer socket).1 :: inboxOf codec serializer (receiveFrom codec serializer socket).2 ∨
    inboxOf codec serializer socket = [] ∧ (receiveFrom codec serializer socket).1 = .failed ∧
      inboxOf codec serializer (receiveFrom codec serializer socket).2 = [] := by
  rcases hframe : socket.readFrame codec with ⟨e | d, u⟩
  · right
    have hread : socket.read codec = (.error e, u) := by simp [SocketTransport.read_eq, hframe]
    have hempty : deliveries codec u = [] := deliveries_of_empty (readFrame_error hframe)
    have hnone := SocketTransport.deliveries_of_error hframe
    simp [inboxOf, receiveFrom, hread, hnone, hempty]
  · left
    have hread : socket.read codec = (.ok (d.getD []), u) := by simp [SocketTransport.read_eq, hframe]
    simp [inboxOf, receiveFrom, hread, SocketTransport.deliveries_of_ok hframe]

end Reading

section Refinement

variable {codec : HeaderCodec} {serializer : Serializer} {s s' : Linked P E} {written : ℕ → Bool}
  {surroundings : Surroundings P E} {socket : Socket} {labels : List (LinkedChoice P E)}

def Agrees (written : ℕ → Bool) (returned : List Bool) : Prop :=
  ∀ n b, returned[n]? = some b → written n = b

theorem agrees_returned (s : Linked P E) : Agrees (fun n => s.returned.getD n true) s.returned := by
  intro n b hn
  simp [List.getD_eq_getElem?_getD, hn]

theorem returned_of_stepped (h : s.Stepped codec serializer s') : s.returned <+: s'.returned := by
  cases h <;> first | exact List.prefix_rfl | exact List.prefix_append _ _

theorem Agrees.initial {returned returned' : List Bool} (h : Agrees written returned')
    (hinitial : returned <+: returned') : Agrees written returned := by
  obtain ⟨rest, rfl⟩ := hinitial
  intro n b hn
  apply h n b
  rw [List.getElem?_append_left (List.getElem?_eq_some_iff.mp hn).1]
  exact hn

theorem step_toWorld {writes : List Write} {part : List Byte} (h : Linking codec serializer s writes part)
    (hopen : ∀ l, s.world.performs l = some .receive → s.world.session.closed = false)
    (hwritten : Agrees written s'.returned) (hstep : s.Stepped codec serializer s') :
    s'.toWorld codec serializer written = s.toWorld codec serializer written ∨
      ∃ c, (s.toWorld codec serializer written).step c = some (s'.toWorld codec serializer written) := by
  cases hstep with
  | session l w hsend hreceive hw =>
    right
    cases hl : s.world.performs l with
    | none => exact ⟨l, step_given_of_none hl hw⟩
    | some o =>
      refine ⟨l, step_given hl ?_ ?_ hw⟩
      · rintro rfl
        exact hreceive hl
      · rintro m rfl
        exact hsend m hl
  | receive l w hl hw =>
    right
    have hfrom : s.receive codec serializer = receiveFrom codec serializer s.socket := by
      simp [Linked.receive, hopen l hl]
    rw [hfrom] at hw
    refine ⟨l, ?_⟩
    rcases @receiveFrom_inboxOf codec serializer s.socket with hcons | ⟨hnil, hfailed, hrest⟩
    · have hgiven := step_given_receive hl hw
        (inboxOf codec serializer (receiveFrom codec serializer s.socket).2) written
      rw [← hcons] at hgiven
      simpa only [Linked.toWorld, hfrom] using hgiven
    · rw [hfailed] at hw
      have hgiven := step_given_failed hl hw written
      simpa only [Linked.toWorld, hfrom, hnil, hrest] using hgiven
  | call t m calls hm ht => exact .inl rfl
  | enter t bytes ht hfree => exact .inl rfl
  | hold t v u more ht hholds => exact .inl rfl
  | leave t result w ht hw =>
    right
    obtain ⟨m, hm, -, -⟩ := h.calling t _ ht
    have hlength : s.returned.length = s.world.session.sent.length := by
      rw [← h.returned, ← h.sent, List.length_map, List.length_map]
    have hresult : written s.world.session.sent.length = result.isSome := by
      apply hwritten
      rw [← hlength]
      exact List.getElem?_concat_length
    exact ⟨choiceOf t, step_given_send hm hw hresult⟩

theorem toWorld_start : (Linked.start surroundings socket : Linked P E).toWorld codec serializer written =
    World.start { surroundings with
      inbox := inboxOf codec serializer socket
      written := written } := rfl

theorem toWorld_of_exec
    (hrun : exec (Linked.step codec serializer) (Linked.start surroundings socket) labels = some s)
    (hwritten : Agrees written s.returned) : ∃ choices, exec World.step
      (World.start { surroundings with
        inbox := inboxOf codec serializer socket
        written := written }) choices = some (s.toWorld codec serializer written) := by
  induction labels using List.reverseRecOn generalizing s with
  | nil =>
    cases hrun
    exact ⟨[], congrArg some toWorld_start.symm⟩
  | append_singleton labels l ih =>
    obtain ⟨t, ht, hl⟩ := exec_snoc_iff.mp hrun
    have hstepped := Linked.stepped hl
    obtain ⟨choices, hchoices⟩ := ih ht (hwritten.initial (returned_of_stepped hstepped))
    obtain ⟨writes, part, hlinking⟩ := linking_of_exec ht
    have hopen (c : Choice P E) (hc : t.world.performs c = some .receive) :
        t.world.session.closed = false := by
      cases hclosed : t.world.session.closed with
      | false => rfl
      | true =>
        have hnil := @exec_nil _ _ World.step (t.toWorld codec serializer written)
        have hsilent := silent_after_close hchoices hclosed hnil (performs_given.trans hc)
        exact absurd trivial hsilent
    rcases step_toWorld hlinking hopen hwritten hstepped with hsame | ⟨c, hc⟩
    · exact ⟨choices, by rw [hsame, hchoices]⟩
    · exact ⟨choices ++ [c], exec_snoc_iff.mpr ⟨_, hchoices, hc⟩⟩

/-- A session over a socket, whose messages go out bytewise under the mutex of `write`, does nothing that
the session does not do whose sends are atomic and whose inbox is what the socket has to give. -/
theorem linked_refines (codec : HeaderCodec) (serializer : Serializer) (surroundings : Surroundings P E)
    (socket : Socket) (labels : List (LinkedChoice P E)) (s : Linked P E)
    (hrun : exec (Linked.step codec serializer) (Linked.start surroundings socket) labels = some s) :
    ∃ written choices, Agrees written s.returned ∧ exec World.step
      (World.start { surroundings with
        inbox := inboxOf codec serializer socket
        written := written }) choices = some (s.toWorld codec serializer written) := by
  obtain ⟨choices, hchoices⟩ := toWorld_of_exec hrun (agrees_returned s)
  exact ⟨_, choices, agrees_returned s, hchoices⟩

/-- The wire holds, one after another and in the order of `sent`, the frames of the messages handed over:
whole where `write` has returned true, cut short where it has not, and then a part of the frame of the
call that holds the mutex. -/
theorem wire_of_writes (codec : HeaderCodec) (serializer : Serializer) (surroundings : Surroundings P E)
    (socket : Socket) (labels : List (LinkedChoice P E)) (s : Linked P E)
    (hrun : exec (Linked.step codec serializer) (Linked.start surroundings socket) labels = some s) :
    ∃ (writes : List Write) (part : List Byte), writes.map Write.message = s.world.session.sent ∧
      writes.map Write.whole = s.returned ∧ (∀ x ∈ writes, x.Fair codec serializer) ∧
      s.writers.outgoing = writes.flatMap Write.bytes ++ part ∧
      (s.writers.writeMutex = none → part = []) ∧
      ∀ t v, s.writers.writeMutex = some t → s.writers.writers t = some v → ∃ m,
        s.world.performs (choiceOf t) = some (.send m) ∧
          part <+: frame codec (serializer.serialize m) := by
  obtain ⟨writes, part, h⟩ := linking_of_exec hrun
  refine ⟨writes, part, h.sent, h.returned, h.fair, h.wire, h.free, fun t v hholder hv => ?_⟩
  have hin : s.writers.inside t := (h.exclusive t).mpr hholder
  obtain ⟨m, hm, -, hsending⟩ := h.calling t v hv
  exact ⟨m, hm, (hsending (by simpa [Writers.inside, hv] using hin)).prefix_frame⟩

end Refinement

section Peers

variable {codec : HeaderCodec} {serializer : Serializer} {payloads : List SocketTransport.Payload}
  {socket : Socket}

theorem readFrame_full {p : SocketTransport.Payload} {rest : List Byte}
    (hs : socket.incoming = frame codec p.1 ++ rest)
    (hh : 4 ≤ (socket.atHand socket.reads : ℕ)) (hp : p.1.length ≤ (socket.atHand (socket.reads + 1) : ℕ)) :
    socket.readFrame codec =
      (.ok (some p.1), { socket with incoming := rest, reads := socket.reads + 2 }) := by
  rw [frame, List.append_assoc] at hs
  have hheader := recvExactly_full hs (codec.send_length _) hh
  have hdecode := codec.receive_send ⟨.wamp, p.1.length⟩ p.2
  let u : Socket := { socket with incoming := p.1 ++ rest, reads := socket.reads + 1 }
  have hpayload := recvExactly_full (s := u) rfl rfl hp
  simp [Socket.readFrame, hheader, hdecode, u, hpayload]

theorem deliveries_of_noShortRead (hs : socket.incoming = wire codec payloads)
    (hreads : NoShortRead payloads socket) :
    deliveries codec socket = payloads.map fun p => some p.1 := by
  induction payloads generalizing socket with
  | nil => exact deliveries_of_empty hs
  | cons p payloads ih =>
    rw [wire_cons] at hs
    obtain ⟨⟨hh, hp⟩, hrest⟩ := (noShortRead_cons_iff (wire codec payloads)).mp hreads
    rw [SocketTransport.deliveries_of_ok (readFrame_full hs hh hp), List.map_cons]
    exact congrArg _ (ih rfl hrest)

theorem outgoing_of_whole {writes : List Write} (hfair : ∀ x ∈ writes, x.Fair codec serializer)
    (hwhole : ∀ x ∈ writes, x.whole = true)
    (hpayloads : payloads.map Subtype.val = writes.map fun x => serializer.serialize x.message) :
    writes.flatMap Write.bytes = wire codec payloads := by
  induction writes generalizing payloads with
  | nil =>
    obtain rfl := List.map_eq_nil_iff.mp hpayloads
    rfl
  | cons x writes ih =>
    obtain ⟨p, payloads, rfl, hp, hrest⟩ := List.map_eq_cons_iff.mp hpayloads
    have hx := (hfair x (by simp)).whole (hwhole x (by simp))
    have htail := ih (fun y hy => hfair y (List.mem_cons_of_mem _ hy))
      (fun y hy => hwhole y (List.mem_cons_of_mem _ hy)) hrest
    rw [wire_cons, List.flatMap_cons, htail, hx, hp]

/-- Between two sessions that speak over one connection: when all writes of the one have been whole and
no read of the other is short, the other is a session whose inbox is what the one has sent, each message
once and in the order of `sent`. -/
theorem peer_hears_sent (codec : HeaderCodec) (serializer : Serializer)
    (surroundings surroundings' : Surroundings P E) (socket peer : Socket)
    (labels labels' : List (LinkedChoice P E)) (s s' : Linked P E) (payloads : List SocketTransport.Payload)
    (hrun : exec (Linked.step codec serializer) (Linked.start surroundings socket) labels = some s)
    (hfree : s.writers.writeMutex = none) (hwhole : ∀ b ∈ s.returned, b = true)
    (hpayloads : payloads.map Subtype.val = s.world.session.sent.map serializer.serialize)
    (hpeer : peer.incoming = s.writers.outgoing) (hreads : NoShortRead payloads peer)
    (hrun' : exec (Linked.step codec serializer) (Linked.start surroundings' peer) labels' = some s') :
    ∃ written choices, exec World.step
      (World.start { surroundings' with
        inbox := s.world.session.sent.map fun m => serializer.inbound (serializer.serialize m)
        written := written }) choices = some (s'.toWorld codec serializer written) := by
  obtain ⟨writes, part, h⟩ := linking_of_exec hrun
  have hmessages : (writes.map fun x => serializer.serialize x.message) =
      s.world.session.sent.map serializer.serialize := by
    rw [← h.sent, List.map_map]
    rfl
  have hall : ∀ x ∈ writes, x.whole = true := by
    intro x hx
    apply hwhole
    rw [← h.returned]
    exact List.mem_map_of_mem hx
  have hout : s.writers.outgoing = wire codec payloads := by
    rw [h.wire, h.free hfree, List.append_nil]
    exact outgoing_of_whole h.fair hall (hpayloads.trans hmessages.symm)
  have hinbox : inboxOf codec serializer peer =
      s.world.session.sent.map fun m => serializer.inbound (serializer.serialize m) := by
    calc inboxOf codec serializer peer
        = (payloads.map Subtype.val).map serializer.inbound := by
          rw [inboxOf, deliveries_of_noShortRead (hpeer.trans hout) hreads]
          simp
      _ = (s.world.session.sent.map serializer.serialize).map serializer.inbound := by rw [hpayloads]
      _ = s.world.session.sent.map fun m => serializer.inbound (serializer.serialize m) := by simp
  obtain ⟨choices, hchoices⟩ := toWorld_of_exec hrun' (agrees_returned s')
  exact ⟨_, choices, by rw [← hinbox]; exact hchoices⟩

end Peers

section Sample

def sampleSerializer : Serializer where
  serialize
    | .unsubscribe requestId subscriptionId =>
      [131, 24, 34, requestId.toUInt8, subscriptionId.toUInt8]
    | _ => [128]
  deserialize
    | [130, 24, 35, requestId] => some (.unsubscribed requestId.toUInt64)
    | [131, 24, 34, _, _] => some (.other 34)
    | _ => none

def sampleSocket : Socket := Socket.receiving [0, 0, 0, 4, 130, 24, 35, 1] fun _ => 16

def sampleLabels : List (LinkedChoice Unit Unit) :=
  [.session (.request (.unsubscribe 7)), .session (.thread 0), .session (.thread 0), .session (.thread 0),
    .call (some 0), .session .receiver, .writer (some 0), .writer (some 0), .chunk (some 0) 3,
    .session .receiver, .chunk (some 0) 1, .writer (some 0), .chunk (some 0) 5, .writer (some 0),
    .session .receiver, .writer (some 0), .session .receiver, .session (.thread 0)]

structure Sampled (s : Linked Unit Unit) : Prop where
  returned : s.returned = [true]
  outgoing : s.writers.outgoing = [0, 0, 0, 5, 131, 24, 34, 1, 7]
  free : s.writers.writeMutex = none
  sent : s.world.session.sent.map sampleSerializer.serialize = [[131, 24, 34, 1, 7]]

theorem sample_run : ∃ s, exec (Linked.step rawSocket sampleSerializer) (Linked.start .quiet sampleSocket)
    sampleLabels = some s ∧ Sampled s := by
  have hrun : ((exec (Linked.step rawSocket sampleSerializer)
      (Linked.start .quiet sampleSocket) sampleLabels).map fun s => (s.returned, s.writers.outgoing,
        s.writers.writeMutex, s.world.session.sent.map sampleSerializer.serialize)) =
      some ([true], [0, 0, 0, 5, 131, 24, 34, 1, 7], none, [[131, 24, 34, 1, 7]]) := by
    decide +kernel
  obtain ⟨s, hs, he⟩ := Option.map_eq_some_iff.mp hrun
  simp only [Prod.mk.injEq] at he
  exact ⟨s, hs, he.1, he.2.1, he.2.2.1, he.2.2.2⟩

theorem linked_refines_answered : ∃ s : Linked Unit Unit,
    exec (Linked.step rawSocket sampleSerializer) (Linked.start .quiet sampleSocket) sampleLabels = some s ∧
      Sampled s ∧ ∃ written choices, Agrees written s.returned ∧ exec World.step
        (World.start { (.quiet : Surroundings Unit Unit) with
          inbox := inboxOf rawSocket sampleSerializer sampleSocket
          written := written }) choices = some (s.toWorld rawSocket sampleSerializer written) := by
  obtain ⟨s, hs, h⟩ := sample_run
  exact ⟨s, hs, h, linked_refines rawSocket sampleSerializer .quiet sampleSocket sampleLabels s hs⟩

theorem wire_of_writes_answered : ∃ s : Linked Unit Unit,
    exec (Linked.step rawSocket sampleSerializer) (Linked.start .quiet sampleSocket) sampleLabels = some s ∧
      Sampled s ∧ ∃ (writes : List Write) (part : List Byte),
        writes.map Write.message = s.world.session.sent ∧ writes.map Write.whole = s.returned ∧
        (∀ x ∈ writes, x.Fair rawSocket sampleSerializer) ∧
        s.writers.outgoing = writes.flatMap Write.bytes ++ part ∧ (s.writers.writeMutex = none → part = []) ∧
        ∀ t v, s.writers.writeMutex = some t → s.writers.writers t = some v → ∃ m,
          s.world.performs (choiceOf t) = some (.send m) ∧
            part <+: frame rawSocket (sampleSerializer.serialize m) := by
  obtain ⟨s, hs, h⟩ := sample_run
  exact ⟨s, hs, h, wire_of_writes rawSocket sampleSerializer .quiet sampleSocket sampleLabels s hs⟩

def samplePeer : Socket := Socket.receiving [0, 0, 0, 5, 131, 24, 34, 1, 7] fun _ => 16

theorem peer_hears_sent_sample : ∃ s : Linked Unit Unit, Sampled s ∧ ∃ written choices,
    exec World.step (World.start { (.quiet : Surroundings Unit Unit) with
      inbox := s.world.session.sent.map fun m => sampleSerializer.inbound (sampleSerializer.serialize m)
      written := written }) choices =
        some ((Linked.start .quiet samplePeer : Linked Unit Unit).toWorld rawSocket sampleSerializer
          written) := by
  obtain ⟨s, hs, h⟩ := sample_run
  have hreads : NoShortRead [⟨[131, 24, 34, 1, 7], by decide⟩] samplePeer := by
    intro i hi
    obtain rfl : i = 0 := Nat.lt_one_iff.mp hi
    exact ⟨(by decide : 4 ≤ 16), (by decide : 5 ≤ 16)⟩
  exact ⟨s, h, peer_hears_sent rawSocket sampleSerializer .quiet .quiet sampleSocket samplePeer
    sampleLabels [] s _ [⟨[131, 24, 34, 1, 7], by decide⟩] hs h.free (by simp [h.returned]) h.sent.symm
    h.outgoing.symm hreads rfl⟩

end Sample

end XconnCpp.Sessions

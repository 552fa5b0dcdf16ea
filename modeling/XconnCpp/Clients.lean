import XconnCpp.Joining
import XconnCpp.SocketRefinement

namespace XconnCpp.Clients

open Library Library.Transition SocketTransport Socket Urls Values
open SessionJoiner (SerializerType HandshakeCodec Joiner BaseSession Joined joinLoop openTransport)
open Sessions (Linked LinkedChoice World Serializer)

structure SessionDetails where
  sessionId : UInt64
  realm : Str
  authId : Str
  authRole : Str

structure Protocol (A Z J : Type) where
  anonymousAuthenticatorNew : Str → Option WholeDict → A
  ticketAuthenticatorNew : Str → Str → Option WholeDict → A
  cryptosignAuthenticatorNew : Str → Str → Option WholeDict → A
  wampcraAuthenticatorNew : Str → Str → Option WholeDict → A
  serializerNew : SerializerType → Z
  joinerNew : Str → Z → A → J
  sendHello : J → List Byte × J
  receive : J → List Byte → List Byte × J
  sessionDetails : J → Option SessionDetails

structure Network where
  codec : HeaderCodec
  handshake : HandshakeCodec
  dial : TransportKind → Str → Str → Option Socket

structure Authenticator (A : Type) where
  authId : Str
  authExtra : WholeDict
  authMethod : Str
  authData : Str
  authenticator : A

structure Client (A : Type) where
  authenticator : Authenticator A
  serializerType : SerializerType

structure Session where
  sessionId : Int64
  realm : Str
  authId : Str
  authRole : Str
  transport : Socket

def Session.new (base : BaseSession SessionDetails) : Option Session :=
  base.sessionDetails.map fun details =>
    ⟨details.sessionId.toInt64, cStr details.realm, cStr details.authId, cStr details.authRole, base.transport⟩

abbrev Connecting := Except StdException (Joined SessionDetails × Except SystemError (Option Session))

variable {A Z J : Type}

section Code

variable (protocol : Protocol A Z J)

def anonymousAuthenticator (authId : Str) (authExtra : WholeDict) : Authenticator A where
  authId := authId
  authExtra := authExtra
  authMethod := ascii "anonymous"
  authData := []
  authenticator := protocol.anonymousAuthenticatorNew (cStr authId) none

def ticketAuthenticator (authId ticket : Str) (authExtra : WholeDict) : Authenticator A where
  authId := authId
  authExtra := authExtra
  authMethod := ascii "ticket"
  authData := ticket
  authenticator := protocol.ticketAuthenticatorNew (cStr authId) (cStr ticket) none

def cryptosignAuthenticator (authId privateKeyHex : Str) (authExtra : WholeDict) : Authenticator A where
  authId := authId
  authExtra := authExtra
  authMethod := ascii "cryptosign"
  authData := privateKeyHex
  authenticator := protocol.cryptosignAuthenticatorNew (cStr authId) (cStr privateKeyHex) none

def wampcraAuthenticator (authId secret : Str) (authExtra : WholeDict) : Authenticator A where
  authId := authId
  authExtra := authExtra
  authMethod := ascii "wampcra"
  authData := secret
  authenticator := protocol.wampcraAuthenticatorNew (cStr authId) (cStr secret) none

variable (network : Network)

def Client.surroundings (client : Client A) : SessionJoiner.Surroundings J SessionDetails where
  codec := network.codec
  handshake := network.handshake
  dial := network.dial
  joiner :=
    { new := fun realm =>
        protocol.joinerNew realm (protocol.serializerNew client.serializerType) client.authenticator.authenticator
      sendHello := protocol.sendHello
      receive := protocol.receive
      sessionDetails := protocol.sessionDetails }

def Client.connect (client : Client A) (uri realm : Str) : Connecting := do
  let run ← SessionJoiner.join (client.surroundings protocol network) client.serializerType uri realm
  return (run, run.result.map Session.new)

def connectAnonymous (uri realm authId : Str) : Connecting :=
  Client.connect protocol network ⟨anonymousAuthenticator protocol authId [], .cbor⟩ uri realm

def connectTicket (uri realm authId ticket : Str) : Connecting :=
  Client.connect protocol network ⟨ticketAuthenticator protocol authId ticket [], .cbor⟩ uri realm

def connectWAMPCRA (uri realm authId secret : Str) : Connecting :=
  Client.connect protocol network ⟨wampcraAuthenticator protocol authId secret [], .cbor⟩ uri realm

def connectCryptosign (uri realm authId privateKeyHex : Str) : Connecting :=
  Client.connect protocol network ⟨cryptosignAuthenticator protocol authId privateKeyHex [], .cbor⟩ uri realm

end Code

section Pieces

variable {codec : HeaderCodec} {s t : Socket}

structure Piece where
  payload : List Byte
  whole : Bool
  bytes : List Byte

structure Piece.Fair (codec : HeaderCodec) (x : Piece) : Prop where
  initial : x.bytes <+: frame codec x.payload
  whole : x.whole = true → x.bytes = frame codec x.payload

theorem write_piece (codec : HeaderCodec) (s : Socket) (payload : List Byte) :
    ∃ x : Piece, x.Fair codec ∧ x.payload = payload ∧
      (s.write codec payload).2.outgoing = s.outgoing ++ x.bytes ∧
        ((∀ n, s.failure n = none) → x.whole = true) := by
  cases hheader : s.failure s.writes with
  | some n =>
    let x : Piece := ⟨payload, false, (codec.send ⟨.wamp, payload.length⟩).take n⟩
    refine ⟨x, ⟨?_, fun h => by cases h⟩, rfl, ?_, fun h => ?_⟩
    · exact (List.take_prefix _ _).trans (List.prefix_append _ _)
    · rw [write_of_header_failure codec payload hheader]
    · rw [h] at hheader
      cases hheader
  | none =>
    cases hpayload : s.failure (s.writes + 1) with
    | some n =>
      let x : Piece := ⟨payload, false, codec.send ⟨.wamp, payload.length⟩ ++ payload.take n⟩
      refine ⟨x, ⟨?_, fun h => by cases h⟩, rfl, ?_, fun h => ?_⟩
      · exact (List.prefix_append_right_inj _).mpr (List.take_prefix _ _)
      · rw [write_of_payload_failure codec payload hheader hpayload]
      · rw [h] at hpayload
        cases hpayload
    | none =>
      refine ⟨⟨payload, true, frame codec payload⟩, ⟨List.prefix_rfl, fun _ => rfl⟩, rfl, ?_, fun _ => rfl⟩
      rw [write_of_done codec payload hheader hpayload]

theorem recvExactly_keeps (s : Socket) (n : ℕ) :
    (s.recvExactly n).2.outgoing = s.outgoing ∧ (s.recvExactly n).2.failure = s.failure := by
  simp only [recvExactly, transportRead]
  split_ifs <;> exact ⟨rfl, rfl⟩

theorem readFrame_keeps {d : Except SystemError (Option (List Byte))} (h : s.readFrame codec = (d, t)) :
    t.outgoing = s.outgoing ∧ t.failure = s.failure := by
  have hkeeps := recvExactly_keeps s 4
  rcases hheader : s.recvExactly 4 with ⟨e | _ | headerBytes, u⟩ <;>
    simp only [Socket.readFrame, hheader] at h hkeeps
  · cases h
    exact hkeeps
  · cases h
    exact hkeeps
  · cases hdecode : codec.receive headerBytes with
    | none =>
      rw [hdecode] at h
      cases h
      exact hkeeps
    | some header =>
      rw [hdecode] at h
      have hpayload := recvExactly_keeps u header.length
      simp only [h] at hpayload
      exact ⟨hpayload.1.trans hkeeps.1, hpayload.2.trans hkeeps.2⟩

end Pieces

section Handshakes

inductive Handshake {D : Type} (joiner : Joiner J D) :
    J → List (Option (List Byte)) → List (List Byte) → J → Prop
  | done {j j' : J} {d : Option (List Byte)} (h : joiner.receive j (d.getD []) = ([], j')) :
      Handshake joiner j [d] [] j'
  | reply {j k j' : J} {d : Option (List Byte)} {ds : List (Option (List Byte))} {bytes : List Byte}
      {replies : List (List Byte)} (h : joiner.receive j (d.getD []) = (bytes, k)) (hbytes : bytes ≠ [])
      (hrest : Handshake joiner k ds replies j') : Handshake joiner j (d :: ds) (bytes :: replies) j'

structure InOrder {D : Type} (joiner : Joiner J D) (codec : HeaderCodec) (s : Socket) (j : J)
    (base : BaseSession D) (taken : List (Option (List Byte))) (pieces : List Piece) : Prop where
  handshake : ∃ j', Handshake joiner j taken (pieces.map Piece.payload) j' ∧
    base.sessionDetails = joiner.sessionDetails j'
  read : deliveries codec s = taken ++ deliveries codec base.transport
  fair : ∀ x ∈ pieces, x.Fair codec
  wire : base.transport.outgoing = s.outgoing ++ pieces.flatMap Piece.bytes
  whole : (∀ n, s.failure n = none) → ∀ x ∈ pieces, x.whole = true

variable {D : Type} {surroundings : SessionJoiner.Surroundings J D}

theorem joinLoop_in_order (s : Socket) (j : J) {base : BaseSession D}
    (h : (joinLoop surroundings s j).2 = .ok base) :
    ∃ taken pieces, InOrder surroundings.joiner surroundings.codec s j base taken pieces := by
  rcases hread : s.readFrame surroundings.codec with ⟨e | d, t⟩
  · rw [SessionJoiner.joinLoop_of_error hread] at h
    cases h
  · obtain ⟨hout, hfailure⟩ := readFrame_keeps hread
    rcases hanswer : surroundings.joiner.receive j (d.getD []) with ⟨bytes, k⟩
    rw [SessionJoiner.joinLoop_of_ok hread hanswer] at h
    by_cases hbytes : bytes = []
    · subst hbytes
      cases h
      exact ⟨[d], [],
        { handshake := ⟨k, .done hanswer, rfl⟩
          read := deliveries_of_ok hread
          fair := by simp
          wire := by simp [hout]
          whole := by simp }⟩
    · rw [if_neg hbytes] at h
      obtain ⟨x, hx, rfl, hwire, hwhole⟩ := write_piece surroundings.codec t bytes
      obtain ⟨taken, pieces, hrest⟩ := joinLoop_in_order _ k h
      obtain ⟨j', hhandshake, hdetails⟩ := hrest.handshake
      refine ⟨d :: taken, x :: pieces, ?_⟩
      constructor
      · exact ⟨j', .reply hanswer hbytes hhandshake, hdetails⟩
      · rw [deliveries_of_ok hread, ← deliveries_write t x.payload, hrest.read, List.cons_append]
      · exact List.forall_mem_cons.mpr ⟨hx, hrest.fair⟩
      · rw [hrest.wire, hwire, hout, List.append_assoc, List.flatMap_cons]
      · intro hs
        have ht : ∀ n, t.failure n = none := by simpa [hfailure] using hs
        have hwritten : ∀ n, (t.write surroundings.codec x.payload).2.failure n = none := by
          rw [write_with]
          exact ht
        exact List.forall_mem_cons.mpr ⟨hwhole ht, hrest.whole hwritten⟩
termination_by s.incoming.length
decreasing_by
  rw [write_incoming]
  exact readFrame_incoming_lt hread

theorem connect_opening {kind : TransportKind} {host port : Str} {serializerType : SerializerType}
    {maxMsgSize : ℕ} {s : Socket}
    (h : SessionJoiner.connect surroundings kind host port serializerType maxMsgSize = (true, s)) :
    ∃ d request, surroundings.dial kind host port = some d ∧
      surroundings.handshake.send serializerType maxMsgSize = some request ∧
        s.outgoing = d.outgoing ++ request := by
  unfold SessionJoiner.connect at h
  cases hdial : surroundings.dial kind host port with
  | none => simp [hdial] at h
  | some d =>
    cases hrequest : surroundings.handshake.send serializerType maxMsgSize with
    | none => simp [hdial, hrequest] at h
    | some request =>
      refine ⟨d, request, rfl, rfl, ?_⟩
      rcases hwrite : d.transportWrite request with ⟨e | n, u⟩
      · simp [hdial, hrequest, hwrite] at h
      · have hu : u.outgoing = d.outgoing ++ request := by
          simp only [transportWrite] at hwrite
          split at hwrite <;> cases hwrite
          rfl
        have hkeeps := recvExactly_keeps u 4
        rcases hread : u.recvExactly 4 with ⟨e | _ | response, v⟩
        · simp [hdial, hrequest, hwrite, hread] at h
        · simp [hdial, hrequest, hwrite, hread] at h
        · simp only [hdial, hrequest, hwrite, hread, Prod.mk.injEq] at h hkeeps
          rw [← h.2, hkeeps.1, hu]

end Handshakes

section Conversations

variable {P E : Type} (protocol : Protocol A Z J) (network : Network) (client : Client A)
  (serializer : Serializer) (surroundings : Sessions.Surroundings P E)

structure Greeted (connected : Bool) (s : Socket) (hello : List Byte) (j : J) (session : Session)
    (taken : List (Option (List Byte))) (greetings : List Piece) : Prop where
  opening : connected = true → ∃ kind host port d request, network.dial kind host port = some d ∧
    network.handshake.send client.serializerType SessionJoiner.maxMsgSize = some request ∧
      s.outgoing = d.outgoing ++ request
  handshake : ∃ replies j', Handshake (client.surroundings protocol network).joiner j taken replies j' ∧
    greetings.map Piece.payload = hello :: replies ∧
      Session.new ⟨session.transport, protocol.sessionDetails j'⟩ = some session
  read : deliveries network.codec s = taken ++ deliveries network.codec session.transport
  fair : ∀ x ∈ greetings, x.Fair network.codec
  whole : (∀ n, s.failure n = none) → ∀ x ∈ greetings, x.whole = true
  wire : session.transport.outgoing = s.outgoing ++ greetings.flatMap Piece.bytes

structure Conversed (codec : HeaderCodec) (ds : List (Option (List Byte))) (w : Linked P E)
    (pieces : List Piece) (part : List Byte) : Prop where
  messages : pieces.map Piece.payload = w.world.session.sent.map serializer.serialize
  fair : ∀ x ∈ pieces, x.Fair codec
  returned : pieces.map Piece.whole = w.returned
  wire : w.writers.outgoing = pieces.flatMap Piece.bytes ++ part
  free : w.writers.writeMutex = none → part = []
  inbox : ∃ written choices, exec World.step
    (World.start { surroundings with
      inbox := ds.map fun d => serializer.inbound (d.getD [])
      written := written }) choices = some (w.toWorld codec serializer written)

variable {protocol network client serializer surroundings}

theorem openTransport_opening {connected : Bool} {s : Socket} {uri : Str}
    (hopen : openTransport (client.surroundings protocol network) client.serializerType uri = .ok (connected, s))
    (hconnected : connected = true) : ∃ kind host port d request, network.dial kind host port = some d ∧
      network.handshake.send client.serializerType SessionJoiner.maxMsgSize = some request ∧
        s.outgoing = d.outgoing ++ request := by
  subst hconnected
  unfold openTransport at hopen
  cases hparser : parseUrl uri with
  | error e =>
    rw [hparser] at hopen
    cases hopen
  | ok parser =>
    cases hkind : createTransport parser with
    | error e =>
      simp only [hparser, hkind, bind, Except.bind] at hopen
      cases hopen
    | ok kind =>
      simp only [hparser, hkind, bind, Except.bind, pure, Except.pure, Except.ok.injEq] at hopen
      exact ⟨kind, parser.host, parser.port, connect_opening hopen⟩

theorem connect_base {connected : Bool} {s : Socket} {uri realm : Str} {hello : List Byte} {j : J}
    {run : Joined SessionDetails} {session : Session}
    (hopen : openTransport (client.surroundings protocol network) client.serializerType uri = .ok (connected, s))
    (hhello : protocol.sendHello (protocol.joinerNew (cStr realm)
      (protocol.serializerNew client.serializerType) client.authenticator.authenticator) = (hello, j))
    (hconnect : client.connect protocol network uri realm = .ok (run, .ok (some session))) :
    ∃ base, (joinLoop (client.surroundings protocol network) (s.write network.codec hello).2 j).2 = .ok base ∧
      Session.new base = some session := by
  have hjoin := SessionJoiner.join_eq hopen realm hhello
  simp only [Client.connect, hjoin, bind, Except.bind, pure, Except.pure, Except.ok.injEq,
    Prod.mk.injEq] at hconnect
  obtain ⟨-, hsession⟩ := hconnect
  change (joinLoop (client.surroundings protocol network) (s.write network.codec hello).2 j).2.map
    Session.new = .ok (some session) at hsession
  cases hresult : (joinLoop (client.surroundings protocol network) (s.write network.codec hello).2 j).2 with
  | error e =>
    rw [hresult] at hsession
    cases hsession
  | ok base =>
    rw [hresult] at hsession
    exact ⟨base, rfl, Except.ok.inj hsession⟩

theorem Session.new_transport {base : BaseSession SessionDetails} {session : Session}
    (h : Session.new base = some session) : session.transport = base.transport := by
  obtain ⟨details, -, rfl⟩ := Option.map_eq_some_iff.mp h
  rfl

def pieceOf (serializer : Serializer) (x : Sessions.Write) : Piece :=
  ⟨serializer.serialize x.message, x.whole, x.bytes⟩

section Connected

variable {uri realm : Str} {connected : Bool} {s : Socket} {hello : List Byte} {j : J}
  {run : Joined SessionDetails} {session : Session} {labels : List (LinkedChoice P E)} {w : Linked P E}

theorem greeted_of_connect
    (hopen : openTransport (client.surroundings protocol network) client.serializerType uri = .ok (connected, s))
    (hhello : protocol.sendHello (protocol.joinerNew (cStr realm)
      (protocol.serializerNew client.serializerType) client.authenticator.authenticator) = (hello, j))
    (hconnect : client.connect protocol network uri realm = .ok (run, .ok (some session))) :
    ∃ taken greetings, Greeted protocol network client connected s hello j session taken greetings := by
  obtain ⟨base, hbase, hsession⟩ := connect_base hopen hhello hconnect
  have htransport := Session.new_transport hsession
  obtain ⟨x, hx, rfl, hwire, hwhole⟩ := write_piece network.codec s hello
  obtain ⟨taken, replies, horder⟩ := joinLoop_in_order _ j hbase
  obtain ⟨j', hhandshake, hdetails⟩ := horder.handshake
  refine ⟨taken, x :: replies, ?_⟩
  constructor
  · exact openTransport_opening hopen
  · refine ⟨replies.map Piece.payload, j', hhandshake, rfl, ?_⟩
    rw [← hsession, htransport]
    exact congrArg (fun details => Session.new ⟨base.transport, details⟩) hdetails.symm
  · rw [htransport, ← deliveries_write s x.payload]
    exact horder.read
  · exact List.forall_mem_cons.mpr ⟨hx, horder.fair⟩
  · intro hs
    have hwritten : ∀ n, (s.write network.codec x.payload).2.failure n = none := by
      rw [write_with]
      exact hs
    exact List.forall_mem_cons.mpr ⟨hwhole hs, horder.whole hwritten⟩
  · calc session.transport.outgoing
        = (s.write network.codec x.payload).2.outgoing ++ replies.flatMap Piece.bytes := by
          rw [htransport]
          exact horder.wire
      _ = s.outgoing ++ (x :: replies).flatMap Piece.bytes := by
          rw [hwire, List.append_assoc, List.flatMap_cons]

theorem conversed_of_exec
    (hrun : exec (Linked.step network.codec serializer) (Linked.start surroundings s) labels = some w) :
    ∃ pieces part, Conversed serializer surroundings network.codec (deliveries network.codec s) w
      pieces part := by
  obtain ⟨writes, part, h⟩ := Sessions.linking_of_exec hrun
  obtain ⟨choices, hchoices⟩ := Sessions.toWorld_of_exec hrun (Sessions.agrees_returned w)
  refine ⟨writes.map (pieceOf serializer), part, ?_⟩
  constructor
  · rw [← h.sent, List.map_map, List.map_map]
    rfl
  · intro y hy
    obtain ⟨z, hz, rfl⟩ := List.mem_map.mp hy
    exact ⟨(h.fair z hz).initial, (h.fair z hz).whole⟩
  · rw [← h.returned, List.map_map]
    rfl
  · rw [h.wire, List.flatMap_map]
    rfl
  · exact h.free
  · exact ⟨fun n => w.returned.getD n true, choices, hchoices⟩

end Connected

/-- A client that has connected has sent the request of the transport, the HELLO and a reply to each frame
but the last that it has taken; then come the messages of its session, whose inbox are the other frames. -/
theorem client_speaks_in_order (protocol : Protocol A Z J) (network : Network) (client : Client A)
    (serializer : Serializer) (surroundings : Sessions.Surroundings P E) (uri realm : Str) (connected : Bool)
    (s : Socket) (hello : List Byte) (j : J) (run : Joined SessionDetails) (session : Session)
    (labels : List (LinkedChoice P E)) (w : Linked P E)
    (hopen : openTransport (client.surroundings protocol network) client.serializerType uri = .ok (connected, s))
    (hhello : protocol.sendHello (protocol.joinerNew (cStr realm)
      (protocol.serializerNew client.serializerType) client.authenticator.authenticator) = (hello, j))
    (hconnect : client.connect protocol network uri realm = .ok (run, .ok (some session)))
    (hrun : exec (Linked.step network.codec serializer) (Linked.start surroundings session.transport)
      labels = some w) :
    ∃ taken greetings pieces part,
      Greeted protocol network client connected s hello j session taken greetings ∧
        Conversed serializer surroundings network.codec ((deliveries network.codec s).drop taken.length) w
          pieces part := by
  obtain ⟨taken, greetings, hgreeted⟩ := greeted_of_connect hopen hhello hconnect
  obtain ⟨pieces, part, hconversed⟩ := conversed_of_exec hrun
  refine ⟨taken, greetings, pieces, part, hgreeted, ?_⟩
  rw [hgreeted.read, List.drop_left]
  exact hconversed

def ticketProtocol : Protocol Str Unit Str where
  anonymousAuthenticatorNew _ _ := []
  ticketAuthenticatorNew _ ticket _ := ticket
  cryptosignAuthenticatorNew _ _ _ := []
  wampcraAuthenticatorNew _ _ _ := []
  serializerNew _ := ()
  joinerNew _ _ ticket := ticket
  sendHello j := ([1], j)
  receive j bytes := (if bytes = [4] then j else [], j)
  sessionDetails _ := some ⟨7, ascii "realm1", ascii "john", ascii "user"⟩

def ticketNetwork : Network where
  codec := rawSocket
  handshake := SessionJoiner.rawHandshake
  dial _ _ _ := some (receiving
    [0x7F, 0xF3, 0, 0, 0, 0, 0, 1, 4, 0, 0, 0, 1, 2, 0, 0, 0, 4, 130, 24, 35, 1] Sessions.sampleSocket.atHand)

def ticketClient : Client Str :=
  ⟨ticketAuthenticator ticketProtocol (ascii "john") (ascii "42") [], .cbor⟩

abbrev ticketSurroundings : SessionJoiner.Surroundings Str SessionDetails :=
  ticketClient.surroundings ticketProtocol ticketNetwork

def opened : Socket where
  incoming := [0, 0, 0, 1, 4, 0, 0, 0, 1, 2, 0, 0, 0, 4, 130, 24, 35, 1]
  outgoing := [0x7F, 0xF3, 0, 0]
  atHand := Sessions.sampleSocket.atHand
  reads := 1
  failure _ := none
  writes := 1

def challenged : Socket :=
  { opened with
    incoming := [0, 0, 0, 1, 2, 0, 0, 0, 4, 130, 24, 35, 1]
    outgoing := [0x7F, 0xF3, 0, 0, 0, 0, 0, 1, 1]
    reads := 3
    writes := 3 }

def joined : Socket :=
  { opened with
    incoming := [0, 0, 0, 4, 130, 24, 35, 1]
    outgoing := [0x7F, 0xF3, 0, 0, 0, 0, 0, 1, 1, 0, 0, 0, 2, 52, 50]
    reads := 5
    writes := 5 }

theorem ticket_opens : openTransport ticketSurroundings .cbor (ascii "unix:///tmp/nxt.sock") =
    .ok (true, opened) := rfl

theorem ticket_joins : (joinLoop ticketSurroundings (opened.write ticketSurroundings.codec [1]).2 (ascii "42")).2 =
    .ok ⟨joined, some ⟨7, ascii "realm1", ascii "john", ascii "user"⟩⟩ := by
  have hchallenge : (opened.write ticketSurroundings.codec [1]).2.readFrame ticketSurroundings.codec =
      (.ok (some [4]), challenged) :=
    Sessions.readFrame_full (p := ⟨[4], by decide⟩) (by decide) (by decide) (by decide)
  have hwelcome : (challenged.write ticketSurroundings.codec (ascii "42")).2.readFrame ticketSurroundings.codec =
      (.ok (some [2]), joined) :=
    Sessions.readFrame_full (p := ⟨[2], by decide⟩) (by decide) (by decide) (by decide)
  have hreply : ticketSurroundings.joiner.receive (ascii "42") [4] = (ascii "42", ascii "42") := rfl
  have hdone : ticketSurroundings.joiner.receive (ascii "42") [2] = ([], ascii "42") := rfl
  rw [SessionJoiner.joinLoop_of_ok hchallenge hreply, if_neg (by decide)]
  dsimp only
  rw [SessionJoiner.joinLoop_of_ok hwelcome hdone, if_pos rfl]
  rfl

theorem client_speaks_in_order_ticket : ∃ run session, connectTicket ticketProtocol ticketNetwork
      (ascii "unix:///tmp/nxt.sock") (ascii "realm1") (ascii "john") (ascii "42") =
        .ok (run, .ok (some session)) ∧
    ∃ w : Linked Unit Unit, exec (Linked.step rawSocket Sessions.sampleSerializer)
        (Linked.start .quiet session.transport) Sessions.sampleLabels = some w ∧
      ∃ taken greetings pieces part,
        Greeted ticketProtocol ticketNetwork ticketClient true opened [1] (ascii "42") session taken greetings ∧
          Conversed Sessions.sampleSerializer .quiet rawSocket ((deliveries rawSocket opened).drop taken.length)
            w pieces part := by
  let session : Session := ⟨7, ascii "realm1", ascii "john", ascii "user", joined⟩
  have hjoin := SessionJoiner.join_eq ticket_opens (ascii "realm1")
    (show _ = (([1] : List Byte), ascii "42") from rfl)
  have hconnect : ∃ run, ticketClient.connect ticketProtocol ticketNetwork (ascii "unix:///tmp/nxt.sock")
      (ascii "realm1") = .ok (run, .ok (some session)) := by
    rw [ticket_joins] at hjoin
    simp only [Client.connect]
    rw [show ticketClient.serializerType = .cbor from rfl, hjoin]
    exact ⟨_, rfl⟩
  obtain ⟨run, hconnect⟩ := hconnect
  have hrun : ((exec (Linked.step rawSocket Sessions.sampleSerializer)
      (Linked.start .quiet session.transport : Linked Unit Unit) Sessions.sampleLabels).map
        fun w => w.returned) = some [true] := by
    decide +kernel
  obtain ⟨w, hw, -⟩ := Option.map_eq_some_iff.mp hrun
  exact ⟨run, session, hconnect, w, hw, client_speaks_in_order ticketProtocol ticketNetwork ticketClient
    Sessions.sampleSerializer .quiet (ascii "unix:///tmp/nxt.sock") (ascii "realm1") true opened [1]
    (ascii "42") run session _ w ticket_opens rfl hconnect hw⟩

end Conversations

end XconnCpp.Clients

import XconnCpp.Deliveries
import XconnCpp.UrlParser

namespace XconnCpp.SessionJoiner

open SocketTransport Socket Urls Values

inductive SerializerType
  | json
  | msgpack
  | cbor
  deriving DecidableEq

/-- The handshake of the protocol library: what is to be sent, if it can be encoded, and the serializer
that a response names, if it is one that accepts. -/
structure HandshakeCodec where
  send : SerializerType → ℕ → Option (List Byte)
  receive : List Byte → Option SerializerType

structure Joiner (J D : Type) where
  new : Str → J
  sendHello : J → List Byte × J
  receive : J → List Byte → List Byte × J
  sessionDetails : J → Option D

/-- `dial` gives the socket after `Transport::connect`, unless that throws. -/
structure Surroundings (J D : Type) where
  codec : HeaderCodec
  handshake : HandshakeCodec
  dial : TransportKind → Str → Str → Option Socket
  joiner : Joiner J D

structure BaseSession (D : Type) where
  transport : Socket
  sessionDetails : Option D

def maxMsgSize : ℕ := 2 ^ 24

def unconnected : Socket := { sending with failure := fun _ => some 0 }

variable {J D : Type}

section Code

variable (surroundings : Surroundings J D)

def connect (kind : TransportKind) (host port : Str) (serializerType : SerializerType) (maxMsgSize : ℕ) :
    Bool × Socket :=
  match surroundings.dial kind host port with
  | none => (false, unconnected)
  | some s =>
    match surroundings.handshake.send serializerType maxMsgSize with
    | none => (false, s)
    | some request =>
      match s.transportWrite request with
      | (.error _, s) => (false, s)
      | (.ok _, s) =>
        match s.recvExactly 4 with
        | (.error _, s) => (false, s)
        | (.ok none, s) => (false, s)
        | (.ok (some response), s) =>
          (surroundings.handshake.receive response = some serializerType, s)

def joinLoop (s : Socket) (j : J) : List Socket × Except SystemError (BaseSession D) :=
  -- `read_bytes` copies what `read` gives
  match _hread : s.read surroundings.codec with
  | (.error e, _) => ([], .error e)
  | (.ok bytes, t) =>
    let (toSend, j) := surroundings.joiner.receive j bytes
    if toSend = [] then ([s], .ok ⟨t, surroundings.joiner.sessionDetails j⟩)
    else
      let (received, result) := joinLoop (t.write surroundings.codec toSend).2 j
      (s :: received, result)
termination_by s.incoming.length
decreasing_by
  rw [write_incoming]
  exact read_incoming_lt _hread

/-- A run of `join` that has got a transport: whether it has connected, what the transport has taken of
the HELLO, the reads that have been passed on, and how it ends. -/
structure Joined (D : Type) where
  connected : Bool
  hello : List Byte
  received : List Socket
  result : Except SystemError (BaseSession D)

def openTransport (serializerType : SerializerType) (url : Str) : Except StdException (Bool × Socket) := do
  -- `SocketTransport::Create`, before `join` parses the URL once more and connects
  let kind ← parseUrl url >>= createTransport
  let parser ← parseUrl url
  return connect surroundings kind parser.host parser.port serializerType maxMsgSize

def join (serializerType : SerializerType) (url realm : Str) : Except StdException (Joined D) := do
  -- that the transport has not connected is of no consequence
  let (connected, s) ← openTransport surroundings serializerType url
  let (hello, j) := surroundings.joiner.sendHello (surroundings.joiner.new (cStr realm))
  let t := (s.write surroundings.codec hello).2
  let (received, result) := joinLoop surroundings t j
  return ⟨connected, t.outgoing.drop s.outgoing.length, received, result⟩

end Code

def settle (joiner : Joiner J D) : J → List (Option (List Byte)) → Option (List (Option (List Byte)) × J)
  | _, [] => none
  | j, d :: ds =>
    let (toSend, j) := joiner.receive j (d.getD [])
    if toSend = [] then some ([d], j)
    else (settle joiner j ds).map fun (taken, j) => (d :: taken, j)

def Settled (joiner : Joiner J D) (j : J) (ds : List (Option (List Byte))) : Prop :=
  ∀ taken j', settle joiner j ds = some (taken, j') →
    (∀ d ∈ taken, d.isSome = true) ∧ (joiner.sessionDetails j').isSome = true

section Loop

variable {surroundings : Surroundings J D} {s t : Socket} {j j' : J}

theorem joinLoop_of_error {e : SystemError} (h : s.readFrame surroundings.codec = (.error e, t)) :
    joinLoop surroundings s j = ([], .error e) := by
  have hread : s.read surroundings.codec = (.error e, t) := by rw [read_eq, h]
  rw [joinLoop]
  split
  · rename_i h'
    cases hread.symm.trans h'
    rfl
  · rename_i h'
    cases hread.symm.trans h'

theorem joinLoop_of_ok {d : Option (List Byte)} {toSend : List Byte}
    (h : s.readFrame surroundings.codec = (.ok d, t))
    (hanswer : surroundings.joiner.receive j (d.getD []) = (toSend, j')) :
    joinLoop surroundings s j =
      if toSend = [] then ([s], .ok ⟨t, surroundings.joiner.sessionDetails j'⟩)
      else
        (s :: (joinLoop surroundings (t.write surroundings.codec toSend).2 j').1,
          (joinLoop surroundings (t.write surroundings.codec toSend).2 j').2) := by
  have hread : s.read surroundings.codec = (.ok (d.getD []), t) := by rw [read_eq, h]
  rw [joinLoop]
  split
  · rename_i h'
    cases hread.symm.trans h'
  · rename_i h'
    cases hread.symm.trans h'
    simp only [hanswer]

theorem joinLoop_unsettled (s : Socket) (j : J)
    (h : settle surroundings.joiner j (deliveries surroundings.codec s) = none) :
    ∃ e, (joinLoop surroundings s j).2 = .error e := by
  rcases hread : s.readFrame surroundings.codec with ⟨e | d, t⟩
  · exact ⟨e, by rw [joinLoop_of_error hread]⟩
  · rcases hanswer : surroundings.joiner.receive j (d.getD []) with ⟨toSend, j'⟩
    rw [deliveries_of_ok hread, settle, hanswer] at h
    have hsend : toSend ≠ [] := by
      rintro rfl
      simp at h
    have hrest : settle surroundings.joiner j'
        (deliveries surroundings.codec (t.write surroundings.codec toSend).2) = none := by
      rw [deliveries_write]
      simpa [hsend] using h
    obtain ⟨e, he⟩ := joinLoop_unsettled _ j' hrest
    exact ⟨e, by rw [joinLoop_of_ok hread hanswer, if_neg hsend, he]⟩
termination_by s.incoming.length
decreasing_by
  rw [write_incoming]
  exact readFrame_incoming_lt hread

theorem joinLoop_settled (s : Socket) (j : J) {taken : List (Option (List Byte))}
    (h : settle surroundings.joiner j (deliveries surroundings.codec s) = some (taken, j')) :
    (∃ t, (joinLoop surroundings s j).2 = .ok ⟨t, surroundings.joiner.sessionDetails j'⟩) ∧
      ((∀ u ∈ (joinLoop surroundings s j).1, u.ReadsWhole surroundings.codec) ↔
        ∀ d ∈ taken, d.isSome = true) := by
  rcases hread : s.readFrame surroundings.codec with ⟨e | d, t⟩
  · simp [deliveries_of_error hread, settle] at h
  · have hwhole : s.ReadsWhole surroundings.codec ↔ d.isSome = true := by
      rw [Socket.ReadsWhole, hread, Option.isSome_iff_exists]
      simp
    rcases hanswer : surroundings.joiner.receive j (d.getD []) with ⟨toSend, k⟩
    rw [deliveries_of_ok hread, settle, hanswer] at h
    rw [joinLoop_of_ok hread hanswer]
    by_cases hsend : toSend = []
    · obtain ⟨rfl, rfl⟩ : [d] = taken ∧ k = j' := by simpa [hsend] using h
      simp [hsend, hwhole]
    · obtain ⟨rest, hrest, rfl⟩ : ∃ rest, settle surroundings.joiner k (deliveries surroundings.codec t) =
          some (rest, j') ∧ d :: rest = taken := by simpa [hsend] using h
      rw [← deliveries_write t toSend] at hrest
      obtain ⟨hresult, hreceived⟩ := joinLoop_settled _ k hrest
      rw [if_neg hsend]
      exact ⟨hresult, by simp only [List.forall_mem_cons, hwhole, hreceived]⟩
termination_by s.incoming.length
decreasing_by
  rw [write_incoming]
  exact readFrame_incoming_lt hread

end Loop

section Runs

variable {surroundings : Surroundings J D}

structure Joined.Proper (codec : HeaderCodec) (run : Joined D) : Prop where
  completed : ∀ session, run.result = .ok session → run.connected = true ∧
    (∀ s ∈ run.received, s.ReadsWhole codec) ∧ session.sessionDetails.isSome = true
  refused : run.connected = false → run.hello = []

def JoinFine (surroundings : Surroundings J D) (serializerType : SerializerType) (url realm : Str) : Prop :=
  ∀ connected s, openTransport surroundings serializerType url = .ok (connected, s) →
    let joiner := surroundings.joiner
    let j := (joiner.sendHello (joiner.new (cStr realm))).2
    let ds := deliveries surroundings.codec s
    if connected then Settled joiner j ds
    else s.failure s.writes = some 0 ∧ settle joiner j ds = none

theorem hello_eq_nil_iff (codec : HeaderCodec) (s : Socket) (hello : List Byte) :
    (s.write codec hello).2.outgoing.drop s.outgoing.length = [] ↔ s.failure s.writes = some 0 := by
  have hne : codec.send ⟨.wamp, hello.length⟩ ≠ [] := by
    intro h0
    have hlength := codec.send_length ⟨.wamp, hello.length⟩
    rw [h0] at hlength
    cases hlength
  cases hheader : s.failure s.writes with
  | some n => simp [write_of_header_failure codec hello hheader, hne]
  | none =>
    cases hpayload : s.failure (s.writes + 1) with
    | some n => simp [write_of_payload_failure codec hello hheader hpayload, hne]
    | none => simp [write_of_done codec hello hheader hpayload, frame, hne]

theorem join_eq {serializerType : SerializerType} {url : Str} {connected : Bool} {s : Socket}
    (hopen : openTransport surroundings serializerType url = .ok (connected, s)) (realm : Str)
    {hello : List Byte} {j : J}
    (hhello : surroundings.joiner.sendHello (surroundings.joiner.new (cStr realm)) = (hello, j)) :
    join surroundings serializerType url realm = .ok
      ⟨connected, (s.write surroundings.codec hello).2.outgoing.drop s.outgoing.length,
        (joinLoop surroundings (s.write surroundings.codec hello).2 j).1,
        (joinLoop surroundings (s.write surroundings.codec hello).2 j).2⟩ := by
  simp only [join, hopen, hhello]
  rfl

section Proper

variable {connected : Bool} {hello : List Byte} {t : Socket} {j : J}

abbrev ranLoop (surroundings : Surroundings J D) (connected : Bool) (hello : List Byte) (t : Socket)
    (j : J) : Joined D :=
  ⟨connected, hello, (joinLoop surroundings t j).1, (joinLoop surroundings t j).2⟩

theorem proper_unsettled_iff
    (h : settle surroundings.joiner j (deliveries surroundings.codec t) = none) :
    (ranLoop surroundings connected hello t j).Proper surroundings.codec ↔
      (connected = false → hello = []) := by
  obtain ⟨e, he⟩ := joinLoop_unsettled t j h
  constructor
  · exact fun h => h.refused
  · refine fun h => ⟨fun session hsession => ?_, h⟩
    cases he.symm.trans hsession

theorem proper_settled_iff {taken : List (Option (List Byte))} {j' : J}
    (h : settle surroundings.joiner j (deliveries surroundings.codec t) = some (taken, j')) :
    (ranLoop surroundings connected hello t j).Proper surroundings.codec ↔ connected = true ∧
      (∀ d ∈ taken, d.isSome = true) ∧ (surroundings.joiner.sessionDetails j').isSome = true := by
  obtain ⟨⟨u, hresult⟩, hreceived⟩ := joinLoop_settled t j h
  rw [← hreceived]
  constructor
  · exact fun h => h.completed _ hresult
  · rintro ⟨hconnected, hwhole, hdetails⟩
    refine ⟨fun session hsession => ?_, fun hfalse => ?_⟩
    · obtain rfl := Except.ok.inj (hresult.symm.trans hsession)
      exact ⟨hconnected, hwhole, hdetails⟩
    · exact Bool.noConfusion (hconnected.symm.trans hfalse)

theorem proper_iff : (ranLoop surroundings connected hello t j).Proper surroundings.codec ↔
    if connected then Settled surroundings.joiner j (deliveries surroundings.codec t)
    else hello = [] ∧ settle surroundings.joiner j (deliveries surroundings.codec t) = none := by
  cases hending : settle surroundings.joiner j (deliveries surroundings.codec t) with
  | none =>
    rw [proper_unsettled_iff hending]
    cases connected <;> simp [Settled, hending]
  | some ending =>
    obtain ⟨taken, j'⟩ := ending
    rw [proper_settled_iff hending]
    cases connected with
    | false => simp
    | true =>
      simp only [true_and, if_true, Settled, hending]
      constructor
      · rintro h _ _ he
        cases he
        exact h
      · exact fun h => h taken j' rfl

end Proper

/-- A failed handshake does not keep `join` from its HELLO and its loop, in which the joiner is given
nothing for a frame that is cut short, and the session is made whether or not it has details. -/
theorem joins_properly_iff (surroundings : Surroundings J D) (serializerType : SerializerType)
    (url realm : Str) :
    (∀ run, join surroundings serializerType url realm = .ok run → run.Proper surroundings.codec) ↔
      JoinFine surroundings serializerType url realm := by
  rcases hhello : surroundings.joiner.sendHello (surroundings.joiner.new (cStr realm)) with ⟨hello, j⟩
  cases hopen : openTransport surroundings serializerType url with
  | error e =>
    have hjoin : join surroundings serializerType url realm = .error e := by
      simp only [join, hopen]
      rfl
    simp [JoinFine, hjoin, hopen]
  | ok opened =>
    obtain ⟨connected, s⟩ := opened
    have hrun := join_eq hopen realm hhello
    have hfine : JoinFine surroundings serializerType url realm ↔
        if connected then Settled surroundings.joiner j (deliveries surroundings.codec s)
        else
          s.failure s.writes = some 0 ∧
            settle surroundings.joiner j (deliveries surroundings.codec s) = none := by
      simp only [JoinFine, hopen, hhello, Except.ok.injEq, Prod.mk.injEq]
      constructor
      · exact fun h => h connected s ⟨rfl, rfl⟩
      · rintro h _ _ ⟨rfl, rfl⟩
        exact h
    rw [hfine, hrun, ← hello_eq_nil_iff surroundings.codec s hello,
      ← @deliveries_write surroundings.codec s hello, ← proper_iff]
    constructor
    · exact fun h => h _ rfl
    · rintro h _ he
      cases he
      exact h

def SerializerType.code : SerializerType → UInt8
  | .json => 1
  | .msgpack => 2
  | .cbor => 3

def rawHandshake : HandshakeCodec where
  send serializerType _ := some [0x7F, 0xF0 + serializerType.code, 0, 0]
  receive
    | [magic, b, _, _] =>
      if magic = 0x7F then [.json, .msgpack, .cbor].find? fun serializerType => b % 16 = serializerType.code
      else none
    | _ => none

def peer (bytes : List Byte) : Surroundings Unit Unit where
  codec := rawSocket
  handshake := rawHandshake
  dial _ _ _ := some (receiving bytes fun _ => 4)
  joiner := ⟨fun _ => (), fun _ => ([1], ()), fun _ _ => ([], ()), fun _ => none⟩

theorem not_proper_refused :
    (¬ ∀ run, join (peer [0x7F, 0x10, 0, 0]) .json (ascii "tcp://localhost:8080/ws") (ascii "realm1") =
        .ok run → run.Proper rawSocket) ∧
      ¬ ∀ run, join (peer [0x7F, 0xF1, 0, 0, 0, 0]) .json (ascii "tcp://localhost:8080/ws") (ascii "realm1") =
        .ok run → run.Proper rawSocket := by
  constructor
  · intro h
    have hopen : openTransport (peer [0x7F, 0x10, 0, 0]) .json (ascii "tcp://localhost:8080/ws") =
      .ok (false, _) := rfl
    have hproper := h _ (join_eq hopen (ascii "realm1") rfl)
    cases hproper.refused rfl
  · intro h
    have hopen : openTransport (peer [0x7F, 0xF1, 0, 0, 0, 0]) .json (ascii "tcp://localhost:8080/ws") =
      .ok (true, _) := rfl
    have hproper := h _ (join_eq hopen (ascii "realm1") rfl)
    rw [joinLoop_of_ok rfl (show _ = (([] : List Byte), ()) from rfl)] at hproper
    have hdetails := (hproper.completed _ rfl).2.2
    cases hdetails

end Runs

end XconnCpp.SessionJoiner

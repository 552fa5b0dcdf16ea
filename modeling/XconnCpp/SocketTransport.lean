import Mathlib.Data.PNat.Basic
import Mathlib.Data.List.Basic

namespace XconnCpp.SocketTransport

abbrev Byte := UInt8

inductive FrameType
  | wamp
  | ping
  | pong
  deriving DecidableEq

structure MessageHeader where
  type : FrameType
  length : ℕ
  deriving DecidableEq

/-- `message_header_new`, `send_message_header` and `receive_message_header` of the protocol library. -/
structure HeaderCodec where
  new : FrameType → ℕ → Option MessageHeader
  send : MessageHeader → List Byte
  receive : List Byte → Option MessageHeader
  new_eq : ∀ type length, new type length = some ⟨type, length⟩
  send_length : ∀ h, (send h).length = 4
  receive_send : ∀ h, h.length < 2 ^ 24 → receive (send h) = some h

inductive SystemError
  | eof
  | write
  deriving DecidableEq

/-- A connected socket, with the choices that the network makes: how many bytes the `n`-th
`read_some` finds at hand, and after how many bytes the `n`-th write fails, if it does. -/
structure Socket where
  incoming : List Byte
  outgoing : List Byte
  atHand : ℕ → ℕ+
  reads : ℕ
  failure : ℕ → Option ℕ
  writes : ℕ

namespace Socket

def receiving (incoming : List Byte) (atHand : ℕ → ℕ+) : Socket :=
  ⟨incoming, [], atHand, 0, fun _ => none, 0⟩

def sending : Socket := receiving [] fun _ => 1

/-- `TcpTransport::read` and `UnixTransport::read`: one `read_some`, an error being thrown. -/
def transportRead (s : Socket) (length : ℕ) : Except SystemError (List Byte) × Socket :=
  if length = 0 then (.ok [], { s with reads := s.reads + 1 })
  else if s.incoming = [] then (.error .eof, { s with reads := s.reads + 1 })
  else
    let n := min (s.atHand s.reads : ℕ) length
    (.ok (s.incoming.take n), { s with incoming := s.incoming.drop n, reads := s.reads + 1 })

/-- `TcpTransport::write` and `UnixTransport::write`: `asio::write`, an error being thrown. -/
def transportWrite (s : Socket) (data : List Byte) : Except SystemError ℕ × Socket :=
  match s.failure s.writes with
  | none => (.ok data.length, { s with outgoing := s.outgoing ++ data, writes := s.writes + 1 })
  | some n =>
    (.error .write, { s with outgoing := s.outgoing ++ data.take n, writes := s.writes + 1 })

def recvExactly (s : Socket) (n : ℕ) : Except SystemError (Option (List Byte)) × Socket :=
  match s.transportRead n with
  | (.error e, s) => (.error e, s)
  | (.ok buffer, s) => (.ok (if buffer.length ≠ n then none else some buffer), s)

variable (codec : HeaderCodec)

def read (s : Socket) : Except SystemError (List Byte) × Socket :=
  match s.recvExactly 4 with
  | (.error e, s) => (.error e, s)
  | (.ok none, s) => (.ok [], s)
  | (.ok (some headerBytes), s) =>
    match codec.receive headerBytes with
    | none => (.ok [], s)
    | some header =>
      match s.recvExactly header.length with
      | (.error e, s) => (.error e, s)
      | (.ok none, s) => (.ok [], s)
      | (.ok (some payload), s) => (.ok payload, s)

def write (s : Socket) (bytes : List Byte) : Bool × Socket :=
  match codec.new .wamp bytes.length with
  | none => (false, s)
  | some header =>
    match s.transportWrite (codec.send header) with
    | (.error _, s) => (false, s)
    | (.ok _, s) =>
      match s.transportWrite bytes with
      | (.error _, s) => (false, s)
      | (.ok _, s) => (true, s)

def readMany : ℕ → Socket → Except SystemError (List (List Byte)) × Socket
  | 0, s => (.ok [], s)
  | n + 1, s =>
    match s.read codec with
    | (.error e, s) => (.error e, s)
    | (.ok p, s) =>
      match readMany n s with
      | (.error e, s) => (.error e, s)
      | (.ok ps, s) => (.ok (p :: ps), s)

def writeMany (s : Socket) (payloads : List (List Byte)) : Socket :=
  payloads.foldl (fun s p => (s.write codec p).2) s

end Socket

open Socket

def frame (codec : HeaderCodec) (payload : List Byte) : List Byte :=
  codec.send ⟨.wamp, payload.length⟩ ++ payload

variable (codec : HeaderCodec)

section Write

variable {s : Socket} (payload : List Byte)

theorem write_of_header_failure {n : ℕ} (hheader : s.failure s.writes = some n) :
    s.write codec payload = (false, { s with
      outgoing := s.outgoing ++ (codec.send ⟨.wamp, payload.length⟩).take n
      writes := s.writes + 1 }) := by
  simp [Socket.write, codec.new_eq, transportWrite, hheader]

theorem write_of_payload_failure {n : ℕ} (hheader : s.failure s.writes = none)
    (hpayload : s.failure (s.writes + 1) = some n) :
    s.write codec payload = (false, { s with
      outgoing := s.outgoing ++ (codec.send ⟨.wamp, payload.length⟩ ++ payload.take n)
      writes := s.writes + 2 }) := by
  simp [Socket.write, codec.new_eq, transportWrite, hheader, hpayload]

theorem write_of_done (hheader : s.failure s.writes = none) (hpayload : s.failure (s.writes + 1) = none) :
    s.write codec payload = (true,
      { s with outgoing := s.outgoing ++ frame codec payload, writes := s.writes + 2 }) := by
  simp [Socket.write, codec.new_eq, transportWrite, hheader, hpayload, frame]

end Write

theorem write_of_no_failure {s : Socket} (hs : ∀ n, s.failure n = none) (payload : List Byte) :
    s.write codec payload = (true,
      { s with outgoing := s.outgoing ++ frame codec payload, writes := s.writes + 2 }) :=
  write_of_done codec payload (hs _) (hs _)

theorem writeMany_outgoing {s : Socket} (hs : ∀ n, s.failure n = none) (payloads : List (List Byte)) :
    (s.writeMany codec payloads).outgoing =
      s.outgoing ++ (payloads.map (frame codec)).flatten := by
  induction payloads generalizing s with
  | nil => simp [writeMany]
  | cons p payloads ih =>
    calc (s.writeMany codec (p :: payloads)).outgoing
        = ((s.write codec p).2.writeMany codec payloads).outgoing := rfl
      _ = (s.write codec p).2.outgoing ++ (payloads.map (frame codec)).flatten :=
          ih (by simp [write_of_no_failure codec hs, hs])
      _ = s.outgoing ++ ((p :: payloads).map (frame codec)).flatten := by
          simp [write_of_no_failure codec hs]

end XconnCpp.SocketTransport

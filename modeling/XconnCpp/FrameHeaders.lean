import XconnCpp.Framing

namespace XconnCpp.SocketTransport

open Socket

variable (codec : HeaderCodec)

section Emitted

def parse (bytes : List Byte) : Option (List (List Byte)) :=
  if bytes = [] then some []
  else
    match codec.receive (bytes.take 4) with
    | none => none
    | some header =>
      if bytes.length < 4 + header.length then none
      else
        (parse (bytes.drop (4 + header.length))).map (((bytes.drop 4).take header.length) :: ·)
termination_by bytes.length
decreasing_by
  have := List.length_pos_iff.mpr ‹bytes ≠ []›
  simp only [List.length_drop]
  omega

def accepted : Socket → List (List Byte) → List (List Byte)
  | _, [] => []
  | s, p :: payloads =>
    match s.write codec p with
    | (true, s) => p :: accepted s payloads
    | (false, s) => accepted s payloads

structure EmitsDecodable (payloads : List (List Byte)) : Prop where
  recovered : parse codec (sending.writeMany codec payloads).outgoing =
    some (accepted codec sending payloads)
  refused : ∀ pre p post, payloads = pre ++ p :: post → 2 ^ 24 ≤ p.length →
    ((sending.writeMany codec pre).write codec p).1 = false ∧
      ((sending.writeMany codec pre).write codec p).2.outgoing = (sending.writeMany codec pre).outgoing

variable {codec}

theorem parse_header_iff {header bytes p : List Byte} {ps : List (List Byte)} {h : MessageHeader}
    (hlength : header.length = 4) (hheader : codec.receive header = some h) :
    parse codec (header ++ bytes) = some (p :: ps) ↔
      ∃ rest, bytes = p ++ rest ∧ p.length = h.length ∧ parse codec rest = some ps := by
  have hne : header ++ bytes ≠ [] := by
    rintro h0
    simp [(List.append_eq_nil_iff.mp h0).1] at hlength
  have htake : (header ++ bytes).take 4 = header := by simp [← hlength]
  have hdrop : (header ++ bytes).drop 4 = bytes := by simp [← hlength]
  have hrest : (header ++ bytes).drop (4 + h.length) = bytes.drop h.length := by
    rw [← List.drop_drop, hdrop]
  have hlen : (header ++ bytes).length = 4 + bytes.length := by simp [hlength]
  rw [parse, if_neg hne, htake, hheader]
  simp only [hdrop, hrest, hlen]
  constructor
  · intro he
    split at he
    · cases he
    · obtain ⟨qs, hqs, hcons⟩ := Option.map_eq_some_iff.mp he
      obtain ⟨rfl, rfl⟩ := List.cons.inj hcons
      refine ⟨bytes.drop h.length, (List.take_append_drop _ _).symm, ?_, hqs⟩
      rw [List.length_take]
      omega
  · rintro ⟨rest, rfl, hp, hps⟩
    rw [if_neg (by simp only [List.length_append]; omega), ← hp]
    simp [hps]

theorem receive_send_mod (hmod : ∀ h, codec.send h = codec.send ⟨h.type, h.length % 2 ^ 24⟩)
    (type : FrameType) (n : ℕ) : codec.receive (codec.send ⟨type, n⟩) = some ⟨type, n % 2 ^ 24⟩ := by
  rw [hmod ⟨type, n⟩]
  exact codec.receive_send _ (Nat.mod_lt n (by decide))

theorem parse_frame_iff (hmod : ∀ h, codec.send h = codec.send ⟨h.type, h.length % 2 ^ 24⟩)
    {p rest : List Byte} {ps : List (List Byte)} :
    parse codec (frame codec p ++ rest) = some (p :: ps) ↔
      p.length < 2 ^ 24 ∧ parse codec rest = some ps := by
  rw [frame, List.append_assoc,
    parse_header_iff (codec.send_length _) (receive_send_mod hmod .wamp p.length)]
  constructor
  · rintro ⟨rest', hrest, hlt, hps⟩
    refine ⟨?_, List.append_cancel_left hrest ▸ hps⟩
    rw [hlt]
    exact Nat.mod_lt _ (by decide)
  · rintro ⟨hlt, hps⟩
    exact ⟨rest, rfl, (Nat.mod_eq_of_lt hlt).symm, hps⟩

theorem parse_frames_iff (hmod : ∀ h, codec.send h = codec.send ⟨h.type, h.length % 2 ^ 24⟩)
    (payloads : List (List Byte)) :
    parse codec (payloads.map (frame codec)).flatten = some payloads ↔ ∀ p ∈ payloads, p.length < 2 ^ 24 := by
  induction payloads with
  | nil => simp [parse]
  | cons p payloads ih =>
    rw [List.map_cons, List.flatten_cons, parse_frame_iff hmod, ih, List.forall_mem_cons]

theorem accepted_of_no_failure {s : Socket} (hs : ∀ n, s.failure n = none) (payloads : List (List Byte)) :
    accepted codec s payloads = payloads := by
  induction payloads generalizing s with
  | nil => rfl
  | cons p payloads ih =>
    rw [accepted, write_of_no_failure codec hs]
    exact congrArg (p :: ·) (ih hs)

theorem recovered_iff (hmod : ∀ h, codec.send h = codec.send ⟨h.type, h.length % 2 ^ 24⟩)
    (payloads : List (List Byte)) :
    parse codec (sending.writeMany codec payloads).outgoing = some (accepted codec sending payloads) ↔
      ∀ p ∈ payloads, p.length < 2 ^ 24 := by
  have hfailure : ∀ n, sending.failure n = none := fun _ => rfl
  rw [writeMany_outgoing codec hfailure, accepted_of_no_failure hfailure]
  exact parse_frames_iff hmod payloads

/-- `write` refuses nothing, so that the peer loses its place at the first byte string whose length
does not fit the header. -/
theorem emitsDecodable_iff (hmod : ∀ h, codec.send h = codec.send ⟨h.type, h.length % 2 ^ 24⟩)
    (payloads : List (List Byte)) :
    EmitsDecodable codec payloads ↔ ∀ p ∈ payloads, p.length < 2 ^ 24 := by
  constructor
  · exact fun h => (recovered_iff hmod payloads).mp h.recovered
  · intro h
    refine ⟨(recovered_iff hmod payloads).mpr h, ?_⟩
    rintro pre p post rfl hp
    exact absurd (h p (by simp)) (not_lt.mpr hp)

theorem rawSocket_send_mod (h : MessageHeader) :
    rawSocket.send h = rawSocket.send ⟨h.type, h.length % 2 ^ 24⟩ := by
  have hbyte {m n : ℕ} (hmn : m % 2 ^ 8 = n % 2 ^ 8) : UInt8.ofNat m = UInt8.ofNat n :=
    UInt8.toNat_inj.mp hmn
  simp only [rawSocket, List.map_cons, List.map_nil, List.cons.injEq, true_and, and_true]
  exact ⟨hbyte (by omega), hbyte (by omega), hbyte (by omega)⟩

theorem emitsDecodable_pair : EmitsDecodable rawSocket [[1, 2, 3], []] :=
  (emitsDecodable_iff rawSocket_send_mod [[1, 2, 3], []]).mpr (by simp)

theorem not_emitsDecodable_oversized : ¬ EmitsDecodable rawSocket [List.replicate (2 ^ 24) 0] := by
  intro h
  have hrefused := (h.refused [] (List.replicate (2 ^ 24) 0) [] rfl List.length_replicate.ge).1
  have hsending : ∀ n, sending.failure n = none := fun _ => rfl
  have hwritten := congrArg Prod.fst
    (write_of_no_failure rawSocket hsending (List.replicate (2 ^ 24) 0))
  exact Bool.noConfusion (hrefused.symm.trans hwritten)

end Emitted

section Received

structure Frame where
  type : FrameType
  payload : Payload

variable {μ : Type}

structure Receiver where
  socket : Socket
  deserialized : List (List Byte)

def stream (frames : List Frame) : List Byte :=
  frames.flatMap fun f => codec.send ⟨f.type, f.payload.1.length⟩ ++ f.payload.1

def receive (s : Socket) : Except SystemError (List Byte) × Socket :=
  -- `BaseSession::receive` copies what `read` gives
  s.read codec

def receiveMessage (deserialize : List Byte → Option μ) (r : Receiver) :
    Except SystemError (Option μ) × Receiver :=
  match receive codec r.socket with
  | (.error e, s) => (.error e, { r with socket := s })
  | (.ok bytes, s) => (.ok (deserialize bytes), ⟨s, r.deserialized ++ [bytes]⟩)

def receiveMessages (deserialize : List Byte → Option μ) : ℕ → Receiver → Receiver
  | 0, r => r
  | n + 1, r => receiveMessages deserialize n (receiveMessage codec deserialize r).2

def wampPayloads (frames : List Frame) : List (List Byte) :=
  (frames.filter (·.type = .wamp)).map (·.payload.1)

def OnlyWamp (deserialize : List Byte → Option μ) (frames : List Frame) (atHand : ℕ → ℕ+) : Prop :=
  ∀ n,
    let given := (receiveMessages codec deserialize n
      ⟨receiving (stream codec frames) atHand, []⟩).deserialized
    given <+: wampPayloads frames ∧ (frames.length ≤ n → given = wampPayloads frames)

variable {codec}

theorem receiveMessages_closed (deserialize : List Byte → Option μ) (n : ℕ) {r : Receiver}
    (hr : r.socket.incoming = []) :
    (receiveMessages codec deserialize n r).deserialized = r.deserialized := by
  induction n generalizing r with
  | zero => rfl
  | succ n ih =>
    have heof : receiveMessage codec deserialize r =
        (.error .eof, { r with socket := { r.socket with reads := r.socket.reads + 1 } }) := by
      simp [receiveMessage, receive, Socket.read, recvExactly, transportRead, hr]
    rw [receiveMessages, heof]
    exact ih hr

theorem receiveMessages_stream (deserialize : List Byte → Option μ) (frames : List Frame) (n : ℕ)
    {r : Receiver} (hr : r.socket.incoming = stream codec frames)
    (hwhole : NoShortRead (frames.map (·.payload)) r.socket) :
    (receiveMessages codec deserialize n r).deserialized =
      r.deserialized ++ (frames.take n).map (·.payload.1) := by
  induction frames generalizing n r with
  | nil => simpa using receiveMessages_closed deserialize n hr
  | cons f frames ih =>
    cases n with
    | zero => simp [receiveMessages]
    | succ n =>
      rw [List.map_cons, noShortRead_cons_iff (stream codec frames)] at hwhole
      obtain ⟨⟨hh, hp⟩, hwhole⟩ := hwhole
      have hstream : r.socket.incoming =
          codec.send ⟨f.type, f.payload.1.length⟩ ++ f.payload.1 ++ stream codec frames := hr
      have hread := read_of_header hstream hh hp
      have hcall : (receiveMessage codec deserialize r).2 =
          ⟨{ r.socket with incoming := stream codec frames, reads := r.socket.reads + 2 },
            r.deserialized ++ [f.payload.1]⟩ := by
        rw [receiveMessage, receive, hread]
      rw [receiveMessages, hcall, ih n rfl hwhole]
      simp

theorem payloads_eq_wampPayloads_iff (frames : List Frame) :
    frames.map (·.payload.1) = wampPayloads frames ↔ ∀ f ∈ frames, f.type = .wamp := by
  constructor
  · intro h
    have hlength := congrArg List.length h
    rw [wampPayloads, List.length_map, List.length_map] at hlength
    simpa using List.length_filter_eq_length_iff.mp hlength.symm
  · intro h
    rw [wampPayloads, List.filter_eq_self.mpr (by simpa using h)]

/-- `read` decodes the type of a frame and drops it. -/
theorem onlyWamp_iff (deserialize : List Byte → Option μ) (frames : List Frame) (atHand : ℕ → ℕ+)
    (hwhole : NoShortRead (frames.map (·.payload)) (receiving (stream codec frames) atHand)) :
    OnlyWamp codec deserialize frames atHand ↔ ∀ f ∈ frames, f.type = .wamp := by
  have hgiven (n : ℕ) := receiveMessages_stream deserialize frames n
    (r := ⟨receiving (stream codec frames) atHand, []⟩) rfl hwhole
  simp only [List.nil_append] at hgiven
  rw [← payloads_eq_wampPayloads_iff]
  constructor
  · intro h
    have hall := (h frames.length).2 le_rfl
    rwa [hgiven, List.take_length] at hall
  · intro h n
    simp only [hgiven]
    rw [← h]
    refine ⟨List.IsPrefix.map _ (List.take_prefix n frames), fun hn => ?_⟩
    rw [List.take_of_length_le hn]

theorem onlyWamp_two :
    OnlyWamp rawSocket some [⟨.wamp, ⟨[1], by decide⟩⟩, ⟨.wamp, ⟨[], by decide⟩⟩] fun _ => 4 := by
  refine (onlyWamp_iff some _ _ ?_).mpr (by simp)
  rintro (_ | _ | i) hi
  · simp [receiving]
  · simp [receiving]
  · exact absurd hi (by simp)

theorem not_onlyWamp_ping : ¬ OnlyWamp rawSocket some [⟨.ping, ⟨[1], by decide⟩⟩] fun _ => 4 := by
  intro h
  have hgiven : (receiveMessages rawSocket some 1
      ⟨receiving (stream rawSocket [⟨.ping, ⟨[1], by decide⟩⟩]) fun _ => 4, []⟩).deserialized = [[1]] :=
    rfl
  have hone := (h 1).2 le_rfl
  rw [hgiven] at hone
  exact absurd hone (by decide)

end Received

end XconnCpp.SocketTransport

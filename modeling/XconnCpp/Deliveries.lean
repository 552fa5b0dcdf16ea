import XconnCpp.Framing

namespace XconnCpp.SocketTransport

open Socket

variable (codec : HeaderCodec)

/-- A read that tells apart an empty frame and one that has not come whole. -/
def Socket.readFrame (s : Socket) : Except SystemError (Option (List Byte)) × Socket :=
  match s.recvExactly 4 with
  | (.error e, s) => (.error e, s)
  | (.ok none, s) => (.ok none, s)
  | (.ok (some headerBytes), s) =>
    match codec.receive headerBytes with
    | none => (.ok none, s)
    | some header => s.recvExactly header.length

def Socket.ReadsWhole (s : Socket) : Prop := ∃ payload, (s.readFrame codec).1 = .ok (some payload)

variable {codec} {s t : Socket}

theorem read_eq (s : Socket) : s.read codec =
    match s.readFrame codec with
    | (.error e, t) => (.error e, t)
    | (.ok d, t) => (.ok (d.getD []), t) := by
  rcases hheader : s.recvExactly 4 with ⟨e | _ | headerBytes, u⟩
  · simp [Socket.read, Socket.readFrame, hheader]
  · simp [Socket.read, Socket.readFrame, hheader]
  · cases hdecode : codec.receive headerBytes with
    | none => simp [Socket.read, Socket.readFrame, hheader, hdecode]
    | some header =>
      rcases hpayload : u.recvExactly header.length with ⟨e | _ | payload, v⟩
      all_goals simp [Socket.read, Socket.readFrame, hheader, hdecode, hpayload]

theorem recvExactly_incoming_le (n : ℕ) : (s.recvExactly n).2.incoming.length ≤ s.incoming.length := by
  simp only [recvExactly, transportRead]
  split_ifs <;> simp

theorem recvExactly_incoming_lt {n : ℕ} {d : Option (List Byte)} (hn : n ≠ 0)
    (h : s.recvExactly n = (.ok d, t)) : t.incoming.length < s.incoming.length := by
  by_cases hs : s.incoming = []
  · simp [recvExactly, transportRead, hn, hs] at h
  · simp only [recvExactly, transportRead, hn, hs, if_false] at h
    cases h
    have hpos := List.length_pos_iff.mpr hs
    have hhand := (s.atHand s.reads).pos
    simp only [List.length_drop]
    omega

theorem readFrame_incoming_lt {d : Option (List Byte)} (h : s.readFrame codec = (.ok d, t)) :
    t.incoming.length < s.incoming.length := by
  rcases hheader : s.recvExactly 4 with ⟨e | _ | headerBytes, u⟩
  · simp [Socket.readFrame, hheader] at h
  · simp only [Socket.readFrame, hheader] at h
    cases h
    exact recvExactly_incoming_lt (by decide) hheader
  · have hlt := recvExactly_incoming_lt (by decide) hheader
    simp only [Socket.readFrame, hheader] at h
    cases hdecode : codec.receive headerBytes with
    | none =>
      rw [hdecode] at h
      cases h
      exact hlt
    | some header =>
      rw [hdecode] at h
      have hle := recvExactly_incoming_le (s := u) header.length
      simp only [h] at hle
      exact hle.trans_lt hlt

theorem read_incoming_lt {bytes : List Byte} (h : s.read codec = (.ok bytes, t)) :
    t.incoming.length < s.incoming.length := by
  rw [read_eq] at h
  split at h
  · cases h
  · rename_i hread
    cases h
    exact readFrame_incoming_lt hread

theorem recvExactly_with (s : Socket) (n : ℕ) (outgoing : List Byte) (writes : ℕ) :
    { s with outgoing := outgoing, writes := writes }.recvExactly n =
      ((s.recvExactly n).1, { (s.recvExactly n).2 with outgoing := outgoing, writes := writes }) := by
  simp only [recvExactly, transportRead]
  split_ifs <;> simp

theorem readFrame_with (s : Socket) (outgoing : List Byte) (writes : ℕ) :
    { s with outgoing := outgoing, writes := writes }.readFrame codec =
      ((s.readFrame codec).1, { (s.readFrame codec).2 with outgoing := outgoing, writes := writes }) := by
  simp only [Socket.readFrame, recvExactly_with]
  rcases hheader : s.recvExactly 4 with ⟨e | _ | headerBytes, u⟩
  · rfl
  · rfl
  · cases hdecode : codec.receive headerBytes with
    | none => simp [hdecode]
    | some header => simp [hdecode, recvExactly_with]

theorem write_with (s : Socket) (bytes : List Byte) : (s.write codec bytes).2 =
    { s with outgoing := (s.write codec bytes).2.outgoing, writes := (s.write codec bytes).2.writes } := by
  cases hheader : s.failure s.writes with
  | some n => rw [write_of_header_failure codec bytes hheader]
  | none =>
    cases hpayload : s.failure (s.writes + 1) with
    | some n => rw [write_of_payload_failure codec bytes hheader hpayload]
    | none => rw [write_of_done codec bytes hheader hpayload]

theorem write_incoming (s : Socket) (bytes : List Byte) :
    (s.write codec bytes).2.incoming = s.incoming := by
  rw [write_with]

variable (codec) in
def deliveries (s : Socket) : List (Option (List Byte)) :=
  match _hread : s.readFrame codec with
  | (.error _, _) => []
  | (.ok d, t) => d :: deliveries t
termination_by s.incoming.length
decreasing_by exact readFrame_incoming_lt _hread

theorem deliveries_of_error {e : SystemError} (h : s.readFrame codec = (.error e, t)) :
    deliveries codec s = [] := by
  rw [deliveries]
  split
  · rfl
  · rename_i h'
    cases h.symm.trans h'

theorem deliveries_of_ok {d : Option (List Byte)} (h : s.readFrame codec = (.ok d, t)) :
    deliveries codec s = d :: deliveries codec t := by
  rw [deliveries]
  split
  · rename_i h'
    cases h.symm.trans h'
  · rename_i h'
    cases h.symm.trans h'
    rfl

theorem deliveries_with (s : Socket) (outgoing : List Byte) (writes : ℕ) :
    deliveries codec { s with outgoing := outgoing, writes := writes } = deliveries codec s := by
  have hread := @readFrame_with codec s outgoing writes
  rcases h : s.readFrame codec with ⟨e | d, t⟩
  · rw [h] at hread
    rw [deliveries_of_error h, deliveries_of_error hread]
  · rw [h] at hread
    rw [deliveries_of_ok h, deliveries_of_ok hread, deliveries_with t]
termination_by s.incoming.length
decreasing_by exact readFrame_incoming_lt h

theorem deliveries_write (s : Socket) (bytes : List Byte) :
    deliveries codec (s.write codec bytes).2 = deliveries codec s := by
  rw [write_with, deliveries_with]

end XconnCpp.SocketTransport

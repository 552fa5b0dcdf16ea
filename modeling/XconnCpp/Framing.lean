import XconnCpp.SocketTransport
import Mathlib.Tactic.Ring

namespace XconnCpp.SocketTransport

open Socket

abbrev Payload := {p : List Byte // p.length < 2 ^ 24}

variable (codec : HeaderCodec)

def wire (payloads : List Payload) : List Byte :=
  (Socket.sending.writeMany codec (payloads.map Subtype.val)).outgoing

def Delivers (payloads : List Payload) (s : Socket) : Prop :=
  ∀ i ≤ payloads.length,
    (s.readMany codec i).1 = .ok ((payloads.take i).map Subtype.val) ∧
      (s.readMany codec i).2.incoming = wire codec (payloads.drop i)

def NoShortRead (payloads : List Payload) (s : Socket) : Prop :=
  ∀ i (hi : i < payloads.length),
    4 ≤ (s.atHand (s.reads + 2 * i) : ℕ) ∧
      (payloads[i]).1.length ≤ (s.atHand (s.reads + 2 * i + 1) : ℕ)

theorem wire_cons (p : Payload) (payloads : List Payload) :
    wire codec (p :: payloads) = frame codec p.1 ++ wire codec payloads := by
  simp [wire, writeMany_outgoing, Socket.sending, Socket.receiving]

section Step

variable {codec} {s : Socket} {p : Payload} {rest : List Byte}

theorem transportRead_full {n : ℕ} {bytes : List Byte} (hs : s.incoming = bytes ++ rest)
    (hn : bytes.length = n) (hh : n ≤ (s.atHand s.reads : ℕ)) :
    s.transportRead n = (.ok bytes, { s with incoming := rest, reads := s.reads + 1 }) := by
  subst hn
  by_cases hb : bytes = []
  · subst hb
    cases s
    simp_all [transportRead]
  · simp [transportRead, hb, hs, Nat.min_eq_right hh]

theorem recvExactly_full {n : ℕ} {bytes : List Byte} (hs : s.incoming = bytes ++ rest)
    (hn : bytes.length = n) (hh : n ≤ (s.atHand s.reads : ℕ)) :
    s.recvExactly n = (.ok (some bytes), { s with incoming := rest, reads := s.reads + 1 }) := by
  simp [recvExactly, transportRead_full hs hn hh, hn]

theorem recvExactly_short {n : ℕ} {bytes : List Byte} (hs : s.incoming = bytes ++ rest)
    (hn : bytes.length = n) (hh : (s.atHand s.reads : ℕ) < n) :
    s.recvExactly n = (.ok none,
      { s with incoming := s.incoming.drop (s.atHand s.reads), reads := s.reads + 1 }) := by
  have hne : s.incoming ≠ [] := by
    rintro h0
    have := congrArg List.length (h0.symm.trans hs)
    simp only [List.length_nil, List.length_append] at this
    omega
  have hlen : n ≤ s.incoming.length := by simp [hs, hn]
  have hn0 : n ≠ 0 := by omega
  have hmin : min (s.atHand s.reads : ℕ) n = s.atHand s.reads := by omega
  have hmin' : min (s.atHand s.reads : ℕ) s.incoming.length ≠ n := by omega
  simp [recvExactly, transportRead, hn0, hne, hmin, hmin']

theorem read_of_header {type : FrameType} (hs : s.incoming = codec.send ⟨type, p.1.length⟩ ++ p.1 ++ rest)
    (hh : 4 ≤ (s.atHand s.reads : ℕ)) (hp : p.1.length ≤ (s.atHand (s.reads + 1) : ℕ)) :
    s.read codec = (.ok p.1, { s with incoming := rest, reads := s.reads + 2 }) := by
  rw [List.append_assoc] at hs
  have hheader := recvExactly_full hs (codec.send_length _) hh
  have hdecode := codec.receive_send ⟨type, p.1.length⟩ p.2
  let t : Socket := { s with incoming := p.1 ++ rest, reads := s.reads + 1 }
  have hpayload := recvExactly_full (s := t) rfl rfl hp
  simp [Socket.read, hheader, hdecode, t, hpayload]

theorem read_full (hs : s.incoming = frame codec p.1 ++ rest)
    (hh : 4 ≤ (s.atHand s.reads : ℕ)) (hp : p.1.length ≤ (s.atHand (s.reads + 1) : ℕ)) :
    s.read codec = (.ok p.1, { s with incoming := rest, reads := s.reads + 2 }) :=
  read_of_header hs hh hp

theorem read_incoming_of_short_header (hs : s.incoming = frame codec p.1 ++ rest)
    (hh : (s.atHand s.reads : ℕ) < 4) : (s.read codec).2.incoming ≠ rest := by
  intro he
  rw [frame, List.append_assoc] at hs
  have hheader := recvExactly_short hs (codec.send_length _) hh
  have hlen := congrArg List.length he
  simp only [Socket.read, hheader, List.length_drop, hs, List.length_append,
    codec.send_length] at hlen
  omega

theorem read_incoming_of_short_payload (hs : s.incoming = frame codec p.1 ++ rest)
    (hh : 4 ≤ (s.atHand s.reads : ℕ)) (hp : (s.atHand (s.reads + 1) : ℕ) < p.1.length) :
    (s.read codec).2.incoming ≠ rest := by
  intro he
  rw [frame, List.append_assoc] at hs
  have hheader := recvExactly_full hs (codec.send_length _) hh
  have hdecode := codec.receive_send ⟨.wamp, p.1.length⟩ p.2
  let t : Socket := { s with incoming := p.1 ++ rest, reads := s.reads + 1 }
  have hpayload := recvExactly_short (s := t) rfl rfl hp
  have hlen := congrArg List.length he
  simp only [Socket.read, hheader, hdecode, t, hpayload, List.length_drop,
    List.length_append] at hlen
  omega

theorem read_exact_iff (hs : s.incoming = frame codec p.1 ++ rest) :
    ((s.read codec).1 = .ok p.1 ∧ (s.read codec).2.incoming = rest) ↔
      4 ≤ (s.atHand s.reads : ℕ) ∧ p.1.length ≤ (s.atHand (s.reads + 1) : ℕ) := by
  constructor
  · rintro ⟨-, hrest⟩
    have hh : 4 ≤ (s.atHand s.reads : ℕ) := by
      by_contra h
      exact read_incoming_of_short_header hs (not_le.mp h) hrest
    refine ⟨hh, ?_⟩
    by_contra h
    exact read_incoming_of_short_payload hs hh (not_le.mp h) hrest
  · rintro ⟨hh, hp⟩
    simp [read_full hs hh hp]

end Step

theorem readMany_succ_ok {n : ℕ} {s t : Socket} {q : List Byte} (h : s.read codec = (.ok q, t)) :
    s.readMany codec (n + 1) = ((t.readMany codec n).1.map (q :: ·), (t.readMany codec n).2) := by
  simp only [readMany, h]
  cases ht : t.readMany codec n with
  | mk r u => cases r <;> simp [Except.map]

theorem readMany_succ_error {n : ℕ} {s t : Socket} {e : SystemError} (h : s.read codec = (.error e, t)) :
    s.readMany codec (n + 1) = (.error e, t) := by
  simp [readMany, h]

theorem delivers_cons_iff {s : Socket} {p : Payload} {payloads : List Payload}
    (hs : s.incoming = wire codec (p :: payloads)) :
    Delivers codec (p :: payloads) s ↔
      ((s.read codec).1 = .ok p.1 ∧ (s.read codec).2.incoming = wire codec payloads) ∧
        Delivers codec payloads (s.read codec).2 := by
  cases hr : s.read codec with
  | mk r t =>
    cases r with
    | error e =>
      simp only [reduceCtorEq, false_and, iff_false]
      intro h
      have h1 := (h 1 (by simp)).1
      rw [readMany_succ_error codec hr] at h1
      cases h1
    | ok q =>
      have hmany (n : ℕ) := readMany_succ_ok codec (n := n) hr
      constructor
      · intro h
        have h1 := h 1 (by simp)
        rw [hmany 0] at h1
        obtain ⟨hq, hrest⟩ := h1
        obtain rfl : q = p.1 := by simpa [readMany, Except.map] using hq
        refine ⟨⟨rfl, by simpa [readMany] using hrest⟩, ?_⟩
        intro i hi
        have hi1 := h (i + 1) (by simpa using hi)
        rw [hmany i] at hi1
        refine ⟨?_, by simpa using hi1.2⟩
        cases ht : (t.readMany codec i).1 with
        | error e => simp [ht, Except.map] at hi1
        | ok ps => simpa [ht, Except.map] using hi1.1
      · rintro ⟨⟨hq, hrest⟩, h⟩ i hi
        obtain rfl : q = p.1 := by simpa using hq
        cases i with
        | zero => simpa [readMany] using hs
        | succ i =>
          rw [hmany i]
          obtain ⟨hi1, hi2⟩ := h i (by simpa using hi)
          exact ⟨by simp [hi1, Except.map], by simpa using hi2⟩

theorem noShortRead_cons_iff {s : Socket} {p : Payload} {payloads : List Payload} (rest : List Byte) :
    NoShortRead (p :: payloads) s ↔
      (4 ≤ (s.atHand s.reads : ℕ) ∧ p.1.length ≤ (s.atHand (s.reads + 1) : ℕ)) ∧
        NoShortRead payloads { s with incoming := rest, reads := s.reads + 2 } := by
  have hshift (i : ℕ) : s.reads + 2 * (i + 1) = s.reads + 2 + 2 * i := by ring
  constructor
  · intro h
    refine ⟨h 0 (by simp), fun i hi => ?_⟩
    simpa only [hshift, List.getElem_cons_succ] using h (i + 1) (Nat.succ_lt_succ hi)
  · rintro ⟨h0, h⟩ i hi
    cases i with
    | zero => exact h0
    | succ i => simpa only [hshift, List.getElem_cons_succ] using h i (Nat.lt_of_succ_lt_succ hi)

theorem delivers_iff_noShortRead {payloads : List Payload} {s : Socket}
    (hs : s.incoming = wire codec payloads) : Delivers codec payloads s ↔ NoShortRead payloads s := by
  induction payloads generalizing s with
  | nil => simp [Delivers, NoShortRead, readMany, hs]
  | cons p payloads ih =>
    have hframe := hs
    rw [wire_cons] at hframe
    rw [delivers_cons_iff codec hs, noShortRead_cons_iff (wire codec payloads),
      read_exact_iff hframe]
    apply and_congr_right
    rintro ⟨hh, hp⟩
    rw [read_full hframe hh hp]
    exact ih rfl

/-- Framing survives the segmentation of the stream exactly when no read is short: the `i`-th frame
is read by the reads `2 * i`, of its header, and `2 * i + 1`, of its payload. -/
theorem framing_survives_iff (payloads : List Payload) (atHand : ℕ → ℕ+) :
    Delivers codec payloads (receiving (wire codec payloads) atHand) ↔
      ∀ i (hi : i < payloads.length),
        4 ≤ (atHand (2 * i) : ℕ) ∧ (payloads[i]).1.length ≤ (atHand (2 * i + 1) : ℕ) := by
  rw [delivers_iff_noShortRead codec rfl]
  simp [NoShortRead, receiving]

section RawSocket

def FrameType.code : FrameType → ℕ
  | .wamp => 0
  | .ping => 1
  | .pong => 2

def FrameType.ofCode : ℕ → Option FrameType
  | 0 => some .wamp
  | 1 => some .ping
  | 2 => some .pong
  | _ => none

def rawSocket : HeaderCodec where
  new type length := some ⟨type, length⟩
  send h := [h.type.code, h.length / 2 ^ 16, h.length / 2 ^ 8, h.length].map UInt8.ofNat
  receive
    | [t, a, b, c] => (FrameType.ofCode t.toNat).map fun type =>
        ⟨type, a.toNat * 2 ^ 16 + b.toNat * 2 ^ 8 + c.toNat⟩
    | _ => none
  new_eq _ _ := rfl
  send_length _ := by simp
  receive_send := by
    rintro ⟨type, n⟩ (hn : n < 2 ^ 24)
    have hlen : n / 2 ^ 16 % 2 ^ 8 * 2 ^ 16 + n / 2 ^ 8 % 2 ^ 8 * 2 ^ 8 + n % 2 ^ 8 = n := by omega
    cases type <;> simpa [FrameType.code, FrameType.ofCode] using hlen

theorem not_delivers_byte_by_byte :
    ¬ Delivers rawSocket [⟨[1, 2, 3], by decide⟩]
      (receiving (wire rawSocket [⟨[1, 2, 3], by decide⟩]) fun _ => 1) := by
  intro h
  have hread := (h 1 (by decide)).1
  -- the header comes one byte at a time, and `recvExactly` gives up after the first
  have hempty : (readMany rawSocket 1 (receiving (wire rawSocket [⟨[1, 2, 3], by decide⟩])
      fun _ => 1)).1 = .ok [[]] := rfl
  rw [hempty] at hread
  cases hread

end RawSocket

end XconnCpp.SocketTransport

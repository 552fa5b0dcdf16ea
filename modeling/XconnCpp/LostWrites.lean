import XconnCpp.Interleaving
import XconnCpp.Framing

namespace XconnCpp.SocketTransport

variable (codec : HeaderCodec)

def Socket.written (s : Socket) (n : ℕ) : Bool :=
  ((s.writeMany codec (List.replicate n [])).write codec []).1

def Socket.WritesWhole (s : Socket) : Prop :=
  s.failure s.writes = none ∧ s.failure (s.writes + 1) = none

theorem write_eq_true_iff (s : Socket) (payload : List Byte) :
    (s.write codec payload).1 = true ↔ s.WritesWhole := by
  cases hheader : s.failure s.writes with
  | some n => simp [write_of_header_failure codec payload hheader, Socket.WritesWhole, hheader]
  | none =>
    cases hpayload : s.failure (s.writes + 1) with
    | some n =>
      simp [write_of_payload_failure codec payload hheader hpayload, Socket.WritesWhole, hpayload]
    | none => simp [write_of_done codec payload hheader hpayload, Socket.WritesWhole, hheader, hpayload]

theorem writes_write (s : Socket) (payload : List Byte) : (s.write codec payload).2.failure = s.failure ∧
    (s.write codec payload).2.writes =
      if (s.failure s.writes).isSome then s.writes + 1 else s.writes + 2 := by
  cases hheader : s.failure s.writes with
  | some n => simp [write_of_header_failure codec payload hheader]
  | none =>
    cases hpayload : s.failure (s.writes + 1) with
    | some n => simp [write_of_payload_failure codec payload hheader hpayload]
    | none => simp [write_of_done codec payload hheader hpayload]

theorem write_congr {s t : Socket} (hfailure : s.failure = t.failure) (hwrites : s.writes = t.writes)
    (p q : List Byte) : (s.write codec p).1 = (t.write codec q).1 := by
  rw [Bool.eq_iff_iff, write_eq_true_iff, write_eq_true_iff, Socket.WritesWhole, Socket.WritesWhole,
    hfailure, hwrites]

theorem write_writeMany (s : Socket) (payloads : List (List Byte)) (p : List Byte) :
    ((s.writeMany codec payloads).write codec p).1 = s.written codec payloads.length := by
  have hsame {s t : Socket} (hfailure : s.failure = t.failure) (hwrites : s.writes = t.writes) :
      ((s.writeMany codec payloads).write codec p).1 =
        ((t.writeMany codec (List.replicate payloads.length [])).write codec []).1 := by
    induction payloads generalizing s t with
    | nil => exact write_congr codec hfailure hwrites p []
    | cons q payloads ih =>
      obtain ⟨hs, hsw⟩ := writes_write codec s q
      obtain ⟨ht, htw⟩ := writes_write codec t []
      apply ih (s := (s.write codec q).2) (t := (t.write codec []).2)
      · rw [hs, ht, hfailure]
      · rw [hsw, htw, hfailure, hwrites]
  exact hsame rfl rfl

end XconnCpp.SocketTransport

namespace XconnCpp.Sessions

open Library Library.Program Library.Program.Prog Library.Transition Values SocketTransport

variable {P E : Type} {α : Type}

section Programs

def Op.WriteIgnored : (o : Op P E) → (Res o → Code P E α) → Prop
  | .send _, k => ∀ b, ¬ (k b).Throws
  | _, _ => True

theorem writeIgnored_sendMessage (m : Outgoing) {f : Unit → Code P E α} (hf : ¬ (f ()).Throws)
    (heach : (f ()).Each Op.WriteIgnored) : (sendMessage m >>= f).Each Op.WriteIgnored := by
  refine ⟨trivial, fun connected => ?_⟩
  cases connected with
  | true => exact ⟨fun _ => hf, fun _ => heach⟩
  | false => trivial

theorem writeIgnored_request (k : RequestKind) (requestId : UInt64) (payload : Payload P E k)
    (m : Outgoing) : (request k requestId payload m).Each Op.WriteIgnored := by
  refine ⟨trivial, fun promise => writeIgnored_sendMessage m ?_ ⟨trivial, fun r => ?_⟩⟩
  · exact fun hthrows => hthrows (some .acknowledged)
  · cases r with
    | none => trivial
    | some r => cases r <;> trivial

theorem writeIgnored_operation (operation : Operation P E) : operation.code.Each Op.WriteIgnored := by
  cases operation with
  | publish topic args kwargs options =>
    refine ⟨trivial, fun requestId => ?_⟩
    split
    · trivial
    · exact writeIgnored_request _ _ _ _
    · exact writeIgnored_sendMessage _ (not_throws_pure _) trivial
  | _ => exact ⟨trivial, fun requestId => writeIgnored_request _ _ _ _⟩

theorem writeIgnored_leave : (leave : Code P E ℤ).Each Op.WriteIgnored := by
  refine ⟨trivial, fun retrieved => ?_⟩
  cases retrieved with
  | false => trivial
  | true =>
    refine writeIgnored_sendMessage _ ?_ ⟨trivial, fun _ => ⟨trivial, fun v => ?_⟩⟩
    · exact fun hthrows => hthrows () (some 0)
    · cases v <;> trivial

end Programs

section Worlds

variable {w w' : World P E} {l : Choice P E} {t t' : Thread P E}

def Thread.IsRequest : Thread P E → Prop
  | .worker _ => False
  | _ => True

def Thread.Throws : Thread P E → Prop
  | .request _ rest => rest.Throws
  | .leaving rest => rest.Throws
  | .worker rest => rest.Throws

def Thread.WriteIgnored : Thread P E → Prop
  | .request _ rest => rest.Each Op.WriteIgnored
  | .leaving rest => rest.Each Op.WriteIgnored
  | .worker _ => True

theorem Thread.WriteIgnored.advance {s s' : Session P E} (ht : t.WriteIgnored)
    (ha : t.advance s = some (t', s')) : t'.WriteIgnored := by
  rcases advance_cases ha with
    ⟨operation, o, k, rfl, -, rfl⟩ | ⟨o, k, rfl, -, rfl⟩ | ⟨o, k, rfl, -, rfl⟩
  · exact ht.2 _
  · exact ht.2 _
  · trivial

theorem Thread.WriteIgnored.not_throws {s s' : Session P E} {m : Outgoing} (ht : t.WriteIgnored)
    (hrequest : t.IsRequest) (hsend : t.head? = some (.send m)) (ha : t.advance s = some (t', s')) :
    ¬ t'.Throws := by
  rcases advance_cases ha with
    ⟨operation, o, k, rfl, -, rfl⟩ | ⟨o, k, rfl, -, rfl⟩ | ⟨o, k, rfl, -, rfl⟩
  · obtain rfl : o = .send m := Option.some.inj hsend
    exact ht.1 _
  · obtain rfl : o = .send m := Option.some.inj hsend
    exact ht.1 _
  · exact hrequest.elim

theorem written_interp (o : Op P E) (s : Session P E) : (interp o s).2.written = s.written := by
  cases o with
  | receive =>
    simp only [interp]
    split <;> rfl
  | _ => rfl

theorem written_step (h : w.step l = some w') : w'.session.written = w.session.written := by
  rcases session_of_step h with ⟨o, -, hs⟩ | ⟨-, tasks, hs⟩
  · rw [hs, written_interp]
  · rw [hs]

theorem writeIgnored_step (hw : ∀ t ∈ w.threads, t.WriteIgnored) (h : w.step l = some w') :
    ∀ t ∈ w'.threads, t.WriteIgnored := by
  intro t' ht'
  obtain ⟨i, hi⟩ := List.mem_iff_getElem?.mp ht'
  rcases thread_before_step h hi with
    hi | ⟨-, t, hi, ha⟩ | ⟨operation, -, rfl⟩ | rfl | ⟨-, task, -, rfl⟩
  · exact hw t' (List.mem_of_getElem? hi)
  · exact (hw t (List.mem_of_getElem? hi)).advance ha
  · exact writeIgnored_operation operation
  · exact writeIgnored_leave
  · trivial

def WriteReported (w : World P E) (l : Choice P E) : Prop :=
  ∀ i t m w', l = .thread i → w.threads[i]? = some t → t.IsRequest → t.head? = some (.send m) →
    (interp (.send m) w.session).1 = false → w.step l = some w' →
      ∃ t', w'.threads[i]? = some t' ∧ t'.Throws

section Transport

variable (codec : HeaderCodec) (serialize : Outgoing → List Byte) (socket : Socket)

def Surroundings.over (surroundings : Surroundings P E) : Surroundings P E :=
  { surroundings with written := socket.written codec }

def World.carrier (w : World P E) : Socket := socket.writeMany codec (w.session.sent.map serialize)

def FrameWhole (w : World P E) (l : Choice P E) : Prop :=
  ∀ i t m, l = .thread i → w.threads[i]? = some t → t.IsRequest → t.head? = some (.send m) →
    (w.carrier codec serialize socket).WritesWhole

variable {codec serialize socket} {surroundings : Surroundings P E} {choices : List (Choice P E)}

theorem send_eq_write
    (hrun : exec World.step (World.start (surroundings.over codec socket)) choices = some w)
    (m : Outgoing) :
    (interp (.send m) w.session).1 = ((w.carrier codec serialize socket).write codec (serialize m)).1 := by
  have hwritten : w.session.written = socket.written codec :=
    exec_invariant (I := fun v => v.session.written = socket.written codec)
      (fun _ _ _ hv hstep => (written_step hstep).trans hv) rfl hrun
  rw [World.carrier, write_writeMany, List.length_map, ← hwritten]
  rfl

theorem writeIgnored_of_exec (hrun : exec World.step (World.start surroundings) choices = some w) :
    ∀ t ∈ w.threads, t.WriteIgnored :=
  exec_invariant (I := fun v => ∀ t ∈ v.threads, t.WriteIgnored)
    (fun _ _ _ hv hstep => writeIgnored_step hv hstep) (fun _ ht => by cases ht) hrun

theorem writeReported_iff_frameWhole
    (hrun : exec World.step (World.start (surroundings.over codec socket)) choices = some w) :
    WriteReported w l ↔ FrameWhole codec serialize socket w l := by
  have hgives (m : Outgoing) : (interp (.send m) w.session).1 = true ↔
      (w.carrier codec serialize socket).WritesWhole := by
    rw [send_eq_write hrun, write_eq_true_iff]
  constructor
  · rintro hreported i t m rfl hi hrequest hsend
    by_contra hwhole
    have hfalse := Bool.eq_false_iff.mpr fun htrue => hwhole ((hgives m).mp htrue)
    obtain ⟨w', hstep⟩ := step_of_performs (w := w) (l := .thread i) (o := .send m)
      (by simp [World.performs, hi, hsend])
    obtain ⟨t', hi', hthrows⟩ := hreported i t m w' rfl hi hrequest hsend hfalse hstep
    obtain ⟨u, u', s', hu, ha, rfl⟩ := step_thread_iff.mp hstep
    cases hi.symm.trans hu
    obtain ⟨-, rfl⟩ := (getElem?_set_cases hi').resolve_right fun h => h.1 rfl
    exact (writeIgnored_of_exec hrun t (List.mem_of_getElem? hi)).not_throws hrequest hsend ha hthrows
  · intro hwhole i t m w' hl hi hrequest hsend hfalse
    have htrue := (hgives m).mpr (hwhole i t m hl hi hrequest hsend)
    exact Bool.noConfusion (hfalse.symm.trans htrue)

/-- No operation learns what has become of its frame, so that each failure is reported only where there
is none. -/
theorem writes_reported_iff (codec : HeaderCodec) (serialize : Outgoing → List Byte) (socket : Socket)
    (surroundings : Surroundings P E) (choices : List (Choice P E)) :
    Along World.step WriteReported (World.start (surroundings.over codec socket)) choices ↔
      Along World.step (FrameWhole codec serialize socket)
        (World.start (surroundings.over codec socket)) choices := by
  constructor
  · rintro h pre l post t rfl ht
    exact (writeReported_iff_frameWhole ht).mp (h pre l post t rfl ht)
  · rintro h pre l post t rfl ht
    exact (writeReported_iff_frameWhole ht).mpr (h pre l post t rfl ht)

def broken : Socket := { Socket.sending with failure := fun _ => some 0 }

def publishChoices : List (Choice Unit Unit) :=
  [.request (.publish (ascii "com.example.topic") [] [] []), .thread 0, .thread 0, .thread 0]

theorem lost_publish_returns :
    let start := World.start (Surroundings.quiet.over rawSocket broken)
    (∃ w, exec World.step start publishChoices = some w ∧
        w.threads[0]? = some (.request (.publish (ascii "com.example.topic") [] [] []) (.pure .acknowledged)) ∧
          (w.carrier rawSocket (fun _ => [1]) broken).outgoing = []) ∧
      ¬ Along World.step WriteReported start publishChoices := by
  refine ⟨⟨_, rfl, rfl, rfl⟩, fun h => ?_⟩
  obtain ⟨t', ht, hthrows⟩ := h (publishChoices.take 3) (.thread 0) [] _ rfl rfl 0 _ _ _ rfl rfl trivial rfl
    rfl rfl
  cases ht
  exact hthrows

end Transport

end Worlds

end XconnCpp.Sessions

import XconnCpp.Library.Transition
import XconnCpp.UrlParser

namespace XconnCpp.SocketTransport

open Library.Transition Urls

inductive Status
  | closed
  | unconnected
  | connected
  deriving DecidableEq

inductive TransportError
  | connect
  | shutdown
  | close
  deriving DecidableEq

inductive ConnectOutcome
  | noEndpoint
  | notOpened
  | refused
  | established
  deriving DecidableEq

/-- What asio reports in one `close`: of a shutdown of a connected socket, and of closing an open one. -/
structure CloseErrors where
  shutdown : Bool
  close : Bool

namespace Status

def isOpen : Status → Bool
  | .closed => false
  | _ => true

def shutdown (errors : CloseErrors) : Status → Bool
  | .connected => errors.shutdown
  | _ => true

def close (errors : CloseErrors) : Status → Bool × Status
  | .closed => (false, .closed)
  -- the descriptor is given up whether or not there is an error
  | _ => (errors.close, .closed)

end Status

namespace TcpTransport

def connect : ConnectOutcome → Status → Except TransportError Unit × Status
  | .noEndpoint, s => (.error .connect, s)
  -- `asio::connect` closes the socket before each attempt
  | .notOpened, _ => (.error .connect, .closed)
  | .refused, _ => (.error .connect, .unconnected)
  | .established, _ => (.ok (), .connected)

def close (errors : CloseErrors) (s : Status) : Except TransportError Unit × Status :=
  if s.shutdown errors then (.error .shutdown, s)
  else
    match s.close errors with
    | (true, s) => (.error .close, s)
    | (false, s) => (.ok (), s)

end TcpTransport

namespace UnixTransport

def connect : ConnectOutcome → Status → Except TransportError Unit × Status
  | .noEndpoint, s => (.error .connect, s)
  | .notOpened, s => (.error .connect, s)
  | .refused, .connected => (.error .connect, .connected)
  | .refused, _ => (.error .connect, .unconnected)
  | .established, _ => (.ok (), .connected)

def close (errors : CloseErrors) (s : Status) : Except TransportError Unit × Status :=
  match s.close errors with
  | (true, s) => (.error .close, s)
  | (false, s) => (.ok (), s)

end UnixTransport

structure Transport where
  kind : TransportKind
  status : Status

namespace Transport

def create (kind : TransportKind) : Transport := ⟨kind, .closed⟩

def connect (outcome : ConnectOutcome) (t : Transport) : Except TransportError Unit × Transport :=
  let (r, s) := match t.kind with
    | .tcp => TcpTransport.connect outcome t.status
    | .unix => UnixTransport.connect outcome t.status
  (r, { t with status := s })

/-- `SocketTransport::close`, which `~SocketTransport` is nothing but a call of. -/
def close (errors : CloseErrors) (t : Transport) : Except TransportError Unit × Transport :=
  let (r, s) := match t.kind with
    | .tcp => TcpTransport.close errors t.status
    | .unix => UnixTransport.close errors t.status
  (r, { t with status := s })

def isConnected (t : Transport) : Bool := t.status.isOpen

end Transport

/-- What happens to a transport. The peer may end its side of the connection, or reset the connection;
the last `close` of a transport is that of its destructor. -/
inductive Event
  | connect (outcome : ConnectOutcome)
  | read
  | write
  | peerEnd
  | peerReset
  | close (errors : CloseErrors)

def Transport.step (t : Transport) : Event → Option Transport
  | .connect outcome => some (t.connect outcome).2
  | .read | .write | .peerEnd => some t
  | .peerReset => some { t with status := if t.status = .connected then .unconnected else t.status }
  | .close errors => some (t.close errors).2

structure ClosesQuietly (t : Transport) (errors : CloseErrors) : Prop where
  throwsNothing : (t.close errors).1 = .ok ()
  closed : (t.close errors).2.isConnected = false
  idempotent : t.isConnected = false → (t.close errors).2 = t

def Quiet (t : Transport) (event : Event) : Prop := ∀ errors, event = .close errors → ClosesQuietly t errors

section Conditions

def Event.Opens : Event → Prop
  | .connect .refused | .connect .established => True
  | _ => False

def Event.Closes : Event → Prop
  | .close _ => True
  | _ => False

def Event.Establishes : Event → Prop
  | .connect .established => True
  | _ => False

def Event.Severs : Event → Prop
  | .connect .notOpened | .connect .refused | .peerReset => True
  | .close errors => errors.shutdown = false
  | _ => False

def CloseFine (kind : TransportKind) (events : List Event) (errors : CloseErrors) : Prop :=
  match kind with
  | .tcp => Since Event.Establishes Event.Severs events ∧ errors.shutdown = false ∧ errors.close = false
  | .unix => Since Event.Opens Event.Closes events → errors.close = false

end Conditions

section Runs

variable {t t' : Transport} {event : Event} {events : List Event} {kind : TransportKind}

theorem kind_step (h : t.step event = some t') : t'.kind = t.kind := by
  cases event <;> cases h <;> rfl

theorem kind_of_exec (h : exec Transport.step (.create kind) events = some t) : t.kind = kind :=
  exec_invariant (I := fun u => u.kind = kind) (fun _ _ _ hu hstep => (kind_step hstep).trans hu) rfl h

theorem exec_exists (t : Transport) (events : List Event) : ∃ t', exec Transport.step t events = some t' := by
  induction events generalizing t with
  | nil => exact ⟨t, rfl⟩
  | cons event events ih =>
    obtain ⟨u, hu⟩ : ∃ u, t.step event = some u := by cases event <;> exact ⟨_, rfl⟩
    obtain ⟨t', ht'⟩ := ih u
    exact ⟨t', exec_cons_iff.mpr ⟨u, hu, ht'⟩⟩

theorem connected_step (hkind : t.kind = .tcp) (h : t.step event = some t') :
    t'.status = .connected ↔ event.Establishes ∨ t.status = .connected ∧ ¬ event.Severs := by
  obtain ⟨kind, status⟩ := t
  subst hkind
  cases event with
  | connect outcome =>
    cases h
    cases outcome <;> simp [Transport.connect, TcpTransport.connect, Event.Establishes, Event.Severs]
  | close errors =>
    cases h
    cases hshutdown : errors.shutdown <;> cases hclose : errors.close <;> cases status <;>
      simp [Transport.close, TcpTransport.close, Status.shutdown, Status.close, Event.Establishes,
        Event.Severs, hshutdown, hclose]
  | peerReset =>
    cases h
    cases status <;> simp [Event.Establishes, Event.Severs]
  | _ =>
    cases h
    simp [Event.Establishes, Event.Severs]

theorem open_step (hkind : t.kind = .unix) (h : t.step event = some t') :
    t'.isConnected = true ↔ event.Opens ∨ t.isConnected = true ∧ ¬ event.Closes := by
  obtain ⟨kind, status⟩ := t
  subst hkind
  cases event with
  | connect outcome =>
    cases h
    cases outcome <;> cases status <;>
      simp [Transport.connect, UnixTransport.connect, Transport.isConnected, Status.isOpen, Event.Opens,
        Event.Closes]
  | close errors =>
    cases h
    cases hclose : errors.close <;> cases status <;>
      simp [Transport.close, UnixTransport.close, Transport.isConnected, Status.isOpen, Status.close,
        Event.Opens, Event.Closes, hclose]
  | peerReset =>
    cases h
    cases status <;> simp [Transport.isConnected, Status.isOpen, Event.Opens, Event.Closes]
  | _ =>
    cases h
    simp [Event.Opens, Event.Closes]

theorem connected_iff (h : exec Transport.step (.create .tcp) events = some t) :
    t.status = .connected ↔ Since Event.Establishes Event.Severs events :=
  exec_iff_since (fun u : Transport => u.kind = .tcp) (fun u => u.status = .connected)
    (fun _ _ _ hu hstep => (kind_step hstep).trans hu) (fun _ _ _ hu hstep => connected_step hu hstep) rfl
    (by simp [Transport.create]) h

theorem open_iff (h : exec Transport.step (.create .unix) events = some t) :
    t.isConnected = true ↔ Since Event.Opens Event.Closes events :=
  exec_iff_since (fun u : Transport => u.kind = .unix) (fun u => u.isConnected = true)
    (fun _ _ _ hu hstep => (kind_step hstep).trans hu) (fun _ _ _ hu hstep => open_step hu hstep) rfl
    (by simp [Transport.create, Transport.isConnected, Status.isOpen]) h

theorem tcp_closesQuietly_iff (hkind : t.kind = .tcp) (errors : CloseErrors) :
    ClosesQuietly t errors ↔ t.status = .connected ∧ errors.shutdown = false ∧ errors.close = false := by
  obtain ⟨kind, status⟩ := t
  subst hkind
  constructor
  · intro h
    have hthrows := h.throwsNothing
    cases hshutdown : errors.shutdown <;> cases hclose : errors.close <;> cases status <;>
      simp_all [Transport.close, TcpTransport.close, Status.shutdown, Status.close]
  · rintro ⟨hstatus, hshutdown, hclose⟩
    obtain rfl : status = .connected := hstatus
    constructor <;>
      simp [Transport.close, TcpTransport.close, Status.shutdown, Status.close, Transport.isConnected,
        Status.isOpen, hshutdown, hclose]

theorem unix_closesQuietly_iff (hkind : t.kind = .unix) (errors : CloseErrors) :
    ClosesQuietly t errors ↔ (t.isConnected = true → errors.close = false) := by
  obtain ⟨kind, status⟩ := t
  subst hkind
  constructor
  · intro h hopen
    have hthrows := h.throwsNothing
    cases hclose : errors.close <;> cases status <;>
      simp_all [Transport.close, UnixTransport.close, Status.close, Transport.isConnected, Status.isOpen]
  · intro h
    cases hclose : errors.close <;> cases status <;> constructor <;>
      simp_all [Transport.close, UnixTransport.close, Status.close, Transport.isConnected, Status.isOpen]

theorem closesQuietly_iff (h : exec Transport.step (.create kind) events = some t) (errors : CloseErrors) :
    ClosesQuietly t errors ↔ CloseFine kind events errors := by
  cases kind with
  | tcp => rw [tcp_closesQuietly_iff (kind_of_exec h), connected_iff h, CloseFine]
  | unix => rw [unix_closesQuietly_iff (kind_of_exec h), open_iff h, CloseFine]

theorem closeFine_of_quiet {pre post : List Event} {errors : CloseErrors}
    (h : Along Transport.step Quiet (.create kind) (pre ++ .close errors :: post)) :
    CloseFine kind pre errors := by
  obtain ⟨t, ht⟩ := exec_exists (.create kind) pre
  exact (closesQuietly_iff ht errors).mp (h pre _ post t rfl ht errors rfl)

/-- Over TCP a `close` throws unless the connection stands, so that a second one always does; over a
Unix socket each is quiet but for an error in closing a socket that is open. -/
theorem closes_quietly_iff (kind : TransportKind) (events : List Event) :
    Along Transport.step Quiet (.create kind) events ↔
      ∀ pre errors post, events = pre ++ .close errors :: post → CloseFine kind pre errors := by
  constructor
  · rintro h pre errors post rfl
    exact closeFine_of_quiet h
  · rintro h pre event post t rfl ht errors rfl
    exact (closesQuietly_iff ht errors).mpr (h pre errors post rfl)

theorem not_quiet_closed_before :
    ¬ Along Transport.step Quiet (.create .tcp)
        [.connect .established, .close ⟨false, false⟩, .close ⟨false, false⟩] ∧
      ¬ Along Transport.step Quiet (.create .tcp) [.connect .refused, .close ⟨false, false⟩] := by
  constructor
  · intro h
    have hquiet := h [.connect .established, .close ⟨false, false⟩] (.close ⟨false, false⟩) [] _ rfl rfl _ rfl
    cases hquiet.throwsNothing
  · intro h
    have hquiet := h [.connect .refused] (.close ⟨false, false⟩) [] _ rfl rfl _ rfl
    cases hquiet.throwsNothing

end Runs

end XconnCpp.SocketTransport

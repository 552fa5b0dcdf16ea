import XconnCpp.SessionRuns

namespace XconnCpp.Sessions

open Library Library.Program Library.Program.Prog Values

variable {P E : Type}

def interfere (ops : List { o : Op P E // o.ByOthers }) (s : Session P E) : Session P E :=
  ops.foldl (fun t o => (interp o.1 t).2) s

/-- `Session::wait`, given up after `rounds` rounds; before the round `n`, the other threads perform
`others n`. -/
def wait : (ℕ → List { o : Op P E // o.ByOthers }) → ℕ → Session P E →
    Option (Outcome Exception Unit × Session P E)
  | _, 0, _ => none
  | others, rounds + 1, s =>
    match waitRound.run interp (interfere (others 0) s) with
    | (.returned true, t) => wait (fun i => others (i + 1)) rounds t
    | (.returned false, t) => some (.returned (), t)
    | (.threw e, t) => some (.threw e, t)
    | (.undefined, t) => some (.undefined, t)

def beforeRound : (ℕ → List { o : Op P E // o.ByOthers }) → ℕ → Session P E → Session P E
  | others, 0, s => interfere (others 0) s
  | others, n + 1, s =>
    beforeRound (fun i => others (i + 1)) n (waitRound.run interp (interfere (others 0) s)).2

section Rounds

def Session.looping (s : Session P E) : Bool × Option ℤ × List Inbound :=
  (s.running, s.goodbyeValue, s.inbox)

def Session.setInbox (s : Session P E) (inbox : List Inbound) : Session P E := { s with inbox := inbox }

@[simp] theorem setInbox_looping (s : Session P E) (inbox : List Inbound) :
    (s.setInbox inbox).looping = (s.running, s.goodbyeValue, inbox) := rfl

def Op.KeepsLooping (o : Op P E) : Prop := ∀ s, (interp o s).2.looping = s.looping

theorem Op.ByOthers.keepsLooping {o : Op P E} (h : o.ByOthers) : o.KeepsLooping := by
  rcases h with h | h | h <;> cases o <;> first | exact fun _ => rfl | exact h.elim

theorem interfere_looping (ops : List { o : Op P E // o.ByOthers }) (s : Session P E) :
    (interfere ops s).looping = s.looping := by
  induction ops generalizing s with
  | nil => rfl
  | cons o ops ih => exact (ih _).trans (o.2.keepsLooping s)

theorem Op.OfReply.keepsLooping {o : Op P E} (h : o.OfReply) : o.KeepsLooping := by
  cases o <;> first | exact fun _ => rfl | exact h.elim

theorem process_looping {m : Message} (hm : m ≠ .goodbye) (s : Session P E) :
    (process m s).2.looping = s.looping :=
  ((uses_processIncomingMessage hm).mono fun _ ho => ho.keepsLooping).run_eq s

theorem goodbyeEnd_running {s : Session P E} (hv : s.goodbyeValue = none) :
    (goodbyeEnd.run interp s).2.running = false := by
  cases hc : s.closeFails <;> simp [goodbyeEnd, interp, hv, hc]

theorem process_goodbye {s : Session P E} (hr : s.running = true) (hv : s.goodbyeValue = none) :
    (process .goodbye s).2.running = false := by
  simp only [process, processIncomingMessage, goodbyeBranch, run_op, interp]
  cases s.goodbyeSent with
  | true => exact goodbyeEnd_running hv
  | false =>
    simp only [goodbyeReply, sendMessage, transmit, op_bind, run_op, interp, hr]
    exact goodbyeEnd_running hv

variable {s t : Session P E} {rest : List Inbound}

theorem waitRound_stopped (h : s.running = false) : waitRound.run interp s = (.returned false, s) := by
  simp [waitRound, interp, h]

theorem waitRound_returned_false (h : waitRound.run interp s = (.returned false, t)) :
    t.running = false := by
  cases hr : s.running with
  | false =>
    rw [waitRound_stopped hr] at h
    obtain rfl : s = t := by simpa using h
    exact hr
  | true =>
    simp only [waitRound, run_op, interp, hr, run_bind] at h
    split at h <;> simp at h

theorem waitRound_closed (hr : s.running = true) (hi : s.inbox = []) :
    waitRound.run interp s = (.returned true, s) := by
  simp [waitRound, waitBody, receiveMessage, interp, hr, hi]

theorem waitRound_skip {i : Inbound} (hr : s.running = true) (hi : s.inbox = i :: rest)
    (hm : ∀ m, i ≠ .message m) : waitRound.run interp s = (.returned true, s.setInbox rest) := by
  cases i with
  | message m => exact absurd rfl (hm m)
  | _ => simp [waitRound, waitBody, receiveMessage, interp, hr, hi, Session.setInbox]

theorem waitRound_message {m : Message} (hr : s.running = true) (hi : s.inbox = .message m :: rest) :
    waitRound.run interp s = match process m (s.setInbox rest) with
      | (.undefined, t) => (.undefined, t)
      | (_, t) => (.returned true, t) := by
  have hload : interp .loadRunning s = (true, s) := by simp [interp, hr]
  have hreceive : interp .receive s = (.message m, s.setInbox rest) := by simp [interp, hi, Session.setInbox]
  simp only [waitRound, waitBody, receiveMessage, run_op, hload, hreceive, run_bind, run_tryCatch,
    op_bind, pure_bind, process]
  rcases (processIncomingMessage m).run interp (s.setInbox rest) with ⟨outcome, t⟩
  cases outcome <;> rfl

theorem waitRound_defined {m : Message} (hr : s.running = true) (hi : s.inbox = .message m :: rest)
    (hp : NamesPending s m) :
    waitRound.run interp s = (.returned true, (process m (s.setInbox rest)).2) := by
  have hne : (process m (s.setInbox rest)).1 ≠ .undefined := process_ne_undefined_iff.mpr hp
  rw [waitRound_message hr hi]
  rcases h : process m (s.setInbox rest) with ⟨outcome, t⟩
  cases outcome <;> simp_all

theorem waitRound_undefined {m : Message} (hr : s.running = true) (hi : s.inbox = .message m :: rest)
    (hp : ¬ NamesPending s m) : (waitRound.run interp s).1 = .undefined := by
  have hu : (process m (s.setInbox rest)).1 = .undefined := by
    by_contra hne
    exact hp (process_ne_undefined_iff (s := s.setInbox rest).mp hne)
  rw [waitRound_message hr hi]
  rcases h : process m (s.setInbox rest) with ⟨outcome, t⟩
  cases outcome <;> simp_all

end Rounds

section Ends

variable {others : ℕ → List { o : Op P E // o.ByOthers }} {s t : Session P E} {inbox : List Inbound}

def EndsByGoodbye (others : ℕ → List { o : Op P E // o.ByOthers }) (inbox : List Inbound)
    (s : Session P E) : Prop :=
  ∃ n, inbox[n]? = some (.message .goodbye) ∧
    ∀ j < n, ∀ m, inbox[j]? = some (.message m) → NamesPending (beforeRound others j s) m

theorem endsByGoodbye_cons_iff {i : Inbound} :
    EndsByGoodbye others (i :: inbox) s ↔
      i = .message .goodbye ∨
      (∀ m, i = .message m → NamesPending (interfere (others 0) s) m) ∧
        EndsByGoodbye (fun n => others (n + 1)) inbox
          (waitRound.run interp (interfere (others 0) s)).2 := by
  constructor
  · rintro ⟨n, hn, hearlier⟩
    cases n with
    | zero => exact .inl (by simpa using hn)
    | succ n =>
      refine .inr ⟨fun m hm => hearlier 0 (by omega) m (by simp [hm]), n, by simpa using hn, ?_⟩
      exact fun j hj m hm => hearlier (j + 1) (by omega) m (by simpa using hm)
  · rintro (hi | ⟨hfirst, n, hn, hearlier⟩)
    · exact ⟨0, by simp [hi], by simp⟩
    · refine ⟨n + 1, by simpa using hn, fun j hj m hm => ?_⟩
      cases j with
      | zero => exact hfirst m (by simpa using hm)
      | succ j => exact hearlier j (by omega) m (by simpa using hm)

def Returns (others : ℕ → List { o : Op P E // o.ByOthers }) (s : Session P E) : Prop :=
  ∃ rounds t, wait others rounds s = some (.returned (), t)

theorem returns_of_round_iff (h : waitRound.run interp (interfere (others 0) s) = (.returned true, t)) :
    Returns others s ↔ Returns (fun n => others (n + 1)) t := by
  constructor
  · rintro ⟨rounds, u, hu⟩
    cases rounds with
    | zero => simp [wait] at hu
    | succ rounds => exact ⟨rounds, u, by simpa [wait, h] using hu⟩
  · rintro ⟨rounds, u, hu⟩
    exact ⟨rounds + 1, u, by simpa [wait, h] using hu⟩

theorem not_returns_of_undefined
    (h : (waitRound.run interp (interfere (others 0) s)).1 = .undefined) : ¬ Returns others s := by
  rcases hround : waitRound.run interp (interfere (others 0) s) with ⟨outcome, t⟩
  obtain rfl : outcome = .undefined := by simpa [hround] using h
  rintro ⟨rounds, u, hu⟩
  cases rounds <;> simp [wait, hround] at hu

theorem returns_of_stopped (h : s.running = false) : Returns others s := by
  have hs : (interfere (others 0) s).running = false := by
    rw [← h]
    exact congrArg Prod.fst (interfere_looping (others 0) s)
  exact ⟨1, interfere (others 0) s, by simp [wait, waitRound_stopped hs]⟩

theorem not_returns_of_closed (hs : s.looping = (true, none, [])) : ¬ Returns others s := by
  rintro ⟨rounds, t, ht⟩
  induction rounds generalizing others s with
  | zero => simp [wait] at ht
  | succ rounds ih =>
    have hl := (interfere_looping (others 0) s).trans hs
    have hround := waitRound_closed (congrArg (·.1) hl) (congrArg (·.2.2) hl)
    exact ih hl (by simpa [wait, hround] using ht)

theorem returns_iff (hs : s.looping = (true, none, inbox)) :
    Returns others s ↔ EndsByGoodbye others inbox s := by
  induction inbox generalizing others s with
  | nil => exact iff_of_false (not_returns_of_closed hs) (by simp [EndsByGoodbye])
  | cons i rest ih =>
    have hl := (interfere_looping (others 0) s).trans hs
    have hr : (interfere (others 0) s).running = true := congrArg (·.1) hl
    have hv : (interfere (others 0) s).goodbyeValue = none := congrArg (·.2.1) hl
    have hi : (interfere (others 0) s).inbox = i :: rest := congrArg (·.2.2) hl
    rw [endsByGoodbye_cons_iff]
    cases i with
    | message m =>
      by_cases hp : NamesPending (interfere (others 0) s) m
      · have hround := waitRound_defined hr hi hp
        rw [returns_of_round_iff hround, hround]
        by_cases hm : m = .goodbye
        · subst hm
          exact iff_of_true (returns_of_stopped (process_goodbye hr hv)) (.inl rfl)
        · have hnext : (process m ((interfere (others 0) s).setInbox rest)).2.looping =
              (true, none, rest) := by
            rw [process_looping hm, setInbox_looping, hr, hv]
          rw [ih hnext]
          simp only [Inbound.message.injEq, hm, false_or, forall_eq', hp, true_and]
      · refine iff_of_false (not_returns_of_undefined (waitRound_undefined hr hi hp)) ?_
        rintro (hm | ⟨hp', -⟩)
        · cases hm
          exact hp (by simp [NamesPending, Message.answers])
        · exact hp (hp' m rfl)
    | _ =>
      have hround := waitRound_skip hr hi (by simp)
      have hnext : ((interfere (others 0) s).setInbox rest).looping = (true, none, rest) := by
        simp [hr, hv]
      rw [returns_of_round_iff hround, ih hnext, hround]
      simp

theorem wait_returned_running {rounds : ℕ} (h : wait others rounds s = some (.returned (), t)) :
    t.running = false := by
  induction rounds generalizing others s with
  | zero => simp [wait] at h
  | succ rounds ih =>
    simp only [wait] at h
    split at h
    · exact ih h
    · obtain rfl : _ = t := by simpa using h
      exact waitRound_returned_false ‹_›
    · simp at h
    · simp at h

end Ends

section AfterTheEnd

variable {s : Session P E}

def Operation.OptionsValid : Operation P E → Prop
  | .publish _ _ _ options => acknowledge options ≠ none
  | _ => True

theorem request_closed (h : s.running = false) (k : RequestKind) (requestId : UInt64)
    (payload : Payload P E k) (m : Outgoing) :
    ((request k requestId payload m).run interp s).1 = .threw connectionClosed := by
  simp [request, sendMessage, interp, h]

theorem operation_closed_iff (h : s.running = false) (operation : Operation P E) :
    (operation.code.run interp s).1 = .threw connectionClosed ↔ operation.OptionsValid := by
  cases operation with
  | publish topic args kwargs options =>
    have hid : (interp .nextId s).2.running = false := h
    simp only [Operation.code, publishDo, run_op, Operation.OptionsValid]
    cases acknowledge options with
    | none => simp [connectionClosed]
    | some b =>
      cases b with
      | true => exact iff_of_true (request_closed hid _ _ _ _) (by simp)
      | false => simp [sendMessage, interp, h]
  | _ => exact iff_of_true (request_closed (s := (interp .nextId s).2) h _ _ _ _) trivial

/-- The loop of a session returns, and leaves it closed to every operation, just if a GOODBYE ends it
and the options of the operation are valid. -/
theorem wait_ends_iff (surroundings : Surroundings P E) (others : ℕ → List { o : Op P E // o.ByOthers })
    (later : List { o : Op P E // o.ByOthers }) (operation : Operation P E) :
    (∃ rounds t, wait others rounds (Session.start surroundings) = some (.returned (), t) ∧
      t.running = false ∧
      (operation.code.run interp (interfere later t)).1 = .threw connectionClosed) ↔
        EndsByGoodbye others surroundings.inbox (Session.start surroundings) ∧
          operation.OptionsValid := by
  have hlater {t : Session P E} (ht : t.running = false) : (interfere later t).running = false :=
    (congrArg Prod.fst (interfere_looping later t)).trans ht
  rw [← returns_iff rfl]
  constructor
  · rintro ⟨rounds, t, hw, hr, hop⟩
    exact ⟨⟨rounds, t, hw⟩, (operation_closed_iff (hlater hr) operation).mp hop⟩
  · rintro ⟨⟨rounds, t, hw⟩, hop⟩
    have hr := wait_returned_running hw
    exact ⟨rounds, t, hw, hr, (operation_closed_iff (hlater hr) operation).mpr hop⟩

theorem not_returns_after_abort :
    (¬ ∃ rounds t, wait (P := Unit) (E := Unit) (fun _ => []) rounds
      (Session.start (.receiving [.message .abort])) = some (.returned (), t)) ∧
    ¬ ∃ rounds t, wait (P := Unit) (E := Unit) (fun _ => []) rounds
      (Session.start Surroundings.quiet) = some (.returned (), t) := by
  refine ⟨fun h => ?_, fun h => ?_⟩
  · obtain ⟨n, hn, -⟩ := (returns_iff rfl).mp h
    cases n <;> simp [Session.start, Surroundings.receiving] at hn
  · obtain ⟨n, hn, -⟩ := (returns_iff rfl).mp h
    simp [Session.start, Surroundings.quiet, Surroundings.receiving] at hn

end AfterTheEnd

end XconnCpp.Sessions

import XconnCpp.Interleaving

namespace XconnCpp.Sessions

open Library Library.Program Library.Program.Prog Library.Transition Values

variable {P E : Type}

section Programs

def testProtocol : Protocol Bool (Op P E) Res where
  allows tested o :=
    match o with
    | .send _ => tested = true
    | .callProcedure _ _ => False
    | .storeRunning b => tested = false ∧ b = false
    | _ => tested = false
  next _ o res :=
    match o, res with
    | .isConnected, connected => connected
    | _, _ => false

abbrev Tests {α : Type} (tested : Bool) (p : Code P E α) : Prop :=
  p.Follows testProtocol (· = false) (· = false) tested

def Op.Silent : Op P E → Prop
  | .send _ | .isConnected | .storeRunning _ | .callProcedure _ _ => False
  | _ => True

theorem tests_of_silent {α : Type} {p : Code P E α} (hp : p.Uses Op.Silent) : Tests false p := by
  apply hp.follows (I := (· = false)) _ (fun _ h => h) (fun _ h => h) rfl
  rintro o ho q rfl
  cases o <;> first | exact ho.elim | exact ⟨rfl, fun _ => rfl⟩

theorem tests_sendMessage (m : Outgoing) : Tests false (sendMessage m : Code P E Unit) := by
  refine ⟨rfl, fun connected => ?_⟩
  cases connected with
  | true => exact ⟨rfl, fun _ => rfl⟩
  | false => rfl

theorem tests_request (k : RequestKind) (requestId : UInt64) (payload : Payload P E k) (m : Outgoing) :
    Tests false (request k requestId payload m) := by
  refine ⟨rfl, fun p => Follows.bind (· = false) (tests_sendMessage m) ?_⟩
  rintro - q rfl
  refine ⟨rfl, fun r => ?_⟩
  cases r with
  | none => rfl
  | some r => cases r <;> rfl

theorem tests_operation (operation : Operation P E) : Tests false operation.code := by
  cases operation with
  | publish topic args kwargs options =>
    refine ⟨rfl, fun requestId => ?_⟩
    cases ha : acknowledge options with
    | none => rfl
    | some b =>
      cases b with
      | true => exact tests_request _ _ _ _
      | false => exact Follows.bind (· = false) (tests_sendMessage _) fun _ q hq => hq
  | _ => exact ⟨rfl, fun requestId => tests_request _ _ _ _⟩

theorem tests_leave : Tests false (leave : Code P E ℤ) := by
  refine ⟨rfl, fun retrieved => ?_⟩
  cases retrieved with
  | false => rfl
  | true =>
    refine Follows.bind (· = false) (tests_sendMessage _) ?_
    rintro - q rfl
    refine ⟨rfl, fun _ => ⟨rfl, fun v => ?_⟩⟩
    cases v <;> rfl

theorem tests_goodbyeBranch : Tests false (goodbyeBranch : Code P E Unit) := by
  have hend : Tests false (goodbyeEnd : Code P E Unit) := by
    refine ⟨rfl, fun satisfied => ?_⟩
    cases satisfied with
    | true =>
      refine ⟨⟨rfl, rfl⟩, fun _ => ⟨rfl, fun closed => ?_⟩⟩
      cases closed <;> rfl
    | false => rfl
  refine ⟨rfl, fun sent => ?_⟩
  cases sent with
  | true => exact hend
  | false =>
    refine Follows.bind (· = false) (Follows.bind (· = false) (tests_sendMessage _) ?_) ?_
    · rintro - q rfl
      exact ⟨rfl, fun _ => rfl⟩
    · rintro - q rfl
      exact hend

theorem tests_waitRound : Tests false (waitRound : Code P E Bool) := by
  refine ⟨rfl, fun running => ?_⟩
  cases running with
  | false => rfl
  | true =>
    refine Follows.bind (· = false) ?_ fun _ q hq => hq
    refine Follows.tryCatch ⟨rfl, fun i => ?_⟩ fun _ q hq => hq
    cases i with
    | message m =>
      by_cases hm : m = .goodbye
      · subst hm
        exact tests_goodbyeBranch
      · apply tests_of_silent
        apply (uses_processIncomingMessage hm).mono
        intro o ho
        cases o <;> first | exact ho.elim | trivial
    | _ => rfl

theorem not_send_of_tests {α : Type} {p : Code P E α} (hp : Tests false p) (m : Outgoing) :
    p.head? ≠ some (.send m) := by
  intro hhead
  cases hp.head hhead

theorem tests_next {α : Type} {tested : Bool} {o : Op P E} {k : Res o → Code P E α} {s : Session P E}
    (hp : Tests tested (.op o k)) (hclosed : (interp o s).2.running = false) :
    Tests false (k (interp o s).1) := by
  have hnext := hp.2 (interp o s).1
  have hfalse : testProtocol.next tested o (interp o s).1 = false := by
    cases o with
    | isConnected => exact hclosed
    | _ => rfl
  rwa [hfalse] at hnext

inductive Working : Code P E Unit → Prop
  | task (t : Task P E) : Working t.code
  | reply (requestId : UInt64) (outcome : HandlerOutcome) : Working (replyTo requestId outcome)
  | done : Working (.pure ())

inductive WorkerStep : Code P E Unit → Prop
  | call (handler : P) (invocation : Invocation) (requestId : UInt64) :
      WorkerStep (.op (.callProcedure handler invocation) (replyTo requestId))
  | callEvent (handler : E) (event : Event) :
      WorkerStep (.op (.callEventHandler handler event) fun _ => .pure ())
  | send (m : Outgoing) : WorkerStep (transmit m)

theorem workerStep_replyTo {requestId : UInt64} {outcome : HandlerOutcome} (h : outcome ≠ .other) :
    WorkerStep (replyTo requestId outcome : Code P E Unit) := by
  cases outcome with
  | other => exact absurd rfl h
  | _ => exact .send _

theorem exists_send_replyTo (requestId : UInt64) {outcome : HandlerOutcome} (h : outcome ≠ .other) :
    ∃ m, (replyTo requestId outcome : Code P E Unit).head? = some (.send m) := by
  cases outcome with
  | other => exact absurd rfl h
  | _ => exact ⟨_, rfl⟩

theorem Working.step {o : Op P E} {k : Res o → Code P E Unit} (h : Working (.op o k)) :
    WorkerStep (.op o k) := by
  generalize hp : Prog.op o k = p at h
  cases h with
  | task t =>
    cases t with
    | procedure handler invocation requestId =>
      cases hh : handler.target with
      | none =>
        rw [code_of_empty hh]
        exact workerStep_replyTo (by simp)
      | some f =>
        rw [code_of_target hh]
        exact .call f invocation requestId
    | event handler e =>
      cases hh : handler.target with
      | none => simp [event_code_of_empty hh] at hp
      | some f =>
        rw [event_code_of_target hh]
        exact .callEvent f e
  | reply requestId outcome =>
    apply workerStep_replyTo
    rintro rfl
    cases hp
  | done => cases hp

theorem WorkerStep.next {o : Op P E} {k : Res o → Code P E Unit} (h : WorkerStep (.op o k)) (res : Res o) :
    Working (k res) := by
  generalize hp : Prog.op o k = p at h
  cases h with
  | call handler invocation requestId =>
    cases hp
    exact .reply requestId res
  | callEvent handler event =>
    cases hp
    exact .done
  | send m =>
    cases hp
    exact .done

end Programs

section Worlds

variable {w w' : World P E} {l : Choice P E} {t t' : Thread P E} {i : ℕ}

def SendsConnected (w : World P E) (l : Choice P E) : Prop :=
  ∀ m, w.performs l = some (.send m) → w.session.running = true

structure ClosesQuietly (w : World P E) (l : Choice P E) : Prop where
  stop : w.performs l = some (.storeRunning false) → ∀ t ∈ w.threads, ∀ m, t.head? ≠ some (.send m)
  calls : w.session.running = false → ∀ handler invocation,
    w.performs l = some (.callProcedure handler invocation) →
      w.session.outcomes w.session.handlerCalls handler invocation = .other
  tasks : w.session.running = false → l = .work → ∀ handler invocation requestId,
    w.session.tasks.head? = some (.procedure handler invocation requestId) → handler.target ≠ none

def Thread.Careful : Thread P E → Prop
  | .request _ rest => (∃ tested, Tests tested rest) ∧ rest.Uses Op.OfRequest
  | .leaving rest => (∃ tested, Tests tested rest) ∧ rest.Uses Op.OfLeave
  | .worker rest => Working rest

structure World.Careful (w : World P E) : Prop where
  receiver : ∃ tested, Tests tested w.receiver
  threads : ∀ t ∈ w.threads, t.Careful

theorem World.Careful.start (surroundings : Surroundings P E) :
    (World.start surroundings : World P E).Careful where
  receiver := ⟨false, tests_waitRound⟩
  threads t ht := by cases ht

theorem Thread.Careful.advance {s s' : Session P E} (ht : t.Careful)
    (ha : t.advance s = some (t', s')) : t'.Careful := by
  rcases advance_cases ha with
    ⟨operation, o, k, rfl, -, rfl⟩ | ⟨o, k, rfl, -, rfl⟩ | ⟨o, k, rfl, -, rfl⟩
  · obtain ⟨⟨tested, htests⟩, huses⟩ := ht
    exact ⟨⟨_, htests.2 _⟩, huses.2 _⟩
  · obtain ⟨⟨tested, htests⟩, huses⟩ := ht
    exact ⟨⟨_, htests.2 _⟩, huses.2 _⟩
  · exact (Working.step ht).next _

theorem World.Careful.step (hw : w.Careful) (h : w.step l = some w') : w'.Careful where
  receiver := by
    obtain ⟨tested, htests⟩ := hw.receiver
    rcases receiver_of_step h with ⟨-, hr⟩ | ⟨-, ⟨-, hr⟩ | ⟨o, k, ho, -, hr⟩⟩
    · rw [hr]
      exact ⟨tested, htests⟩
    · rw [hr]
      exact ⟨false, tests_waitRound⟩
    · rw [ho] at htests
      rw [hr]
      exact ⟨_, htests.2 _⟩
  threads t' ht' := by
    obtain ⟨i, hi⟩ := List.mem_iff_getElem?.mp ht'
    rcases thread_before_step h hi with
      hi | ⟨-, t, hi, ha⟩ | ⟨operation, -, rfl⟩ | rfl | ⟨-, task, -, rfl⟩
    · exact hw.threads t' (List.mem_of_getElem? hi)
    · exact (hw.threads t (List.mem_of_getElem? hi)).advance ha
    · exact ⟨⟨false, tests_operation operation⟩, uses_operation operation⟩
    · exact ⟨⟨false, tests_leave⟩, uses_leave⟩
    · exact .task task

theorem World.Careful.storeRunning {b : Bool} (hw : w.Careful)
    (h : w.performs l = some (.storeRunning b)) : l = .receiver ∧ b = false := by
  cases l with
  | receiver =>
    obtain ⟨tested, htests⟩ := hw.receiver
    have hallows := htests.head h
    exact ⟨rfl, hallows.2⟩
  | thread i =>
    obtain ⟨t, hi, hhead⟩ := Option.bind_eq_some_iff.mp h
    have ht := hw.threads t (List.mem_of_getElem? hi)
    cases t with
    | request operation rest => exact (ht.2.head hhead).elim
    | leaving rest => exact (ht.2.head hhead).elim
    | worker rest =>
      obtain ⟨k, rfl⟩ := head?_eq_some_iff.mp hhead
      cases Working.step ht
  | _ => cases h

theorem World.Careful.callProcedure {handler : P} {invocation : Invocation} (hw : w.Careful)
    (h : w.performs l = some (.callProcedure handler invocation)) : ∃ i requestId, l = .thread i ∧
      w.threads[i]? = some (.worker (.op (.callProcedure handler invocation) (replyTo requestId))) := by
  cases l with
  | receiver =>
    obtain ⟨tested, htests⟩ := hw.receiver
    exact (htests.head h).elim
  | thread i =>
    obtain ⟨t, hi, hhead⟩ := Option.bind_eq_some_iff.mp h
    have ht := hw.threads t (List.mem_of_getElem? hi)
    cases t with
    | request operation rest => exact (ht.2.head hhead).elim
    | leaving rest => exact (ht.2.head hhead).elim
    | worker rest =>
      obtain ⟨k, rfl⟩ := head?_eq_some_iff.mp hhead
      cases Working.step ht with
      | call handler invocation requestId => exact ⟨i, requestId, rfl, hi⟩
  | _ => cases h

theorem running_interp {o : Op P E} (ho : ∀ b, o ≠ .storeRunning b) (s : Session P E) :
    (interp o s).2.running = s.running := by
  cases o with
  | storeRunning b => exact absurd rfl (ho b)
  | receive =>
    simp only [interp]
    split <;> rfl
  | _ => rfl

theorem World.Careful.running_step (hw : w.Careful) (h : w.step l = some w') :
    w.performs l = some (.storeRunning false) ∧ w'.session.running = false ∨
      w.performs l ≠ some (.storeRunning false) ∧ w'.session.running = w.session.running := by
  rcases session_of_step h with ⟨o, ho, hs⟩ | ⟨hnone, tasks, hs⟩
  · by_cases hstore : ∃ b, o = .storeRunning b
    · obtain ⟨b, rfl⟩ := hstore
      obtain ⟨-, rfl⟩ := hw.storeRunning ho
      exact .inl ⟨ho, by rw [hs]; rfl⟩
    · have hne (b : Bool) : o ≠ .storeRunning b := fun he => hstore ⟨b, he⟩
      refine .inr ⟨?_, by rw [hs, running_interp hne]⟩
      rw [ho]
      exact fun he => hne false (Option.some.inj he)
  · exact .inr ⟨by simp [hnone], by rw [hs]⟩

theorem World.Careful.closed_step (hw : w.Careful) (h : w.step l = some w')
    (hclosed : w.session.running = false) : w'.session.running = false := by
  rcases hw.running_step h with ⟨-, hstopped⟩ | ⟨-, hsame⟩
  · exact hstopped
  · exact hsame.trans hclosed

structure World.Quiet (w : World P E) : Prop where
  receiver : ∀ m, w.receiver.head? ≠ some (.send m)
  threads : ∀ t ∈ w.threads, ∀ m, t.head? ≠ some (.send m)

theorem World.Quiet.performs (h : w.Quiet) (m : Outgoing) : w.performs l ≠ some (.send m) := by
  intro hl
  cases l with
  | receiver => exact h.receiver m hl
  | thread i =>
    obtain ⟨t, ht, hhead⟩ := Option.bind_eq_some_iff.mp hl
    exact h.threads t (List.mem_of_getElem? ht) m hhead
  | _ => cases hl

theorem Thread.Careful.quiet_advance (ht : t.Careful) (hi : w.threads[i]? = some t)
    (ha : t.advance w.session = some (t', w'.session)) (hclosed : w'.session.running = false)
    (hcalls : ∀ handler invocation, w.performs (.thread i) = some (.callProcedure handler invocation) →
      w.session.outcomes w.session.handlerCalls handler invocation = .other) (m : Outgoing) :
    t'.head? ≠ some (.send m) := by
  rcases advance_cases ha with
    ⟨operation, o, k, rfl, hs, rfl⟩ | ⟨o, k, rfl, hs, rfl⟩ | ⟨o, k, rfl, hs, rfl⟩
  · obtain ⟨⟨tested, htests⟩, -⟩ := ht
    exact not_send_of_tests (tests_next htests (hs ▸ hclosed)) m
  · obtain ⟨⟨tested, htests⟩, -⟩ := ht
    exact not_send_of_tests (tests_next htests (hs ▸ hclosed)) m
  · cases Working.step ht with
    | call handler invocation requestId =>
      have hother := hcalls handler invocation (by simp [World.performs, hi, Thread.head?])
      simp [interp, hother, replyTo, Thread.head?]
    | callEvent handler event => simp [Thread.head?]
    | send m' => simp [Thread.head?]

theorem quiet_code {task : Task P E} (htask : ∀ handler invocation requestId,
    task = .procedure handler invocation requestId → handler.target ≠ none) (m : Outgoing) :
    task.code.head? ≠ some (.send m) := by
  cases task with
  | procedure handler invocation requestId =>
    obtain ⟨f, hf⟩ := Option.ne_none_iff_exists'.mp (htask handler invocation requestId rfl)
    simp [code_of_target hf]
  | event handler event =>
    cases hf : handler.target with
    | none => simp [event_code_of_empty hf]
    | some f => simp [event_code_of_target hf]

theorem quiet_step (hw : w.Careful) (hquiet : w.session.running = false → w.Quiet)
    (hc : ClosesQuietly w l) (h : w.step l = some w') (hclosed : w'.session.running = false) :
    w'.Quiet where
  receiver m := by
    obtain ⟨tested, htests⟩ := hw.receiver
    rcases receiver_of_step h with ⟨hl, hr⟩ | ⟨-, ⟨-, hr⟩ | ⟨o, k, ho, hs, hr⟩⟩
    · rw [hr]
      rcases hw.running_step h with ⟨hstop, -⟩ | ⟨-, hsame⟩
      · exact absurd (hw.storeRunning hstop).1 hl
      · exact (hquiet (hsame ▸ hclosed)).receiver m
    · rw [hr]
      exact not_send_of_tests tests_waitRound m
    · rw [ho] at htests
      rw [hr]
      exact not_send_of_tests (tests_next htests (hs ▸ hclosed)) m
  threads t' ht' m := by
    obtain ⟨i, hi⟩ := List.mem_iff_getElem?.mp ht'
    rcases thread_before_step h hi with
      hi | ⟨rfl, t, hi, ha⟩ | ⟨operation, -, rfl⟩ | rfl | ⟨rfl, task, htask, rfl⟩
    · have ht := List.mem_of_getElem? hi
      rcases hw.running_step h with ⟨hstop, -⟩ | ⟨-, hsame⟩
      · exact hc.stop hstop t' ht m
      · exact (hquiet (hsame ▸ hclosed)).threads t' ht m
    · apply (hw.threads t (List.mem_of_getElem? hi)).quiet_advance hi ha hclosed
      intro handler invocation hcall
      rcases hw.running_step h with ⟨hstop, -⟩ | ⟨-, hsame⟩
      · cases hcall.symm.trans hstop
      · exact hc.calls (hsame ▸ hclosed) handler invocation hcall
    · exact not_send_of_tests (tests_operation operation) m
    · exact not_send_of_tests tests_leave m
    · rcases hw.running_step h with ⟨hstop, -⟩ | ⟨-, hsame⟩
      · cases hstop
      · apply quiet_code
        rintro handler invocation requestId rfl
        exact hc.tasks (hsame ▸ hclosed) rfl handler invocation requestId htask

def World.Late (w : World P E) : Prop :=
  w.session.running = false ∧
    ∃ (i : ℕ) (t : Thread P E) (m : Outgoing), w.threads[i]? = some t ∧ t.head? = some (.send m)

theorem World.Late.exists_sends (h : w.Late) : ∃ l, ¬ SendsConnected w l := by
  obtain ⟨hclosed, i, t, m, hi, hhead⟩ := h
  refine ⟨.thread i, fun hsends => ?_⟩
  have hrunning := hsends m (by simp [World.performs, hi, hhead])
  rw [hclosed] at hrunning
  cases hrunning

theorem World.Late.step (hw : w.Careful) (h : w.Late) (hstep : w.step l = some w')
    (hsends : SendsConnected w l) : w'.Late := by
  obtain ⟨hclosed, i, t, m, hi, hhead⟩ := h
  refine ⟨hw.closed_step hstep hclosed, i, t, m, ?_, hhead⟩
  rcases thread_of_step hstep hi with hi' | ⟨rfl, -⟩
  · exact hi'
  · have hrunning := hsends m (by simp [World.performs, hi, hhead])
    rw [hclosed] at hrunning
    cases hrunning

theorem late_of_not_quiet (hw : w.Careful) (h : w.step l = some w') (hc : ¬ ClosesQuietly w l) :
    w'.Late := by
  by_contra hlate
  apply hc
  refine ⟨fun hstop t ht m hhead => hlate ?_, fun hclosed handler invocation hcall => ?_,
    fun hclosed hl handler invocation requestId htask hnone => hlate ?_⟩
  · obtain ⟨i, hi⟩ := List.mem_iff_getElem?.mp ht
    rcases hw.running_step h with ⟨-, hstopped⟩ | ⟨hne, -⟩
    · refine ⟨hstopped, i, t, m, ?_, hhead⟩
      rcases thread_of_step h hi with hi' | ⟨rfl, -⟩
      · exact hi'
      · simp [World.performs, hi, hhead] at hstop
    · exact absurd hstop hne
  · by_contra hother
    obtain ⟨i, requestId, rfl, hi⟩ := hw.callProcedure hcall
    obtain ⟨m, hm⟩ := exists_send_replyTo (P := P) (E := E) requestId hother
    refine hlate ⟨hw.closed_step h hclosed, i, .worker (replyTo requestId _), m, ?_, hm⟩
    obtain ⟨t, t', s', ht, ha, rfl⟩ := step_thread_iff.mp h
    cases hi.symm.trans ht
    cases ha
    simp [(List.getElem?_eq_some_iff.mp hi).1, interp]
  · subst hl
    obtain ⟨task, tasks, htasks, rfl⟩ := step_work_iff.mp h
    obtain rfl : task = .procedure handler invocation requestId := by simpa [htasks] using htask
    obtain ⟨m, hm⟩ := exists_send_replyTo (P := P) (E := E) requestId
      (show HandlerOutcome.exception ≠ .other by simp)
    refine ⟨hclosed, w.threads.length, .worker (replyTo requestId .exception), m, ?_, hm⟩
    simp [code_of_empty hnone]

section Runs

variable {surroundings : Surroundings P E} {choices : List (Choice P E)}

theorem careful_of_exec (hrun : exec World.step (World.start surroundings) choices = some w) : w.Careful :=
  exec_invariant (fun _ _ _ hv hstep => hv.step hstep) (World.Careful.start surroundings) hrun

theorem connected_of_exec (hrun : exec World.step (World.start surroundings) choices = some w)
    (hc : Along World.step ClosesQuietly (World.start surroundings) choices) (l : Choice P E) :
    SendsConnected w l := by
  obtain ⟨-, hquiet⟩ := exec_preserves (I := fun v => v.Careful ∧ (v.session.running = false → v.Quiet))
    (fun v l v' hv hl hstep => ⟨hv.1.step hstep, quiet_step hv.1 hv.2 hl hstep⟩)
    ⟨World.Careful.start surroundings, fun hclosed => by cases hclosed⟩ hc hrun
  intro m hm
  by_contra hclosed
  exact (hquiet (by simpa using hclosed)).performs m hm

/-- Nothing is sent after `running_` has been set to false, in the run and by whoever is next in it, if
and only if the session closes quietly. -/
theorem sends_connected_iff (surroundings : Surroundings P E) (choices : List (Choice P E)) (w : World P E)
    (hrun : exec World.step (World.start surroundings) choices = some w) :
    (∀ l, Along World.step SendsConnected (World.start surroundings) (choices ++ [l])) ↔
      Along World.step ClosesQuietly (World.start surroundings) choices := by
  constructor
  · rintro hsends pre l post t rfl ht
    by_contra hc
    obtain ⟨t', u, ht', hstep, hpost⟩ := exec_split_iff.mp hrun
    cases ht.symm.trans ht'
    have hcareful := careful_of_exec ht
    have hlate := late_of_not_quiet hcareful hstep hc
    have hrest : Along World.step SendsConnected u post := by
      have hwhole : Along World.step SendsConnected (World.start surroundings) ((pre ++ [l]) ++ post) := by
        simpa using (hsends l).initial
      exact hwhole.drop (exec_snoc_iff.mpr ⟨t, ht, hstep⟩)
    obtain ⟨-, hlate⟩ := exec_preserves (I := fun v => v.Careful ∧ v.Late)
      (fun v l v' hv hl hstep => ⟨hv.1.step hstep, hv.2.step hv.1 hstep hl⟩)
      ⟨hcareful.step hstep, hlate⟩ hrest hpost
    obtain ⟨l', hl'⟩ := hlate.exists_sends
    exact hl' ((along_snoc_iff hrun).mp (hsends l')).2
  · intro hc l
    rw [along_snoc_iff hrun]
    refine ⟨?_, connected_of_exec hrun hc l⟩
    rintro pre l' post t rfl ht
    exact connected_of_exec ht hc.initial l'

def calledThenClosed : Surroundings Unit Unit :=
  .receiving [.message (.registered 1 9), .message (.invocation 5 9 [] [] []), .message .goodbye]

def registerChoices : List (Choice Unit Unit) :=
  [.request (.register (ascii "com.example.echo") ⟨some ()⟩ []), .thread 0, .thread 0, .thread 0, .thread 0]

theorem sends_connected_iff_returned : ∃ (choices : List (Choice Unit Unit)) (w : World Unit Unit),
    exec World.step (World.start calledThenClosed) choices = some w ∧ w.session.running = false ∧
      ((∀ l, Along World.step SendsConnected (World.start calledThenClosed) (choices ++ [l])) ↔
        Along World.step ClosesQuietly (World.start calledThenClosed) choices) :=
  ⟨registerChoices ++ List.replicate 11 .receiver ++ [.work, .thread 1, .thread 1] ++
    List.replicate 10 .receiver, _, rfl, rfl, sends_connected_iff _ _ _ rfl⟩

theorem sends_after_close : ∃ choices choices' : List (Choice Unit Unit),
    ¬ Along World.step SendsConnected (World.start calledThenClosed) (choices ++ [.thread 1]) ∧
      ¬ Along World.step SendsConnected (World.start calledThenClosed) (choices' ++ [.thread 1]) := by
  refine ⟨registerChoices ++ List.replicate 19 .receiver ++ [.work, .thread 1],
    registerChoices ++ [.request (.unregister 9), .thread 1, .thread 1, .thread 1] ++
      List.replicate 19 .receiver, fun h => ?_, fun h => ?_⟩
  · have hrunning := h _ (.thread 1) [] _ rfl rfl (.yield 5 [] [] []) rfl
    cases hrunning
  · have hrunning := h _ (.thread 1) [] _ rfl rfl (.unregister 2 9) rfl
    cases hrunning

end Runs

end Worlds

end XconnCpp.Sessions

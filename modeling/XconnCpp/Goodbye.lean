import XconnCpp.Farewell
import XconnCpp.Interleaving

namespace XconnCpp.Sessions

open Library Library.Program Library.Program.Prog Library.Transition Values
open Farewell (Answering Leaving Flags Move)

variable {P E : Type}

def Session.flags (s : Session P E) : Flags where
  running := s.running
  goodbyeSent := s.goodbyeSent
  retrieved := s.goodbyeRetrieved
  answered := s.goodbyeValue.isSome
  goodbyes := s.sent.countP Outgoing.isGoodbye

section Operations

variable {o : Op P E} {s : Session P E} {c : Farewell.State}

theorem receive_flags (s : Session P E) : (interp .receive s).2.flags = s.flags := by
  cases hi : s.inbox <;> simp [interp, hi, Session.flags]

theorem Op.OfRequest.flags (ho : o.OfRequest) (s : Session P E) : (interp o s).2.flags = s.flags := by
  cases o with
  | send m =>
    have hm : m.isGoodbye = false := ho
    simp [interp, Session.flags, hm]
  | _ => first | rfl | exact ho.elim

theorem Op.OfTask.flags (ho : o.OfTask) (s : Session P E) : (interp o s).2.flags = s.flags := by
  cases o with
  | send m =>
    have hm : m.isGoodbye = false := ho
    simp [interp, Session.flags, hm]
  | _ => first | rfl | exact ho.elim

def answerProtocol : Protocol Answering (Op P E) Res where
  allows q o :=
    match q, o with
    | .out, .loadRunning => True
    | .out, .close => True
    | .live, .receive => True
    | .live, .loadGoodbyeSent => True
    | .live, o => o.OfReply
    | .asking, .isConnected => True
    | .sending, .send m => m.isGoodbye = true
    | .storing, .storeGoodbyeSent b => b = true
    | .ending, .setGoodbyeValue _ => True
    | .stopping, .storeRunning b => b = false
    | _, _ => False
  next q o r :=
    match q, o, r with
    | .out, .loadRunning, true => .live
    | .live, .loadGoodbyeSent, true => .ending
    | .live, .loadGoodbyeSent, false => .asking
    | .asking, .isConnected, true => .sending
    | .asking, .isConnected, false => .live
    | .sending, _, _ => .storing
    | .storing, _, _ => .ending
    | .ending, .setGoodbyeValue _, true => .stopping
    | .ending, .setGoodbyeValue _, false => .live
    | .stopping, _, _ => .out
    | q, _, _ => q

def leaveProtocol : Protocol Leaving (Op P E) Res where
  allows p o :=
    match p, o with
    | .testing, .isConnected => True
    | .sending, .send m => m.isGoodbye = true
    | .storing, .storeGoodbyeSent b => b = true
    | .waiting, .waitGoodbye => True
    | _, _ => False
  next p o r :=
    match p, o, r with
    | .testing, .isConnected, true => .sending
    | .testing, .isConnected, false => .failed
    | .sending, _, _ => .storing
    | .storing, _, _ => .waiting
    | .waiting, .waitGoodbye, some _ => .returned
    | .waiting, .waitGoodbye, none => .failed
    | p, _, _ => p

def Op.answerMove : Op P E → Move
  | .loadRunning => .wake
  | .loadGoodbyeSent => .ask
  | .isConnected => .confirm
  | .send _ => .reply
  | .storeGoodbyeSent _ => .note
  | .setGoodbyeValue _ => .settle
  | .storeRunning _ => .stop
  | _ => .aside

def Op.leaveMove : Op P E → Move
  | .getGoodbyeFuture => .begin
  | .isConnected => .test
  | .send _ => .say
  | .storeGoodbyeSent _ => .store
  | .waitGoodbye => .await
  | _ => .aside

theorem answer_step (hc : c.toFlags = s.flags) (ho : answerProtocol.allows c.answering o) :
    ∃ c', Farewell.step c o.answerMove = some c' ∧ c'.toFlags = (interp o s).2.flags ∧
      c'.answering = answerProtocol.next c.answering o (interp o s).1 ∧ c'.leaving = c.leaving ∧
      c'.retrieved = c.retrieved := by
  obtain ⟨flags, q, p⟩ := c
  obtain rfl : flags = s.flags := hc
  cases q with
  | out =>
    cases o with
    | loadRunning =>
      refine ⟨_, rfl, rfl, ?_, rfl, rfl⟩
      cases hs : s.running <;> simp [Session.flags, interp, answerProtocol, hs]
    | close => exact ⟨_, rfl, rfl, rfl, rfl, rfl⟩
    | _ => exact ho.elim
  | live =>
    cases o with
    | receive => exact ⟨_, rfl, (receive_flags s).symm, rfl, rfl, rfl⟩
    | loadGoodbyeSent =>
      refine ⟨_, rfl, rfl, ?_, rfl, rfl⟩
      cases hs : s.goodbyeSent <;> simp [Session.flags, interp, answerProtocol, hs]
    | findRequest | setPromise | emplaceRegistration | findRegistration | emplaceSubscription
    | findSubscription | enqueue => exact ⟨_, rfl, rfl, rfl, rfl, rfl⟩
    | _ => exact ho.elim
  | asking =>
    cases o with
    | isConnected =>
      refine ⟨_, rfl, rfl, ?_, rfl, rfl⟩
      cases hs : s.running <;> simp [Session.flags, interp, answerProtocol, hs]
    | _ => exact ho.elim
  | sending =>
    cases o with
    | send m =>
      have hm : m.isGoodbye = true := ho
      refine ⟨_, rfl, ?_, rfl, rfl, rfl⟩
      simp [Session.flags, interp, hm]
    | _ => exact ho.elim
  | storing =>
    cases o with
    | storeGoodbyeSent b =>
      obtain rfl : b = true := ho
      exact ⟨_, rfl, rfl, rfl, rfl, rfl⟩
    | _ => exact ho.elim
  | ending =>
    cases o with
    | setGoodbyeValue v =>
      refine ⟨_, rfl, ?_, ?_, rfl, rfl⟩
      · simp [Session.flags, interp]
      · cases hs : s.goodbyeValue <;> simp [Session.flags, interp, answerProtocol, hs]
    | _ => exact ho.elim
  | stopping =>
    cases o with
    | storeRunning b =>
      obtain rfl : b = false := ho
      exact ⟨_, rfl, rfl, rfl, rfl, rfl⟩
    | _ => exact ho.elim

theorem leave_step (hc : c.toFlags = s.flags) (ho : leaveProtocol.allows c.leaving o) :
    ∃ c', Farewell.step c o.leaveMove = some c' ∧ c'.toFlags = (interp o s).2.flags ∧
      c'.answering = c.answering ∧ c'.leaving = leaveProtocol.next c.leaving o (interp o s).1 ∧
      c'.retrieved = c.retrieved := by
  obtain ⟨flags, q, p⟩ := c
  obtain rfl : flags = s.flags := hc
  cases p with
  | testing =>
    cases o with
    | isConnected =>
      refine ⟨_, rfl, rfl, rfl, ?_, rfl⟩
      cases hs : s.running <;> simp [Session.flags, interp, leaveProtocol, hs]
    | _ => exact ho.elim
  | sending =>
    cases o with
    | send m =>
      have hm : m.isGoodbye = true := ho
      refine ⟨_, rfl, ?_, rfl, rfl, rfl⟩
      simp [Session.flags, interp, hm]
    | _ => exact ho.elim
  | storing =>
    cases o with
    | storeGoodbyeSent b =>
      obtain rfl : b = true := ho
      exact ⟨_, rfl, rfl, rfl, rfl, rfl⟩
    | _ => exact ho.elim
  | waiting =>
    cases o with
    | waitGoodbye =>
      refine ⟨_, rfl, rfl, rfl, ?_, rfl⟩
      cases hs : s.goodbyeValue <;> simp [Session.flags, interp, leaveProtocol, hs]
    | _ => exact ho.elim
  | before | returned | failed => exact ho.elim

end Operations

section Programs

theorem goodbyeEnd_follows :
    (goodbyeEnd : Code P E Unit).Follows answerProtocol Answering.Outside Answering.Outside .ending := by
  refine ⟨trivial, fun satisfied => ?_⟩
  cases satisfied with
  | true =>
    refine ⟨rfl, fun _ => ⟨trivial, fun closed => ?_⟩⟩
    cases closed <;> exact .inl rfl
  | false => exact .inr rfl

theorem goodbyeBranch_follows :
    (goodbyeBranch : Code P E Unit).Follows answerProtocol Answering.Outside Answering.Outside .live := by
  refine ⟨trivial, fun sent => ?_⟩
  cases sent with
  | true => exact goodbyeEnd_follows
  | false =>
    refine Follows.bind (· = .ending) ⟨trivial, fun connected => ?_⟩ ?_
    · cases connected with
      | true => exact ⟨rfl, fun _ => ⟨rfl, fun _ => rfl⟩⟩
      | false => exact .inr rfl
    · rintro - q rfl
      exact goodbyeEnd_follows

theorem processIncomingMessage_answers (m : Message) :
    (processIncomingMessage m : Code P E Unit).Follows answerProtocol Answering.Outside
      Answering.Outside .live := by
  by_cases hm : m = .goodbye
  · subst hm
    exact goodbyeBranch_follows
  · apply (uses_processIncomingMessage hm).follows (I := (· = .live)) _ (fun _ => .inr) (fun _ => .inr) rfl
    rintro o ho q rfl
    cases o <;> first | exact ⟨trivial, fun _ => rfl⟩ | exact ho.elim

theorem waitRound_answers :
    (waitRound : Code P E Bool).Follows answerProtocol Answering.Outside Answering.Outside .out := by
  refine ⟨trivial, fun running => ?_⟩
  cases running with
  | false => exact .inl rfl
  | true =>
    refine Follows.bind Answering.Outside ?_ fun _ q hq => hq
    refine Follows.tryCatch ⟨trivial, fun i => ?_⟩ fun _ q hq => hq
    cases i with
    | message m => exact processIncomingMessage_answers m
    | _ => exact .inr rfl

theorem leave_follows {k : Bool → Code P E ℤ} (hk : leave = .op .getGoodbyeFuture k) :
    (k true).Follows leaveProtocol (· = .returned) (· = .failed) .testing ∧ k false = .throw .futureError := by
  cases hk
  refine ⟨Follows.bind (· = .storing) ⟨trivial, fun connected => ?_⟩ ?_, rfl⟩
  · cases connected with
    | true => exact ⟨rfl, fun _ => rfl⟩
    | false => rfl
  · rintro - p rfl
    refine ⟨rfl, fun _ => ⟨trivial, fun v => ?_⟩⟩
    cases v <;> rfl

end Programs

section Leavers

structure Leavers (threads : List (Thread P E)) (retrieved : Bool) (p : Leaving) (holder : Option ℕ) :
    Prop where
  retrieved_iff : retrieved = true ↔ holder ≠ none
  holds : ∀ i, holder = some i → ∃ rest, threads[i]? = some (.leaving rest) ∧
    rest.Follows leaveProtocol (· = .returned) (· = .failed) p
  idle : ∀ i rest, threads[i]? = some (.leaving rest) → holder ≠ some i →
    rest = leave ∨ ∃ e, rest = .throw e

variable {threads : List (Thread P E)} {t : Thread P E} {rest : Code P E ℤ} {retrieved : Bool}
  {p : Leaving} {holder : Option ℕ} {i : ℕ}

theorem Leavers.append (h : Leavers threads retrieved p holder)
    (ht : ∀ rest, t = .leaving rest → rest = leave) :
    Leavers (threads ++ [t]) retrieved p holder := by
  refine ⟨h.retrieved_iff, fun i hi => ?_, fun i rest hi hne => ?_⟩
  · obtain ⟨rest, hrest, hfollows⟩ := h.holds i hi
    have hlt : i < threads.length := (List.getElem?_eq_some_iff.mp hrest).1
    exact ⟨rest, by rwa [List.getElem?_append_left hlt], hfollows⟩
  · rcases getElem?_append_cases hi with hi | hi
    · exact h.idle i rest hi hne
    · exact .inl (ht rest hi.symm)

theorem Leavers.set_other (h : Leavers threads retrieved p holder) (hne : holder ≠ some i)
    (ht : ∀ rest, t = .leaving rest → ∃ e, rest = .throw e) :
    Leavers (threads.set i t) retrieved p holder := by
  refine ⟨h.retrieved_iff, fun j hj => ?_, fun j rest hj hnot => ?_⟩
  · obtain ⟨rest, hrest, hfollows⟩ := h.holds j hj
    have hij : i ≠ j := fun hij => hne (hij ▸ hj)
    exact ⟨rest, by rwa [List.getElem?_set_ne hij], hfollows⟩
  · rcases getElem?_set_cases hj with ⟨-, hj⟩ | ⟨-, hj⟩
    · exact .inr (ht rest hj.symm)
    · exact h.idle j rest hj hnot

theorem Leavers.set_holder {p' : Leaving} (h : Leavers threads retrieved p holder)
    (hi : i < threads.length) (hholder : ∀ j, holder = some j → j = i)
    (hrest : rest.Follows leaveProtocol (· = .returned) (· = .failed) p') :
    Leavers (threads.set i (.leaving rest)) true p' (some i) := by
  refine ⟨by simp, fun j hj => ?_, fun j rest' hj hnot => ?_⟩
  · obtain rfl := Option.some.inj hj
    exact ⟨rest, by simp [hi], hrest⟩
  · rcases getElem?_set_cases hj with ⟨rfl, -⟩ | ⟨hne, hj⟩
    · exact absurd rfl hnot
    · exact h.idle j rest' hj fun hsome => hne (hholder j hsome)

end Leavers

section Parting

def World.move (w : World P E) : Choice P E → Move
  | .receiver => w.receiver.head?.elim .rest Op.answerMove
  | .thread i =>
    match w.threads[i]? with
    | some (.leaving rest) => rest.head?.elim .aside Op.leaveMove
    | _ => .aside
  | _ => .aside

def Thread.Bystander : Thread P E → Prop
  | .request _ rest => rest.Uses Op.OfRequest
  | .leaving _ => True
  | .worker rest => rest.Uses Op.OfTask

structure Parting (w : World P E) (c : Farewell.State) : Prop where
  flags : c.toFlags = w.session.flags
  receiver : w.receiver.Follows answerProtocol Answering.Outside Answering.Outside c.answering
  bystanders : ∀ t ∈ w.threads, t.Bystander
  leavers : ∃ holder, Leavers w.threads c.retrieved c.leaving holder

variable {w w' : World P E} {c : Farewell.State} {l : Choice P E}

theorem parting_start (surroundings : Surroundings P E) :
    Parting (World.start surroundings : World P E) Farewell.init := by
  refine ⟨rfl, waitRound_answers, by simp [World.start], none, ?_⟩
  constructor <;> simp [World.start, Farewell.init]

theorem Parting.receiver_step (h : Parting w c) (hs : w.step .receiver = some w') :
    ∃ c', Farewell.step c (w.move .receiver) = some c' ∧ Parting w' c' := by
  have hfollows := h.receiver
  rcases step_receiver_iff.mp hs with ⟨hr, rfl⟩ | ⟨o, k, hr, rfl⟩
  · rw [hr] at hfollows
    have hstep : Farewell.step c .rest = some { c with answering := .out } := if_pos hfollows
    have hmove : w.move .receiver = .rest := by simp [World.move, hr]
    exact ⟨{ c with answering := .out }, hmove ▸ hstep, h.flags, waitRound_answers, h.bystanders,
      h.leavers⟩
  · rw [hr] at hfollows
    obtain ⟨hallows, hnext⟩ := hfollows
    obtain ⟨c', hstep, hflags, hanswering, hleaving, hretrieved⟩ := answer_step h.flags hallows
    refine ⟨c', by simpa [World.move, hr] using hstep, hflags, ?_, h.bystanders, ?_⟩
    · rw [hanswering]
      exact hnext _
    · rw [hleaving, hretrieved]
      exact h.leavers

theorem Parting.new_thread {t : Thread P E} {s : Session P E} (h : Parting w c)
    (hs : s.flags = w.session.flags) (ht : t.Bystander) (hleave : ∀ rest, t = .leaving rest → rest = leave) :
    Parting { w with session := s, threads := w.threads ++ [t] } c := by
  obtain ⟨holder, hleavers⟩ := h.leavers
  refine ⟨h.flags.trans hs.symm, h.receiver, fun u hu => ?_, holder, hleavers.append hleave⟩
  rcases List.mem_append.mp hu with hu | hu
  · exact h.bystanders u hu
  · obtain rfl := List.mem_singleton.mp hu
    exact ht

theorem bystanders_set {threads : List (Thread P E)} {t : Thread P E} {i : ℕ}
    (h : ∀ u ∈ threads, u.Bystander) (ht : t.Bystander) : ∀ u ∈ threads.set i t, u.Bystander := by
  intro u hu
  rcases List.mem_or_eq_of_mem_set hu with hu | rfl
  · exact h u hu
  · exact ht

theorem Parting.bystander_step {i : ℕ} {t' : Thread P E} {s : Session P E} (h : Parting w c)
    (ht : ∀ rest, w.threads[i]? ≠ some (.leaving rest)) (hs : s.flags = w.session.flags)
    (ht' : t'.Bystander) (hnot : ∀ rest, t' ≠ .leaving rest) :
    Parting { w with session := s, threads := w.threads.set i t' } c := by
  obtain ⟨holder, hleavers⟩ := h.leavers
  refine ⟨h.flags.trans hs.symm, h.receiver, bystanders_set h.bystanders ht', holder, ?_⟩
  apply hleavers.set_other
  · rintro rfl
    obtain ⟨rest, hrest, -⟩ := hleavers.holds i rfl
    exact ht rest hrest
  · exact fun rest hrest => absurd hrest (hnot rest)

theorem Parting.leaver_step {i : ℕ} {o : Op P E} {k : Res o → Code P E ℤ} (h : Parting w c)
    (ht : w.threads[i]? = some (.leaving (.op o k))) :
    ∃ c', Farewell.step c o.leaveMove = some c' ∧ Parting { w with
      session := (interp o w.session).2
      threads := w.threads.set i (.leaving (k (interp o w.session).1)) } c' := by
  obtain ⟨holder, hleavers⟩ := h.leavers
  have hlt : i < w.threads.length := (List.getElem?_eq_some_iff.mp ht).1
  by_cases hi : holder = some i
  · obtain ⟨rest, hrest, hfollows⟩ := hleavers.holds i hi
    obtain rfl : .op o k = rest := by simpa [ht] using hrest
    obtain ⟨hallows, hnext⟩ := hfollows
    obtain ⟨c', hstep, hflags, hanswering, hleaving, hretrieved⟩ := leave_step h.flags hallows
    have htrue : c.retrieved = true := hleavers.retrieved_iff.mpr (by simp [hi])
    refine ⟨c', hstep, hflags, hanswering ▸ h.receiver, bystanders_set h.bystanders trivial, some i, ?_⟩
    rw [hretrieved, htrue, hleaving]
    exact hleavers.set_holder hlt (fun j hj => Option.some.inj (hj.symm.trans hi)) (hnext _)
  · rcases hleavers.idle i _ ht hi with hleave | ⟨e, he⟩
    · obtain rfl : o = .getGoodbyeFuture := by
        cases hleave
        rfl
      obtain ⟨htrue, hfalse⟩ := leave_follows hleave.symm
      have hretrieved : c.retrieved = w.session.goodbyeRetrieved := congrArg Flags.retrieved h.flags
      have hfirst : (interp .getGoodbyeFuture w.session).1 = !c.retrieved := by simp [interp, hretrieved]
      refine ⟨_, rfl, ?_, h.receiver, bystanders_set h.bystanders trivial, ?_⟩
      · simp [interp, Session.flags, h.flags]
      rw [hfirst]
      cases hr : c.retrieved with
      | true =>
        refine ⟨holder, ?_⟩
        rw [Bool.not_true, hfalse, if_pos rfl, ← hr]
        apply hleavers.set_other hi
        rintro rest ⟨⟩
        exact ⟨_, rfl⟩
      | false =>
        have hnone : holder = none := by
          by_contra hsome
          simp [hleavers.retrieved_iff.mpr hsome] at hr
        exact ⟨some i, hleavers.set_holder hlt (by simp [hnone]) htrue⟩
    · cases he

theorem Parting.step (h : Parting w c) (hs : w.step l = some w') :
    ∃ c', Farewell.step c (w.move l) = some c' ∧ Parting w' c' := by
  cases l with
  | receiver => exact h.receiver_step hs
  | thread i =>
    rcases step_thread_cases hs with ⟨operation, o, k, ht, rfl⟩ | ⟨o, k, ht, rfl⟩ | ⟨o, k, ht, rfl⟩
    · obtain ⟨ho, huses⟩ : (Prog.op o k).Uses Op.OfRequest := h.bystanders _ (List.mem_of_getElem? ht)
      refine ⟨c, by simp [World.move, ht, Farewell.step], ?_⟩
      exact h.bystander_step (by simp [ht]) (ho.flags w.session) (huses _) (by simp)
    · simpa [World.move, ht] using h.leaver_step ht
    · obtain ⟨ho, huses⟩ : (Prog.op o k).Uses Op.OfTask := h.bystanders _ (List.mem_of_getElem? ht)
      refine ⟨c, by simp [World.move, ht, Farewell.step], ?_⟩
      exact h.bystander_step (by simp [ht]) (ho.flags w.session) (huses _) (by simp)
  | request operation =>
    obtain rfl := Option.some.inj hs
    exact ⟨c, rfl, h.new_thread rfl (uses_operation operation) (by simp)⟩
  | leave =>
    obtain rfl := Option.some.inj hs
    refine ⟨c, rfl, h.new_thread rfl trivial ?_⟩
    rintro rest ⟨⟩
    rfl
  | work =>
    obtain ⟨task, tasks, -, rfl⟩ := step_work_iff.mp hs
    exact ⟨c, rfl, h.new_thread rfl (uses_task task) (by simp)⟩

end Parting

section Return

variable {w w' : World P E} {c : Farewell.State} {l : Choice P E}

def LeaveDisconnects (w : World P E) : Prop :=
  ∀ v, .leaving (.pure v) ∈ w.threads → w.session.running = false

def AwaitsAfterStop (w : World P E) (l : Choice P E) : Prop :=
  w.performs l = some .waitGoodbye → w.session.goodbyeValue ≠ none →
    w.receiver.head? ≠ some (.storeRunning false)

theorem Parting.stopping_iff (h : Parting w c) :
    c.answering = .stopping ↔ w.receiver.head? = some (.storeRunning false) := by
  have hfollows := h.receiver
  constructor
  · intro hq
    rw [hq] at hfollows
    cases hr : w.receiver with
    | op o k =>
      rw [hr] at hfollows
      cases o with
      | storeRunning b =>
        obtain rfl : b = false := hfollows.1
        rfl
      | _ => exact hfollows.1.elim
    | _ =>
      rw [hr] at hfollows
      rcases hfollows with hout | hlive
      · cases hout
      · cases hlive
  · intro hhead
    have hallows := hfollows.head hhead
    cases hq : c.answering with
    | stopping => rfl
    | _ =>
      rw [hq] at hallows
      exact hallows.elim

theorem Parting.returned_iff (h : Parting w c) (hv : Farewell.Valid c) :
    c.leaving = .returned ↔ ∃ v, .leaving (.pure v) ∈ w.threads := by
  obtain ⟨holder, hleavers⟩ := h.leavers
  constructor
  · intro hp
    have hretrieved : c.retrieved = true := hv.begun (by simp [hp])
    obtain ⟨i, hi⟩ := Option.ne_none_iff_exists'.mp (hleavers.retrieved_iff.mp hretrieved)
    obtain ⟨rest, hrest, hfollows⟩ := hleavers.holds i hi
    rw [hp] at hfollows
    cases rest with
    | pure v => exact ⟨v, List.mem_of_getElem? hrest⟩
    | op o k => exact hfollows.1.elim
    | _ => cases hfollows
  · rintro ⟨v, hv⟩
    obtain ⟨i, hi⟩ := List.mem_iff_getElem?.mp hv
    by_cases hholder : holder = some i
    · obtain ⟨rest, hrest, hfollows⟩ := hleavers.holds i hholder
      obtain rfl : .pure v = rest := by simpa [hi] using hrest
      exact hfollows
    · rcases hleavers.idle i _ hi hholder with hleave | ⟨e, he⟩
      · cases hleave
      · cases he

theorem Parting.left_iff (h : Parting w c) (hv : Farewell.Valid c) :
    Farewell.Left c ↔ LeaveDisconnects w := by
  have hrunning : c.running = w.session.running := congrArg Flags.running h.flags
  rw [Farewell.Left, h.returned_iff hv, hrunning]
  exact forall_exists_index

theorem Parting.await_iff (h : Parting w c) : w.move l = .await ↔ w.performs l = some .waitGoodbye := by
  cases l with
  | receiver =>
    refine iff_of_false (fun hmove => ?_) fun hhead => ?_
    · cases hr : w.receiver with
      | op o k => cases o <;> simp [World.move, hr, Op.answerMove] at hmove
      | _ => simp [World.move, hr] at hmove
    · have hallows := h.receiver.head hhead
      cases hq : c.answering <;> rw [hq] at hallows <;> exact hallows.elim
  | thread i =>
    cases ht : w.threads[i]? with
    | none => simp [World.move, World.performs, ht]
    | some t =>
      have hbystander := h.bystanders t (List.mem_of_getElem? ht)
      cases t with
      | leaving rest =>
        cases rest with
        | op o k => cases o <;> simp [World.move, World.performs, ht, Thread.head?, Op.leaveMove]
        | _ => simp [World.move, World.performs, ht, Thread.head?]
      | request operation rest =>
        refine iff_of_false (by simp [World.move, ht]) fun hhead => ?_
        have ho : rest.head? = some .waitGoodbye := by simpa [World.performs, ht, Thread.head?] using hhead
        exact hbystander.head ho
      | worker rest =>
        refine iff_of_false (by simp [World.move, ht]) fun hhead => ?_
        have ho : rest.head? = some .waitGoodbye := by simpa [World.performs, ht, Thread.head?] using hhead
        exact hbystander.head ho
  | _ => simp [World.move, World.performs]

theorem parting_of_exec {surroundings : Surroundings P E} {choices : List (Choice P E)}
    (hrun : exec World.step (World.start surroundings) choices = some w) :
    ∃ c, Parting w c ∧ Farewell.Valid c := by
  refine exec_invariant (I := fun w => ∃ c, Parting w c ∧ Farewell.Valid c) ?_
    ⟨Farewell.init, parting_start surroundings, Farewell.valid_init⟩ hrun
  rintro t l t' ⟨c, hc, hv⟩ hstep
  obtain ⟨c', hmove, hc'⟩ := hc.step hstep
  exact ⟨c', hc', hv.step hmove⟩

theorem Parting.answered_iff (h : Parting w c) :
    c.answered = true ↔ w.session.goodbyeValue ≠ none := by
  have hanswered : c.answered = w.session.goodbyeValue.isSome := congrArg Flags.answered h.flags
  rw [hanswered, Option.isSome_iff_ne_none]

/-- Every call of `leave` that returns in a run leaves the session disconnected just if none of them
ends its wait between the two stores of the receive thread. -/
theorem leave_disconnects_iff (surroundings : Surroundings P E) (choices : List (Choice P E)) :
    Throughout World.step LeaveDisconnects (World.start surroundings) choices ↔
      Along World.step AwaitsAfterStop (World.start surroundings) choices := by
  constructor
  · intro h pre l post t hp ht hwaits hvalue hstop
    obtain ⟨c, hc, hv⟩ := parting_of_exec ht
    obtain ⟨t', ht'⟩ := step_of_performs hwaits
    obtain ⟨c', hmove, hc'⟩ := hc.step ht'
    have hleft : LeaveDisconnects t' :=
      h (pre ++ [l]) post t' (by simp [hp]) (exec_snoc_iff.mpr ⟨t, ht, ht'⟩)
    rw [hc.await_iff.mpr hwaits] at hmove
    apply Farewell.not_left_of_await hv (hc.answered_iff.mpr hvalue) (hc.stopping_iff.mpr hstop) hmove
    exact (hc'.left_iff (hv.step hmove)).mpr hleft
  · intro h
    have hinv : Throughout World.step (fun w => ∃ c, Parting w c ∧ Farewell.Valid c ∧ Farewell.Left c)
        (World.start surroundings) choices := by
      refine throughout_of_preserves ?_ ⟨Farewell.init, parting_start surroundings, Farewell.valid_init,
        by simp [Farewell.Left, Farewell.init]⟩ h
      rintro t l t' ⟨c, hc, hv, hleft⟩ hwaits hstep
      obtain ⟨c', hmove, hc'⟩ := hc.step hstep
      refine ⟨c', hc', hv.step hmove, hleft.step hv (fun hawait hanswered hstop => ?_) hmove⟩
      exact hwaits (hc.await_iff.mp hawait) (hc.answered_iff.mp hanswered) (hc.stopping_iff.mp hstop)
    intro pre post t hp ht
    obtain ⟨c, hc, hv, hleft⟩ := hinv pre post t hp ht
    exact (hc.left_iff hv).mp hleft

theorem not_leave_disconnects : ∃ choices : List (Choice Unit Unit), ¬ Throughout World.step LeaveDisconnects
    (World.start (.receiving [.message .goodbye])) choices := by
  -- the receive thread has kept the promise but not cleared `running_` when the call returns
  refine ⟨[.leave, .thread 0, .thread 0, .thread 0, .thread 0, .receiver, .receiver, .receiver, .receiver,
    .thread 0], fun h => ?_⟩
  have hrunning := h _ [] _ (List.append_nil _).symm rfl 0 (List.mem_singleton.mpr rfl)
  cases hrunning

end Return

section Once

variable {w w' : World P E} {c : Farewell.State} {l : Choice P E}

def Thread.tests : Thread P E → Bool
  | .leaving (.op .isConnected _) => true
  | _ => false

def Thread.announces : Thread P E → Bool
  | .leaving (.op (.send _) _) => true
  | .leaving (.op (.storeGoodbyeSent _) _) => true
  | _ => false

def World.asks (w : World P E) : Bool :=
  match w.receiver with
  | .op .loadGoodbyeSent _ => true
  | _ => false

def World.replies (w : World P E) : Bool :=
  match w.receiver with
  | .op .isConnected _ => true
  | .op (.send _) _ => true
  | .op (.storeGoodbyeSent _) _ => true
  | .op (.setGoodbyeValue _) _ => true
  | .op (.storeRunning _) _ => true
  | _ => false

def OneSide (w : World P E) : Choice P E → Prop
  | .receiver => w.asks = true → ∀ t ∈ w.threads, t.announces = false
  | .thread i => ∀ t ∈ w.threads[i]?, t.tests = true → w.replies = false
  | _ => True

instance (w : World P E) : (l : Choice P E) → Decidable (OneSide w l)
  | .receiver => inferInstanceAs (Decidable (_ → ∀ t ∈ w.threads, t.announces = false))
  | .thread i => inferInstanceAs (Decidable (∀ t ∈ w.threads[i]?, t.tests = true → w.replies = false))
  | .request _ | .leave | .work => .isTrue trivial

def GoodbyeOnce (w : World P E) : Prop := w.session.sent.countP Outgoing.isGoodbye ≤ 1

theorem Parting.announces (h : Parting w c) (hv : Farewell.Valid c)
    (hp : c.leaving = .sending ∨ c.leaving = .storing) : ∃ t ∈ w.threads, t.announces = true := by
  obtain ⟨holder, hleavers⟩ := h.leavers
  have hretrieved : c.retrieved = true := hv.begun (by rcases hp with hp | hp <;> simp [hp])
  obtain ⟨i, hi⟩ := Option.ne_none_iff_exists'.mp (hleavers.retrieved_iff.mp hretrieved)
  obtain ⟨rest, hrest, hfollows⟩ := hleavers.holds i hi
  refine ⟨.leaving rest, List.mem_of_getElem? hrest, ?_⟩
  cases rest with
  | op o k =>
    rcases hp with hp | hp <;> rw [hp] at hfollows <;> cases o <;>
      first | rfl | exact hfollows.1.elim
  | _ => rcases hp with hp | hp <;> rw [hp] at hfollows <;> cases hfollows

theorem Parting.replies (h : Parting w c) (hq : ¬ c.answering.Outside) : w.replies = true := by
  have hfollows := h.receiver
  cases hr : w.receiver with
  | op o k =>
    rw [hr] at hfollows
    cases hc : c.answering with
    | out => exact absurd (.inl hc) hq
    | live => exact absurd (.inr hc) hq
    | _ =>
      rw [hc] at hfollows
      cases o <;> first | exact hfollows.1.elim | simp [World.replies, hr]
  | _ =>
    rw [hr] at hfollows
    exact absurd hfollows hq

theorem Parting.separate (h : Parting w c) (hv : Farewell.Valid c) (hone : OneSide w l) :
    Farewell.Separate c (w.move l) := by
  cases l with
  | receiver =>
    cases hr : w.receiver with
    | op o k =>
      cases o with
      | loadGoodbyeSent =>
        have hno : ¬ (c.leaving = .sending ∨ c.leaving = .storing) := by
          intro hp
          obtain ⟨t, ht, hannounces⟩ := h.announces hv hp
          simp [hone (by simp [World.asks, hr]) t ht] at hannounces
        simpa [World.move, hr, Op.answerMove, Farewell.Separate] using hno
      | _ => simp [World.move, hr, Op.answerMove, Farewell.Separate]
    | _ => simp [World.move, hr, Farewell.Separate]
  | thread i =>
    cases ht : w.threads[i]? with
    | none => simp [World.move, ht, Farewell.Separate]
    | some t =>
      cases t with
      | leaving rest =>
        cases rest with
        | op o k =>
          cases o with
          | isConnected =>
            have houtside : c.answering.Outside := by
              by_contra hq
              have hreplies := h.replies hq
              simp [hone _ ht rfl] at hreplies
            simpa [World.move, ht, Op.leaveMove, Farewell.Separate] using houtside
          | _ => simp [World.move, ht, Op.leaveMove, Farewell.Separate]
        | _ => simp [World.move, ht, Farewell.Separate]
      | _ => simp [World.move, ht, Farewell.Separate]
  | _ => simp [World.move, Farewell.Separate]

theorem goodbye_once (surroundings : Surroundings P E) (choices : List (Choice P E))
    (hone : Along World.step OneSide (World.start surroundings) choices) :
    Throughout World.step GoodbyeOnce (World.start surroundings) choices := by
  have hinv : Throughout World.step (fun w => ∃ c, Parting w c ∧ Farewell.Valid c ∧ Farewell.Once c)
      (World.start surroundings) choices := by
    refine throughout_of_preserves ?_ ⟨Farewell.init, parting_start surroundings, Farewell.valid_init,
      Farewell.once_init⟩ hone
    rintro t l t' ⟨c, hc, hv, honce⟩ hl hstep
    obtain ⟨c', hmove, hc'⟩ := hc.step hstep
    exact ⟨c', hc', hv.step hmove, honce.step hv (hc.separate hv hl) hmove⟩
  intro pre post t hp ht
  obtain ⟨c, hc, hv, honce⟩ := hinv pre post t hp ht
  have hcount : c.goodbyes = t.session.sent.countP Outgoing.isGoodbye := congrArg Flags.goodbyes hc.flags
  rw [GoodbyeOnce, ← hcount]
  exact honce.once

theorem goodbye_once_left : ∃ (choices : List (Choice Unit Unit)) (w : World Unit Unit),
    let surroundings : Surroundings Unit Unit := .receiving [.message .goodbye]
    exec World.step (World.start surroundings) choices = some w ∧ w.session.running = false ∧
      Throughout World.step GoodbyeOnce (World.start surroundings) choices :=
  ⟨[.leave, .thread 0, .thread 0, .thread 0, .thread 0, .receiver, .receiver, .receiver, .receiver,
    .receiver, .thread 0], _, rfl, rfl, goodbye_once _ _ (by decide +kernel)⟩

theorem not_goodbye_once : ∃ choices : List (Choice Unit Unit), ¬ Throughout World.step GoodbyeOnce
    (World.start (.receiving [.message .goodbye])) choices := by
  -- the call has passed its test of `running_` when the receive thread finds no `goodbye_sent`
  refine ⟨[.leave, .thread 0, .thread 0, .receiver, .receiver, .receiver, .receiver, .receiver, .thread 0],
    fun h => ?_⟩
  have honce : 2 ≤ 1 := h _ [] _ (List.append_nil _).symm rfl
  omega

end Once

end XconnCpp.Sessions

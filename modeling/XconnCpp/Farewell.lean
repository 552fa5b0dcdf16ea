import XconnCpp.Library.Transition

namespace XconnCpp.Farewell

open Library.Transition

inductive Answering
  | out
  | live
  | asking
  | sending
  | storing
  | ending
  | stopping
  deriving DecidableEq

inductive Leaving
  | before
  | testing
  | sending
  | storing
  | waiting
  | returned
  | failed
  deriving DecidableEq

def Answering.Outside (q : Answering) : Prop := q = .out ∨ q = .live

def Leaving.Over (p : Leaving) : Prop := p = .waiting ∨ p = .returned ∨ p = .failed

structure Flags where
  running : Bool
  goodbyeSent : Bool
  retrieved : Bool
  answered : Bool
  goodbyes : ℕ

structure State extends Flags where
  answering : Answering
  leaving : Leaving

def init : State := ⟨⟨true, false, false, false, 0⟩, .out, .before⟩

inductive Move
  | aside
  | rest
  | wake
  | ask
  | confirm
  | reply
  | note
  | settle
  | stop
  | begin
  | test
  | say
  | store
  | await

def step (s : State) : Move → Option State
  | .aside => some s
  | .rest => if s.answering = .out ∨ s.answering = .live then some { s with answering := .out } else none
  | .wake =>
    if s.answering = .out then some { s with answering := if s.running then .live else .out } else none
  | .ask =>
    if s.answering = .live then some { s with answering := if s.goodbyeSent then .ending else .asking }
    else none
  | .confirm =>
    if s.answering = .asking then some { s with answering := if s.running then .sending else .live }
    else none
  | .reply =>
    if s.answering = .sending then some { s with goodbyes := s.goodbyes + 1, answering := .storing }
    else none
  | .note =>
    if s.answering = .storing then some { s with goodbyeSent := true, answering := .ending } else none
  | .settle =>
    if s.answering = .ending then
      some { s with answered := true, answering := if s.answered then .live else .stopping }
    else none
  | .stop => if s.answering = .stopping then some { s with running := false, answering := .out } else none
  | .begin => some { s with
      retrieved := true
      leaving := if s.retrieved then s.leaving else .testing }
  | .test =>
    if s.leaving = .testing then some { s with leaving := if s.running then .sending else .failed } else none
  | .say =>
    if s.leaving = .sending then some { s with goodbyes := s.goodbyes + 1, leaving := .storing } else none
  | .store =>
    if s.leaving = .storing then some { s with goodbyeSent := true, leaving := .waiting } else none
  | .await =>
    if s.leaving = .waiting then some { s with leaving := if s.answered then .returned else .failed }
    else none

theorem guarded_iff {p : Prop} [Decidable p] {s s' : State} :
    (if p then some s else none) = some s' ↔ p ∧ s' = s := by
  simp [eq_comm]

structure Valid (s : State) : Prop where
  live : s.answering ≠ .out → s.running = true
  stopping : s.running = true → s.answered = true → s.answering = .stopping
  begun : s.leaving ≠ .before → s.retrieved = true

theorem valid_init : Valid init := by
  constructor <;> simp [init]

theorem Valid.step {s s' : State} {e : Move} (h : Valid s) (hs : step s e = some s') : Valid s' := by
  have hopen {q : Answering} (hq : s.answering = q) (hne : q ≠ .stopping) (hrunning : s.running = true)
      (hanswered : s.answered = true) : False :=
    hne (hq ▸ h.stopping hrunning hanswered)
  have hrunning {q : Answering} (hq : s.answering = q) (hne : q ≠ .out) : s.running = true :=
    h.live (hq ▸ hne)
  cases e with
  | aside =>
    obtain rfl := Option.some.inj hs
    exact h
  | rest =>
    obtain ⟨hq | hq, rfl⟩ := guarded_iff.mp hs
    · exact ⟨by simp, fun hr ha => (hopen hq (by simp) hr ha).elim, h.begun⟩
    · exact ⟨by simp, fun hr ha => (hopen hq (by simp) hr ha).elim, h.begun⟩
  | wake =>
    obtain ⟨hq, rfl⟩ := guarded_iff.mp hs
    exact ⟨by simp, fun hr ha => (hopen hq (by simp) hr ha).elim, h.begun⟩
  | ask | confirm | reply | note =>
    obtain ⟨hq, rfl⟩ := guarded_iff.mp hs
    exact ⟨fun _ => hrunning hq (by simp), fun hr ha => (hopen hq (by simp) hr ha).elim, h.begun⟩
  | settle =>
    obtain ⟨hq, rfl⟩ := guarded_iff.mp hs
    refine ⟨fun _ => hrunning hq (by simp), fun hr _ => if_neg fun ha => ?_, h.begun⟩
    exact hopen hq (by simp) hr ha
  | stop =>
    obtain ⟨hq, rfl⟩ := guarded_iff.mp hs
    exact ⟨by simp, by simp, h.begun⟩
  | begin =>
    obtain rfl := Option.some.inj hs
    exact ⟨h.live, h.stopping, by simp⟩
  | test | say | store | await =>
    obtain ⟨hp, rfl⟩ := guarded_iff.mp hs
    exact ⟨h.live, h.stopping, fun _ => h.begun (by simp [hp])⟩

section Return

variable {s s' : State} {e : Move}

def Left (s : State) : Prop := s.leaving = .returned → s.running = false

theorem Left.step (h : Left s) (hv : Valid s)
    (he : e = .await → s.answered = true → s.answering ≠ .stopping)
    (hs : step s e = some s') : Left s' := by
  intro hreturned
  cases e with
  | await =>
    obtain ⟨hp, rfl⟩ := guarded_iff.mp hs
    have hanswered : s.answered = true := by
      by_contra hno
      simp [hno] at hreturned
    by_contra hrunning
    exact he rfl hanswered (hv.stopping (by simpa using hrunning) hanswered)
  | aside =>
    obtain rfl := Option.some.inj hs
    exact h hreturned
  | begin =>
    obtain rfl := Option.some.inj hs
    cases hr : s.retrieved <;> simp_all [Left]
  | rest | wake | ask | confirm | reply | note | settle =>
    obtain ⟨-, rfl⟩ := guarded_iff.mp hs
    exact h hreturned
  | stop =>
    obtain ⟨-, rfl⟩ := guarded_iff.mp hs
    rfl
  | test =>
    obtain ⟨-, rfl⟩ := guarded_iff.mp hs
    cases hr : s.running <;> simp [hr] at hreturned
  | say | store =>
    obtain ⟨-, rfl⟩ := guarded_iff.mp hs
    cases hreturned

theorem not_left_of_await (hv : Valid s) (hanswered : s.answered = true)
    (hstopping : s.answering = .stopping) (hs : step s .await = some s') : ¬ Left s' := by
  obtain ⟨hp, rfl⟩ := guarded_iff.mp hs
  intro hleft
  -- the promise has been kept, `running_` has not been cleared
  have hrunning : s.running = true := hv.live (by simp [hstopping])
  have hstopped : s.running = false := hleft (by simp [hanswered])
  simp [hrunning] at hstopped

end Return

/-- Neither side acts while the other is between its own test and the store that makes it known. -/
def Separate (s : State) : Move → Prop
  | .ask => s.leaving ≠ .sending ∧ s.leaving ≠ .storing
  | .test => s.answering.Outside
  | _ => True

structure Once (s : State) : Prop where
  alone : s.leaving = .sending ∨ s.leaving = .storing → s.running = true ∧ s.answering.Outside
  noted : s.running = true → s.answering.Outside → s.leaving.Over → s.goodbyeSent = true
  unsent : s.running = true → s.answering.Outside →
    s.leaving = .before ∨ s.leaving = .testing ∨ s.leaving = .sending → s.goodbyes = 0
  unanswered : s.answering = .asking ∨ s.answering = .sending → s.goodbyes = 0
  once : s.goodbyes ≤ 1

theorem once_init : Once init := by
  constructor <;> simp [init, Leaving.Over]

theorem Once.unsent_of_ask {s : State} (h : Once s) (hv : Valid s) (hq : s.answering = .live)
    (he : Separate s .ask) (hsent : s.goodbyeSent = false) : s.goodbyes = 0 := by
  have hrunning : s.running = true := hv.live (by simp [hq])
  have hover : ¬ s.leaving.Over := by
    intro hover
    have hnoted := h.noted hrunning (.inr hq) hover
    simp [hsent] at hnoted
  apply h.unsent hrunning (.inr hq)
  -- a call past its store would have been noticed, one on its way is excluded by `he`
  cases hl : s.leaving with
  | before | testing => simp
  | sending => exact absurd hl he.1
  | storing => exact absurd hl he.2
  | waiting | returned | failed => simp [hl, Leaving.Over] at hover

theorem Once.apart {s : State} (h : Once s) (hq : ¬ s.answering.Outside) :
    s.leaving ≠ .sending ∧ s.leaving ≠ .storing :=
  ⟨fun hp => hq (h.alone (.inl hp)).2, fun hp => hq (h.alone (.inr hp)).2⟩

theorem once_of_inside {s : State} (hq : ¬ s.answering.Outside)
    (hp : s.leaving ≠ .sending ∧ s.leaving ≠ .storing)
    (hzero : s.answering = .asking ∨ s.answering = .sending → s.goodbyes = 0) (hone : s.goodbyes ≤ 1) :
    Once s := by
  constructor
  · rintro (hsending | hstoring)
    · exact absurd hsending hp.1
    · exact absurd hstoring hp.2
  · exact fun _ houtside => absurd houtside hq
  · exact fun _ houtside => absurd houtside hq
  · exact hzero
  · exact hone

theorem Once.outside {s : State} (h : Once s) (hs : s.answering.Outside) {q : Answering}
    (hq : q.Outside) : Once { s with answering := q } := by
  constructor
  · exact fun hp => ⟨(h.alone hp).1, hq⟩
  · exact fun hrunning _ => h.noted hrunning hs
  · exact fun hrunning _ => h.unsent hrunning hs
  · rintro (hasking | hsending) <;> rcases hq with rfl | rfl <;> simp_all
  · exact h.once

theorem Once.step {s s' : State} {e : Move} (h : Once s) (hv : Valid s) (he : Separate s e)
    (hs : step s e = some s') : Once s' := by
  have hinside {q : Answering} (hs : s.answering = q) (hq : ¬ q.Outside) :
      s.leaving ≠ .sending ∧ s.leaving ≠ .storing := h.apart (hs ▸ hq)
  cases e with
  | aside =>
    obtain rfl := Option.some.inj hs
    exact h
  | rest =>
    obtain ⟨hq, rfl⟩ := guarded_iff.mp hs
    exact h.outside hq (.inl rfl)
  | wake =>
    obtain ⟨hq, rfl⟩ := guarded_iff.mp hs
    apply h.outside (.inl hq)
    cases s.running <;> simp [Answering.Outside]
  | ask =>
    obtain ⟨hq, rfl⟩ := guarded_iff.mp hs
    have hzero := h.unsent_of_ask hv hq he
    cases hsent : s.goodbyeSent with
    | true => exact once_of_inside (by simp [Answering.Outside]) he (by simp) h.once
    | false => exact once_of_inside (by simp [Answering.Outside]) he (fun _ => hzero hsent) h.once
  | confirm =>
    obtain ⟨hq, rfl⟩ := guarded_iff.mp hs
    have hrunning : s.running = true := hv.live (by simp [hq])
    rw [if_pos hrunning]
    refine once_of_inside (by simp [Answering.Outside]) (hinside hq (by simp [Answering.Outside])) ?_ h.once
    exact fun _ => h.unanswered (.inl hq)
  | reply =>
    obtain ⟨hq, rfl⟩ := guarded_iff.mp hs
    have hzero : s.goodbyes = 0 := h.unanswered (.inr hq)
    refine once_of_inside (by simp [Answering.Outside]) (hinside hq (by simp [Answering.Outside])) (by simp) ?_
    simp [hzero]
  | note =>
    obtain ⟨hq, rfl⟩ := guarded_iff.mp hs
    exact once_of_inside (by simp [Answering.Outside]) (hinside hq (by simp [Answering.Outside])) (by simp)
      h.once
  | settle =>
    obtain ⟨hq, rfl⟩ := guarded_iff.mp hs
    have hanswered : ¬ s.answered = true := by
      intro hanswered
      have hstopping := hv.stopping (hv.live (by simp [hq])) hanswered
      simp [hq] at hstopping
    rw [if_neg hanswered]
    exact once_of_inside (by simp [Answering.Outside]) (hinside hq (by simp [Answering.Outside])) (by simp)
      h.once
  | stop =>
    obtain ⟨hq, rfl⟩ := guarded_iff.mp hs
    obtain ⟨hsending, hstoring⟩ := hinside hq (by simp [Answering.Outside])
    exact ⟨by simp [hsending, hstoring], by simp, by simp, by simp, h.once⟩
  | begin =>
    obtain rfl := Option.some.inj hs
    cases hr : s.retrieved with
    | true => exact ⟨h.alone, h.noted, h.unsent, h.unanswered, h.once⟩
    | false =>
      have hbefore : s.leaving = .before := by
        by_contra hp
        simp [hv.begun hp] at hr
      refine ⟨by simp, by simp [Leaving.Over], fun hrunning houtside _ => ?_, h.unanswered, h.once⟩
      exact h.unsent hrunning houtside (.inl hbefore)
  | test =>
    obtain ⟨hp, rfl⟩ := guarded_iff.mp hs
    cases hr : s.running with
    | true =>
      refine ⟨fun _ => ⟨hr, he⟩, by simp [Leaving.Over], fun hrunning houtside _ => ?_, h.unanswered, h.once⟩
      exact h.unsent hrunning houtside (.inr (.inl hp))
    | false => exact ⟨by simp, by simp [hr], by simp, h.unanswered, h.once⟩
  | say =>
    obtain ⟨hp, rfl⟩ := guarded_iff.mp hs
    obtain ⟨hrunning, houtside⟩ := h.alone (.inl hp)
    have hzero : s.goodbyes = 0 := h.unsent hrunning houtside (.inr (.inr hp))
    have hquiet : ¬ (s.answering = .asking ∨ s.answering = .sending) := by
      rcases houtside with hq | hq <;> simp [hq]
    exact ⟨fun _ => ⟨hrunning, houtside⟩, by simp [Leaving.Over], by simp, fun hq => absurd hq hquiet,
      by simp [hzero]⟩
  | store =>
    obtain ⟨hp, rfl⟩ := guarded_iff.mp hs
    exact ⟨by simp, fun _ _ _ => rfl, by simp, h.unanswered, h.once⟩
  | await =>
    obtain ⟨hp, rfl⟩ := guarded_iff.mp hs
    have hnoted (hrunning : s.running = true) (houtside : s.answering.Outside) : s.goodbyeSent = true :=
      h.noted hrunning houtside (.inl hp)
    cases hanswered : s.answered <;>
      exact ⟨by simp, fun hrunning houtside _ => hnoted hrunning houtside, by simp, h.unanswered, h.once⟩

end XconnCpp.Farewell

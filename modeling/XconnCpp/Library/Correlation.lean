import XconnCpp.Library.Transition
import Mathlib.Logic.Function.Basic

namespace XconnCpp.Library.Correlation

open Transition

inductive Event (K T A R : Type)
  | enter (key : K) (token : T)
  | hand (key : K)
  | receive (answer : A)
  | take (key : K) (found : Option T)
  | complete (token : T) (content : R)

inductive Phase (T A : Type)
  | idle
  | got (answer : A)
  | owes (token : T) (answer : A)

structure State (K T A R : Type) where
  pending : K → Option T
  entered : K → T → Prop
  completed : T → Option R
  phase : Phase T A

variable {K T A R : Type}

def init : State K T A R := ⟨fun _ => none, fun _ _ => False, fun _ => none, .idle⟩

def Event.Aside : Event K T A R → Prop
  | .enter _ _ => True
  | .hand _ => True
  | _ => False

def Phase.after (answer : A) : Option T → Phase T A
  | some token => .owes token answer
  | none => .idle

def Phase.Free (answers : A → Option K) : Phase T A → Prop
  | .idle => True
  | .got answer => answers answer = none
  | .owes _ _ => False

section

variable [DecidableEq K] [DecidableEq T] (answers : A → Option K) (content : A → R)

open Classical in
noncomputable def step (s : State K T A R) : Event K T A R → Option (State K T A R)
  | .enter key token =>
    if s.pending key = none ∧ ∀ j, ¬ s.entered j token then
      some { s with
        pending := Function.update s.pending key (some token)
        entered := fun j t => j = key ∧ t = token ∨ s.entered j t }
    else none
  | .hand key => if ∃ t, s.entered key t then some s else none
  | .receive answer => if s.phase.Free answers then some { s with phase := .got answer } else none
  | .take key found =>
    match s.phase with
    | .got answer =>
      if answers answer = some key ∧ found = s.pending key then
        some { s with pending := Function.update s.pending key none, phase := .after answer found }
      else none
    | _ => none
  | .complete token r =>
    match s.phase with
    | .owes t answer =>
      if t = token ∧ r = content answer then
        some { s with completed := Function.update s.completed token (some r), phase := .idle }
      else none
    | _ => none

variable {answers content} {s s' : State K T A R} {key : K} {token : T} {answer : A} {r : R}
  {found : Option T}

theorem step_enter_iff : step answers content s (.enter key token) = some s' ↔
    s.pending key = none ∧ (∀ j, ¬ s.entered j token) ∧ s' = { s with
      pending := Function.update s.pending key (some token)
      entered := fun j t => j = key ∧ t = token ∨ s.entered j t } := by
  simp only [step, Option.ite_none_right_eq_some, Option.some.injEq, and_assoc]
  exact and_congr_right fun _ => and_congr_right fun _ => eq_comm

theorem step_hand_iff : step answers content s (.hand key) = some s' ↔
    (∃ t, s.entered key t) ∧ s' = s := by
  simp [step, eq_comm]

theorem step_receive_iff : step answers content s (.receive answer) = some s' ↔
    s.phase.Free answers ∧ s' = { s with phase := .got answer } := by
  simp [step, eq_comm]

theorem step_take_iff : step answers content s (.take key found) = some s' ↔
    ∃ answer, s.phase = .got answer ∧ answers answer = some key ∧ found = s.pending key ∧
      s' = { s with pending := Function.update s.pending key none, phase := .after answer found } := by
  cases h : s.phase with
  | got a =>
    simp only [step, h, Option.ite_none_right_eq_some, Option.some.injEq, Phase.got.injEq]
    constructor
    · rintro ⟨⟨ha, hf⟩, rfl⟩
      exact ⟨a, rfl, ha, hf, rfl⟩
    · rintro ⟨a, rfl, ha, hf, rfl⟩
      exact ⟨⟨ha, hf⟩, rfl⟩
  | _ => simp [step, h]

theorem step_complete_iff : step answers content s (.complete token r) = some s' ↔
    ∃ answer, s.phase = .owes token answer ∧ r = content answer ∧
      s' = { s with completed := Function.update s.completed token (some r), phase := .idle } := by
  cases h : s.phase with
  | owes t a =>
    simp only [step, h, Option.ite_none_right_eq_some, Option.some.injEq, Phase.owes.injEq]
    constructor
    · rintro ⟨⟨rfl, hr⟩, rfl⟩
      exact ⟨a, ⟨rfl, rfl⟩, hr, rfl⟩
    · rintro ⟨a, ⟨rfl, rfl⟩, hr, rfl⟩
      exact ⟨⟨rfl, hr⟩, rfl⟩
  | _ => simp [step, h]

structure Valid (s : State K T A R) : Prop where
  pending_entered : ∀ k t, s.pending k = some t → s.entered k t
  pending_open : ∀ k t, s.pending k = some t → s.completed t = none
  pending_unique : ∀ j k t, s.pending j = some t → s.pending k = some t → j = k
  owed_entered : ∀ t a, s.phase = .owes t a → ∃ k, s.entered k t
  owed_open : ∀ t a, s.phase = .owes t a → s.completed t = none
  owed_taken : ∀ t a k, s.phase = .owes t a → s.pending k ≠ some t
  completed_entered : ∀ t, s.completed t ≠ none → ∃ k, s.entered k t

theorem Valid.enter (hs : Valid s) (h : step answers content s (.enter key token) = some s') :
    Valid s' := by
  obtain ⟨hkey, hnew, rfl⟩ := step_enter_iff.mp h
  have hother {k : K} {t : T} (hk : Function.update s.pending key (some token) k = some t) :
      k = key ∧ t = token ∨ k ≠ key ∧ s.pending k = some t := by
    by_cases hkk : k = key
    · subst hkk
      rw [Function.update_self] at hk
      exact .inl ⟨rfl, (Option.some.inj hk).symm⟩
    · rw [Function.update_of_ne hkk] at hk
      exact .inr ⟨hkk, hk⟩
  have hlater {t : T} (ht : ∃ k, s.entered k t) :
      ∃ k, k = key ∧ t = token ∨ s.entered k t := by
    obtain ⟨k, hk⟩ := ht
    exact ⟨k, .inr hk⟩
  constructor
  · intro k t hk
    rcases hother hk with hnow | ⟨-, hk⟩
    · exact .inl hnow
    · exact .inr (hs.pending_entered k t hk)
  · intro k t hk
    rcases hother hk with ⟨-, rfl⟩ | ⟨-, hk⟩
    · by_contra hc
      obtain ⟨j, hj⟩ := hs.completed_entered t hc
      exact hnew j hj
    · exact hs.pending_open k t hk
  · intro j k t hj hk
    rcases hother hj with ⟨hjk, htj⟩ | ⟨-, hpj⟩ <;> rcases hother hk with ⟨hkk, htk⟩ | ⟨-, hpk⟩
    · rw [hjk, hkk]
    · exact absurd (htj ▸ hs.pending_entered k t hpk) (hnew k)
    · exact absurd (htk ▸ hs.pending_entered j t hpj) (hnew j)
    · exact hs.pending_unique j k t hpj hpk
  · exact fun t a ht => hlater (hs.owed_entered t a ht)
  · exact hs.owed_open
  · intro t a k ht hk
    rcases hother hk with ⟨-, rfl⟩ | ⟨-, hk⟩
    · obtain ⟨j, hj⟩ := hs.owed_entered t a ht
      exact hnew j hj
    · exact hs.owed_taken t a k ht hk
  · exact fun t ht => hlater (hs.completed_entered t ht)

theorem Valid.take (hs : Valid s) (h : step answers content s (.take key found) = some s') :
    Valid s' := by
  obtain ⟨answer, -, -, rfl, rfl⟩ := step_take_iff.mp h
  have hother {k : K} {t : T} (hk : Function.update s.pending key none k = some t) :
      k ≠ key ∧ s.pending k = some t := by
    by_cases hkk : k = key
    · simp [hkk] at hk
    · exact ⟨hkk, by rwa [Function.update_of_ne hkk] at hk⟩
  have howes {t : T} {a : A} (ht : Phase.after answer (s.pending key) = .owes t a) :
      s.pending key = some t := by
    cases hp : s.pending key with
    | none => simp [hp, Phase.after] at ht
    | some u =>
      rw [hp, Phase.after] at ht
      cases ht
      rfl
  constructor
  · exact fun k t hk => hs.pending_entered k t (hother hk).2
  · exact fun k t hk => hs.pending_open k t (hother hk).2
  · exact fun j k t hj hk => hs.pending_unique j k t (hother hj).2 (hother hk).2
  · exact fun t a ht => ⟨key, hs.pending_entered key t (howes ht)⟩
  · exact fun t a ht => hs.pending_open key t (howes ht)
  · intro t a k ht hk
    exact (hother hk).1 (hs.pending_unique k key t (hother hk).2 (howes ht))
  · exact hs.completed_entered

theorem Valid.complete (hs : Valid s) (h : step answers content s (.complete token r) = some s') :
    Valid s' := by
  obtain ⟨answer, howes, -, rfl⟩ := step_complete_iff.mp h
  constructor
  · exact hs.pending_entered
  · intro k t hk
    have hne : t ≠ token := fun ht => hs.owed_taken token answer k howes (ht ▸ hk)
    simpa only [Function.update_of_ne hne] using hs.pending_open k t hk
  · exact hs.pending_unique
  · simp
  · simp
  · simp
  · intro t ht
    by_cases hne : t = token
    · exact hne ▸ hs.owed_entered token answer howes
    · exact hs.completed_entered t (by simpa only [Function.update_of_ne hne] using ht)

theorem Valid.step {e : Event K T A R} (hs : Valid s) (h : step answers content s e = some s') :
    Valid s' := by
  cases e with
  | enter key token => exact hs.enter h
  | hand key =>
    obtain ⟨-, rfl⟩ := step_hand_iff.mp h
    exact hs
  | receive answer =>
    obtain ⟨-, rfl⟩ := step_receive_iff.mp h
    exact ⟨hs.pending_entered, hs.pending_open, hs.pending_unique, by simp, by simp, by simp,
      hs.completed_entered⟩
  | take key found => exact hs.take h
  | complete token r => exact hs.complete h

omit [DecidableEq K] [DecidableEq T] in
theorem valid_init : Valid (init : State K T A R) := by
  constructor <;> simp [init]

theorem valid_of_exec {h : List (Event K T A R)} (he : exec (step answers content) init h = some s) :
    Valid s :=
  exec_invariant (I := Valid) (fun _ _ _ ht hl => ht.step hl) valid_init he

section History

variable {h : List (Event K T A R)}

theorem pending_iff (he : exec (step answers content) init h = some s) :
    s.pending key = some token ↔
      ∃ pre post, h = pre ++ .enter key token :: post ∧ ∀ f, .take key f ∉ post := by
  have hsince := exec_since_label_iff (fun u : State K T A R => u.pending key = some token)
    (fun _ e => e = .enter key token) (fun e => ∃ f, e = .take key f) ?_ (by simp [init]) he
  · rw [hsince]
    constructor
    · rintro ⟨pre, e, post, t, rfl, -, rfl, hpost⟩
      exact ⟨pre, post, rfl, fun f hf => hpost _ hf ⟨f, rfl⟩⟩
    · rintro ⟨pre, post, rfl, hpost⟩
      obtain ⟨t, ht⟩ := exec_prefix he
      exact ⟨pre, _, post, t, rfl, ht, rfl, by rintro e he ⟨f, rfl⟩; exact hpost f he⟩
  · intro t e t' hstep
    cases e with
    | enter k u =>
      obtain ⟨hk, -, rfl⟩ := step_enter_iff.mp hstep
      by_cases hkk : key = k
      · subst hkk
        simp [hk, eq_comm]
      · simp [Function.update_of_ne hkk, Ne.symm hkk]
    | hand k =>
      obtain ⟨-, rfl⟩ := step_hand_iff.mp hstep
      simp
    | receive a =>
      obtain ⟨-, rfl⟩ := step_receive_iff.mp hstep
      simp
    | take k f =>
      obtain ⟨a, -, -, -, rfl⟩ := step_take_iff.mp hstep
      by_cases hkk : key = k
      · subst hkk
        simp
      · simp [Function.update_of_ne hkk, Ne.symm hkk]
    | complete u r =>
      obtain ⟨a, -, -, rfl⟩ := step_complete_iff.mp hstep
      simp

theorem got_iff (he : exec (step answers content) init h = some s) :
    s.phase = .got answer ↔
      ∃ pre post, h = pre ++ .receive answer :: post ∧ ∀ e ∈ post, e.Aside := by
  have hsince := exec_since_label_iff (fun u : State K T A R => u.phase = .got answer)
    (fun _ e => e = .receive answer) (fun e => ¬ e.Aside) ?_ (by simp [init]) he
  · rw [hsince]
    constructor
    · rintro ⟨pre, e, post, t, rfl, -, rfl, hpost⟩
      exact ⟨pre, post, rfl, fun e hm => not_not.mp (hpost e hm)⟩
    · rintro ⟨pre, post, rfl, hpost⟩
      obtain ⟨t, ht⟩ := exec_prefix he
      exact ⟨pre, _, post, t, rfl, ht, rfl, fun e hm => not_not.mpr (hpost e hm)⟩
  · intro t e t' hstep
    cases e with
    | enter k u =>
      obtain ⟨-, -, rfl⟩ := step_enter_iff.mp hstep
      simp [Event.Aside]
    | hand k =>
      obtain ⟨-, rfl⟩ := step_hand_iff.mp hstep
      simp [Event.Aside]
    | receive a =>
      obtain ⟨-, rfl⟩ := step_receive_iff.mp hstep
      simp [Event.Aside]
    | take k f =>
      obtain ⟨a, -, -, -, rfl⟩ := step_take_iff.mp hstep
      cases f <;> simp [Event.Aside, Phase.after]
    | complete u r =>
      obtain ⟨a, -, -, rfl⟩ := step_complete_iff.mp hstep
      simp [Event.Aside]

theorem owes_taken (he : exec (step answers content) init h = some s)
    (howes : s.phase = .owes token answer) :
    ∃ pre key post t, h = pre ++ .take key (some token) :: post ∧
      exec (step answers content) init pre = some t ∧ t.phase = .got answer ∧
      answers answer = some key ∧ t.pending key = some token ∧ ∀ e ∈ post, e.Aside := by
  have hsince := exec_since_label_iff (fun u : State K T A R => u.phase = .owes token answer)
    (fun t e => ∃ key, e = .take key (some token) ∧ t.phase = .got answer ∧
      answers answer = some key ∧ t.pending key = some token) (fun e => ¬ e.Aside) ?_ (by simp [init]) he
  · obtain ⟨pre, e, post, t, rfl, ht, ⟨key, rfl, hgot, hkey, hp⟩, hpost⟩ := hsince.mp howes
    exact ⟨pre, key, post, t, rfl, ht, hgot, hkey, hp, fun e hm => not_not.mp (hpost e hm)⟩
  · intro t e t' hstep
    cases e with
    | enter k u =>
      obtain ⟨-, -, rfl⟩ := step_enter_iff.mp hstep
      simp [Event.Aside]
    | hand k =>
      obtain ⟨-, rfl⟩ := step_hand_iff.mp hstep
      simp [Event.Aside]
    | receive a =>
      obtain ⟨-, rfl⟩ := step_receive_iff.mp hstep
      simp [Event.Aside]
    | take k f =>
      obtain ⟨a, hgot, hk, hf, rfl⟩ := step_take_iff.mp hstep
      cases f with
      | none => simp [Event.Aside, Phase.after]
      | some u =>
        simp only [Phase.after, Phase.owes.injEq, Event.Aside, not_false_eq_true, not_true_eq_false,
          and_false, or_false, Event.take.injEq, Option.some.injEq]
        constructor
        · rintro ⟨rfl, rfl⟩
          exact ⟨k, ⟨rfl, rfl⟩, hgot, hk, hf.symm⟩
        · rintro ⟨j, ⟨rfl, rfl⟩, hga, -, -⟩
          exact ⟨rfl, Phase.got.inj (hgot.symm.trans hga)⟩
    | complete u r =>
      obtain ⟨a, -, -, rfl⟩ := step_complete_iff.mp hstep
      simp [Event.Aside]

theorem entered_iff (he : exec (step answers content) init h = some s) :
    s.entered key token ↔ .enter key token ∈ h := by
  induction h using List.reverseRecOn generalizing s with
  | nil =>
    obtain rfl : init = s := by simpa using he
    simp [init]
  | append_singleton h e ih =>
    obtain ⟨t, ht, hstep⟩ := exec_snoc_iff.mp he
    rw [List.mem_append, List.mem_singleton, ← ih ht]
    cases e with
    | enter k u =>
      obtain ⟨-, -, rfl⟩ := step_enter_iff.mp hstep
      simp [or_comm]
    | hand k =>
      obtain ⟨-, rfl⟩ := step_hand_iff.mp hstep
      simp
    | receive a =>
      obtain ⟨-, rfl⟩ := step_receive_iff.mp hstep
      simp
    | take k f =>
      obtain ⟨a, -, -, -, rfl⟩ := step_take_iff.mp hstep
      simp
    | complete u r =>
      obtain ⟨a, -, -, rfl⟩ := step_complete_iff.mp hstep
      simp

theorem completed_iff (he : exec (step answers content) init h = some s) :
    s.completed token = some r ↔ .complete token r ∈ h := by
  induction h using List.reverseRecOn generalizing s with
  | nil =>
    obtain rfl : init = s := by simpa using he
    simp [init]
  | append_singleton h e ih =>
    obtain ⟨t, ht, hstep⟩ := exec_snoc_iff.mp he
    rw [List.mem_append, List.mem_singleton, ← ih ht]
    cases e with
    | enter k u =>
      obtain ⟨-, -, rfl⟩ := step_enter_iff.mp hstep
      simp
    | hand k =>
      obtain ⟨-, rfl⟩ := step_hand_iff.mp hstep
      simp
    | receive a =>
      obtain ⟨-, rfl⟩ := step_receive_iff.mp hstep
      simp
    | take k f =>
      obtain ⟨a, -, -, -, rfl⟩ := step_take_iff.mp hstep
      simp
    | complete u r' =>
      obtain ⟨a, howes, -, rfl⟩ := step_complete_iff.mp hstep
      have hopen := (valid_of_exec ht).owed_open u a howes
      by_cases hu : token = u
      · subst hu
        simp [hopen, eq_comm]
      · simp [hu]

structure Correlated (answers : A → Option K) (content : A → R) (h : List (Event K T A R)) : Prop where
  enter_once : ∀ x z k t, h = x ++ .enter k t :: z → ∀ j, .enter j t ∉ x
  hand_entered : ∀ x z k, h = x ++ .hand k :: z → ∃ t, .enter k t ∈ x
  /-- The first answer that is received for a request takes its token and completes it. -/
  answered : ∀ x y z k t a, h = x ++ .enter k t :: (y ++ .receive a :: z) → answers a = some k →
    (∀ f, .take k f ∉ y) → (∀ e ∈ z, e.Aside) ∨
      ∃ v w, z = v ++ .take k (some t) :: w ∧ (∀ e ∈ v, e.Aside) ∧
        ((∀ e ∈ w, e.Aside) ∨ ∃ p q, w = p ++ .complete t (content a) :: q ∧ ∀ e ∈ p, e.Aside)
  /-- The first answer after a request finds the token of it. -/
  first_take : ∀ x y z k t found, h = x ++ .enter k t :: (y ++ .take k found :: z) →
    (∀ f, .take k f ∉ y) → found = some t
  later_take : ∀ x y z k f found, h = x ++ .take k f :: (y ++ .take k found :: z) →
    (∀ t, .enter k t ∉ y) → found = none
  /-- What is taken is taken by an answer to it, and next completed with the content of that answer. -/
  take_answers : ∀ x z k found, h = x ++ .take k found :: z →
    ∃ u a v, x = u ++ .receive a :: v ∧ (∀ e ∈ v, e.Aside) ∧ answers a = some k ∧
      ∀ t, found = some t →
        (∀ e ∈ z, e.Aside) ∨ ∃ v w, z = v ++ .complete t (content a) :: w ∧ ∀ e ∈ v, e.Aside
  complete_once : ∀ x z t r, h = x ++ .complete t r :: z → ∀ r', .complete t r' ∉ x
  /-- What is completed was entered under the key that the answer at hand answers. -/
  complete_answers : ∀ x z t r, h = x ++ .complete t r :: z →
    ∃ k a u v w, x = u ++ .receive a :: (v ++ .take k (some t) :: w) ∧ (∀ e ∈ v, e.Aside) ∧
      (∀ e ∈ w, e.Aside) ∧ answers a = some k ∧ r = content a ∧
      .enter k t ∈ u ++ .receive a :: v

structure Settled (answers : A → Option K) (h : List (Event K T A R)) : Prop where
  received_taken : ∀ x z a k, h = x ++ .receive a :: z → answers a = some k → ∃ f, .take k f ∈ z
  taken_completed : ∀ x z k t, h = x ++ .take k (some t) :: z → ∃ r, .complete t r ∈ z

theorem pending_of_no_take (hp : s.pending key = some token) (hh : ∀ f, .take key f ∉ h)
    (he : exec (step answers content) s h = some s') : s'.pending key = some token := by
  have hc : ∀ e ∈ h, ∀ f, e ≠ .take key f := fun e hm f hf => hh f (hf ▸ hm)
  refine exec_preserves (I := fun u : State K T A R => u.pending key = some token)
    (fun t e t' ht hf hstep => ?_) hp (along_of_forall hc) he
  cases e with
  | enter k u =>
    obtain ⟨hk, -, rfl⟩ := step_enter_iff.mp hstep
    have hne : key ≠ k := by
      rintro rfl
      simp [hk] at ht
    simpa [Function.update_of_ne hne] using ht
  | hand k =>
    obtain ⟨-, rfl⟩ := step_hand_iff.mp hstep
    exact ht
  | receive a =>
    obtain ⟨-, rfl⟩ := step_receive_iff.mp hstep
    exact ht
  | take k f =>
    obtain ⟨a, -, -, -, rfl⟩ := step_take_iff.mp hstep
    have hne : key ≠ k := fun hk => hf f (by rw [hk])
    simpa [Function.update_of_ne hne] using ht
  | complete u r =>
    obtain ⟨a, -, -, rfl⟩ := step_complete_iff.mp hstep
    exact ht

theorem not_pending_of_no_enter (hp : s.pending key = none) (hh : ∀ t, .enter key t ∉ h)
    (he : exec (step answers content) s h = some s') : s'.pending key = none := by
  have hc : ∀ e ∈ h, ∀ t, e ≠ .enter key t := fun e hm t ht => hh t (ht ▸ hm)
  refine exec_preserves (I := fun u : State K T A R => u.pending key = none)
    (fun t e t' ht hf hstep => ?_) hp (along_of_forall hc) he
  cases e with
  | enter k u =>
    obtain ⟨-, -, rfl⟩ := step_enter_iff.mp hstep
    have hne : key ≠ k := fun hk => hf u (by rw [hk])
    simpa [Function.update_of_ne hne] using ht
  | hand k =>
    obtain ⟨-, rfl⟩ := step_hand_iff.mp hstep
    exact ht
  | receive a =>
    obtain ⟨-, rfl⟩ := step_receive_iff.mp hstep
    exact ht
  | take k f =>
    obtain ⟨a, -, -, -, rfl⟩ := step_take_iff.mp hstep
    by_cases hk : key = k
    · simp [hk]
    · simpa [Function.update_of_ne hk] using ht
  | complete u r =>
    obtain ⟨a, -, -, rfl⟩ := step_complete_iff.mp hstep
    exact ht

theorem step_aside {e : Event K T A R} (ha : e.Aside) (hstep : step answers content s e = some s') :
    s'.phase = s.phase := by
  cases e with
  | enter k u =>
    obtain ⟨-, -, rfl⟩ := step_enter_iff.mp hstep
    rfl
  | hand k =>
    obtain ⟨-, rfl⟩ := step_hand_iff.mp hstep
    rfl
  | _ => exact ha.elim

theorem phase_lasts {q : Phase T A} {N : Event K T A R → Prop}
    (hnext : ∀ t e t', t.phase = q → step answers content t e = some t' → e.Aside ∨ N e)
    (hq : s.phase = q) (he : exec (step answers content) s h = some s') :
    (∀ e ∈ h, e.Aside) ∧ s'.phase = q ∨ ∃ v e w, h = v ++ e :: w ∧ N e ∧ ∀ e' ∈ v, e'.Aside := by
  induction h generalizing s with
  | nil =>
    obtain rfl : s = s' := by simpa using he
    exact .inl ⟨by simp, hq⟩
  | cons e h ih =>
    obtain ⟨t, hstep, ht⟩ := exec_cons_iff.mp he
    rcases hnext s e t hq hstep with ha | hN
    · rcases ih ((step_aside ha hstep).trans hq) ht with ⟨hall, hs⟩ | ⟨v, e', w, rfl, hN, hv⟩
      · exact .inl ⟨by simpa using ⟨ha, hall⟩, hs⟩
      · exact .inr ⟨e :: v, e', w, rfl, hN, by simpa using ⟨ha, hv⟩⟩
    · exact .inr ⟨[], e, h, rfl, hN, by simp⟩

theorem taken_next (hgot : s.phase = .got answer) (hkey : answers answer = some key)
    (he : exec (step answers content) s h = some s') :
    (∀ e ∈ h, e.Aside) ∧ s'.phase = .got answer ∨
      ∃ v found w, h = v ++ .take key found :: w ∧ ∀ e ∈ v, e.Aside := by
  have hnext (t : State K T A R) (e : Event K T A R) (t' : State K T A R) (ht : t.phase = .got answer)
      (hstep : step answers content t e = some t') : e.Aside ∨ ∃ found, e = .take key found := by
    cases e with
    | enter | hand => exact .inl trivial
    | receive a =>
      have hfree := (step_receive_iff.mp hstep).1
      simp [ht, Phase.Free, hkey] at hfree
    | take k found =>
      obtain ⟨a, ha, hk, -⟩ := step_take_iff.mp hstep
      obtain rfl := Phase.got.inj (ht.symm.trans ha)
      obtain rfl := Option.some.inj (hkey.symm.trans hk)
      exact .inr ⟨found, rfl⟩
    | complete u r =>
      obtain ⟨a, ha, -⟩ := step_complete_iff.mp hstep
      simp [ht] at ha
  rcases phase_lasts hnext hgot he with hall | ⟨v, e, w, rfl, ⟨found, rfl⟩, hv⟩
  · exact .inl hall
  · exact .inr ⟨v, found, w, rfl, hv⟩

theorem completed_next (howes : s.phase = .owes token answer)
    (he : exec (step answers content) s h = some s') :
    (∀ e ∈ h, e.Aside) ∧ s'.phase = .owes token answer ∨
      ∃ v w, h = v ++ .complete token (content answer) :: w ∧ ∀ e ∈ v, e.Aside := by
  have hnext (t : State K T A R) (e : Event K T A R) (t' : State K T A R)
      (ht : t.phase = .owes token answer) (hstep : step answers content t e = some t') :
      e.Aside ∨ e = .complete token (content answer) := by
    cases e with
    | enter | hand => exact .inl trivial
    | receive a =>
      have hfree := (step_receive_iff.mp hstep).1
      simp [ht, Phase.Free] at hfree
    | take k f =>
      obtain ⟨a, hgot, -⟩ := step_take_iff.mp hstep
      simp [ht] at hgot
    | complete u r =>
      obtain ⟨a, ha, rfl, -⟩ := step_complete_iff.mp hstep
      obtain ⟨rfl, rfl⟩ := Phase.owes.inj (ht.symm.trans ha)
      exact .inr rfl
  rcases phase_lasts hnext howes he with hall | ⟨v, e, w, rfl, rfl, hv⟩
  · exact .inl hall
  · exact .inr ⟨v, w, rfl, hv⟩

section Splits

variable {x y z : List (Event K T A R)}

theorem not_entered_before (he : exec (step answers content) init (x ++ .enter key token :: z) = some s)
    (k : K) : .enter k token ∉ x := by
  obtain ⟨t, u, ht, hstep, -⟩ := exec_split_iff.mp he
  have hnew := (step_enter_iff.mp hstep).2.1 k
  exact fun hm => hnew ((entered_iff ht).mpr hm)

theorem entered_before_hand (he : exec (step answers content) init (x ++ .hand key :: z) = some s) :
    ∃ t, .enter key t ∈ x := by
  obtain ⟨u, v, hu, hstep, -⟩ := exec_split_iff.mp he
  obtain ⟨t, ht⟩ := (step_hand_iff.mp hstep).1
  exact ⟨t, (entered_iff hu).mp ht⟩

theorem pending_after_enter (hy : ∀ f, .take key f ∉ y)
    (he : exec (step answers content) init (x ++ .enter key token :: y) = some s) :
    s.pending key = some token := by
  obtain ⟨t, u, -, hstep, hrest⟩ := exec_split_iff.mp he
  obtain ⟨-, -, rfl⟩ := step_enter_iff.mp hstep
  apply pending_of_no_take _ hy hrest
  simp

theorem first_take_found (hy : ∀ f, .take key f ∉ y) (he : exec (step answers content) init
    (x ++ .enter key token :: (y ++ .take key found :: z)) = some s) : found = some token := by
  rw [← List.cons_append, ← List.append_assoc] at he
  obtain ⟨t, u, ht, hstep, -⟩ := exec_split_iff.mp he
  obtain ⟨a, -, -, hfound, -⟩ := step_take_iff.mp hstep
  rw [hfound]
  exact pending_after_enter hy ht

theorem later_take_found {f : Option T} (hy : ∀ t, .enter key t ∉ y) (he : exec (step answers content) init
    (x ++ .take key f :: (y ++ .take key found :: z)) = some s) : found = none := by
  obtain ⟨t, u, -, hstep, hrest⟩ := exec_split_iff.mp he
  obtain ⟨a, -, -, -, rfl⟩ := step_take_iff.mp hstep
  obtain ⟨v, w, hv, hlater, -⟩ := exec_split_iff.mp hrest
  obtain ⟨b, -, -, hfound, -⟩ := step_take_iff.mp hlater
  rw [hfound]
  apply not_pending_of_no_enter _ hy hv
  simp

theorem take_answered (he : exec (step answers content) init (x ++ .take key found :: z) = some s) :
    ∃ u a v, x = u ++ .receive a :: v ∧ (∀ e ∈ v, e.Aside) ∧ answers a = some key ∧
      ∀ t, found = some t →
        (∀ e ∈ z, e.Aside) ∨ ∃ v w, z = v ++ .complete t (content a) :: w ∧ ∀ e ∈ v, e.Aside := by
  obtain ⟨t, t', ht, hstep, hrest⟩ := exec_split_iff.mp he
  obtain ⟨a, hgot, hkey, -, rfl⟩ := step_take_iff.mp hstep
  obtain ⟨u, v, rfl, hv⟩ := (got_iff ht).mp hgot
  refine ⟨u, a, v, rfl, hv, hkey, ?_⟩
  rintro token rfl
  exact (completed_next rfl hrest).imp And.left id

theorem request_answered (hy : ∀ f, .take key f ∉ y) (hkey : answers answer = some key)
    (he : exec (step answers content) init
      (x ++ .enter key token :: (y ++ .receive answer :: z)) = some s) :
    (∀ e ∈ z, e.Aside) ∨ ∃ v w, z = v ++ .take key (some token) :: w ∧ (∀ e ∈ v, e.Aside) ∧
      ((∀ e ∈ w, e.Aside) ∨
        ∃ p q, w = p ++ .complete token (content answer) :: q ∧ ∀ e ∈ p, e.Aside) := by
  rw [← List.cons_append, ← List.append_assoc] at he
  obtain ⟨t, u, ht, hstep, hrest⟩ := exec_split_iff.mp he
  have hpending : t.pending key = some token := pending_after_enter hy ht
  obtain ⟨-, rfl⟩ := step_receive_iff.mp hstep
  rcases taken_next rfl hkey hrest with ⟨hall, -⟩ | ⟨v, found, w, rfl, hv⟩
  · exact .inl hall
  · obtain ⟨t', u', ht', htake, hlast⟩ := exec_split_iff.mp hrest
    have hnone (f : Option T) : .take key f ∉ v := fun hm => hv _ hm
    have hstill : t'.pending key = some token := by
      apply pending_of_no_take _ hnone ht'
      exact hpending
    obtain ⟨a, hgot, -, hfound, rfl⟩ := step_take_iff.mp htake
    have hphase : t'.phase = .got answer := exec_preserves (I := fun u => u.phase = .got answer)
      (fun _ _ _ hq ha hs => (step_aside ha hs).trans hq) rfl (along_of_forall hv) ht'
    obtain rfl := Phase.got.inj (hphase.symm.trans hgot)
    rw [hstill] at hfound
    subst hfound
    refine .inr ⟨v, w, rfl, hv, ?_⟩
    exact (completed_next rfl hlast).imp And.left id

theorem not_completed_before (he : exec (step answers content) init (x ++ .complete token r :: z) = some s)
    (r' : R) : .complete token r' ∉ x := by
  obtain ⟨t, u, ht, hstep, -⟩ := exec_split_iff.mp he
  obtain ⟨a, howes, -, -⟩ := step_complete_iff.mp hstep
  have hopen := (valid_of_exec ht).owed_open token a howes
  intro hm
  rw [(completed_iff ht).mpr hm] at hopen
  simp at hopen

theorem complete_answered (he : exec (step answers content) init (x ++ .complete token r :: z) = some s) :
    ∃ k a u v w, x = u ++ .receive a :: (v ++ .take k (some token) :: w) ∧ (∀ e ∈ v, e.Aside) ∧
      (∀ e ∈ w, e.Aside) ∧ answers a = some k ∧ r = content a ∧
      .enter k token ∈ u ++ .receive a :: v := by
  obtain ⟨t, t', ht, hstep, -⟩ := exec_split_iff.mp he
  obtain ⟨a, howes, hr, -⟩ := step_complete_iff.mp hstep
  obtain ⟨before, k, w, t₀, rfl, h₀, hgot, hkey, hpending, hw⟩ := owes_taken ht howes
  obtain ⟨u, v, rfl, hv⟩ := (got_iff h₀).mp hgot
  obtain ⟨p, q, hpq, -⟩ := (pending_iff h₀).mp hpending
  refine ⟨k, a, u, v, w, by simp, hv, hw, hkey, hr, ?_⟩
  rw [hpq]
  simp

end Splits

theorem correlated_of_exec (he : exec (step answers content) init h = some s) :
    Correlated answers content h := by
  constructor
  · rintro x z k t rfl
    exact not_entered_before he
  · rintro x z k rfl
    exact entered_before_hand he
  · rintro x y z k t a rfl hk hy
    exact request_answered hy hk he
  · rintro x y z k t found rfl hy
    exact first_take_found hy he
  · rintro x y z k f found rfl hy
    exact later_take_found hy he
  · rintro x z k found rfl
    exact take_answered he
  · rintro x z t r rfl
    exact not_completed_before he
  · rintro x z t r rfl
    exact complete_answered he

theorem settled_of_exec (hs : s.phase.Free answers)
    (he : exec (step answers content) init h = some s) : Settled answers h := by
  constructor
  · rintro x z a k rfl hk
    obtain ⟨t, u, -, hstep, hrest⟩ := exec_split_iff.mp he
    obtain ⟨-, rfl⟩ := step_receive_iff.mp hstep
    rcases taken_next rfl hk hrest with ⟨-, hgot⟩ | ⟨v, f, w, rfl, -⟩
    · simp [hgot, Phase.Free, hk] at hs
    · exact ⟨f, by simp⟩
  · rintro x z k token rfl
    obtain ⟨t, u, -, hstep, hrest⟩ := exec_split_iff.mp he
    obtain ⟨a, -, -, -, rfl⟩ := step_take_iff.mp hstep
    rcases completed_next rfl hrest with ⟨-, howes⟩ | ⟨v, w, rfl, -⟩
    · simp [howes, Phase.Free] at hs
    · exact ⟨content a, by simp⟩

end History

end

end XconnCpp.Library.Correlation

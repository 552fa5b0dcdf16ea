import XconnCpp.SessionRuns

namespace XconnCpp.Sessions

open Library Library.Program Library.Program.Prog Values

variable {P E : Type}

inductive Thread (P E : Type)
  | request (operation : Operation P E) (rest : Code P E Reply)
  | leaving (rest : Code P E ℤ)
  | worker (rest : Code P E Unit)

namespace Thread

def head? : Thread P E → Option (Op P E)
  | .request _ rest => rest.head?
  | .leaving rest => rest.head?
  | .worker rest => rest.head?

def advance : Thread P E → Session P E → Option (Thread P E × Session P E)
  | .request operation rest, s => (rest.advance interp s).map fun (rest, s) => (.request operation rest, s)
  | .leaving rest, s => (rest.advance interp s).map fun (rest, s) => (.leaving rest, s)
  | .worker rest, s => (rest.advance interp s).map fun (rest, s) => (.worker rest, s)

end Thread

structure World (P E : Type) where
  session : Session P E
  receiver : Code P E Bool
  threads : List (Thread P E)

def World.start (surroundings : Surroundings P E) : World P E := ⟨.start surroundings, waitRound, []⟩

/-- Who is next: the receive thread, another thread, a new call of an operation or of `leave`, or a
worker that takes a task. -/
inductive Choice (P E : Type)
  | receiver
  | thread (i : ℕ)
  | request (operation : Operation P E)
  | leave
  | work

def World.step (w : World P E) : Choice P E → Option (World P E)
  | .receiver =>
    match w.receiver with
    | .pure true => some { w with receiver := waitRound }
    | rest => (rest.advance interp w.session).map fun (rest, s) => { w with session := s, receiver := rest }
  | .thread i =>
    (w.threads[i]?.bind (·.advance w.session)).map fun (t, s) =>
      { w with session := s, threads := w.threads.set i t }
  | .request operation => some { w with threads := w.threads ++ [.request operation operation.code] }
  | .leave => some { w with threads := w.threads ++ [.leaving leave] }
  | .work =>
    match w.session.tasks with
    | [] => none
    | t :: tasks => some { w with
        session := { w.session with tasks := tasks }
        threads := w.threads ++ [.worker t.code] }

def World.performs (w : World P E) : Choice P E → Option (Op P E)
  | .receiver => w.receiver.head?
  | .thread i => w.threads[i]?.bind (·.head?)
  | _ => none

section Threads

variable {threads : List (Thread P E)} {t u : Thread P E} {i j : ℕ}

theorem getElem?_set_cases (h : (threads.set i t)[j]? = some u) :
    j = i ∧ u = t ∨ j ≠ i ∧ threads[j]? = some u := by
  by_cases hj : j = i
  · subst hj
    obtain ⟨-, rfl⟩ : j < threads.length ∧ t = u := by
      simpa [List.getElem?_set] using h
    exact .inl ⟨rfl, rfl⟩
  · exact .inr ⟨hj, by rwa [List.getElem?_set_ne (Ne.symm hj)] at h⟩

theorem getElem?_append_cases {α : Type} {xs : List α} {x y : α} (h : (xs ++ [y])[j]? = some x) :
    xs[j]? = some x ∨ x = y := by
  rw [List.getElem?_append] at h
  split at h
  · exact .inl h
  · exact .inr (List.mem_singleton.mp (List.mem_of_getElem? h))

theorem getElem?_concat_cases {α : Type} {xs : List α} {x y : α} (h : (xs ++ [y])[j]? = some x) :
    xs[j]? = some x ∨ j = xs.length ∧ x = y := by
  rcases Nat.lt_or_ge j xs.length with hlt | hle
  · rw [List.getElem?_append_left hlt] at h
    exact .inl h
  · rw [List.getElem?_append_right hle] at h
    obtain ⟨hzero, hu⟩ := List.getElem?_eq_some_iff.mp h
    have hj : j = xs.length := Nat.le_antisymm (Nat.le_of_sub_eq_zero (by simpa using hzero)) hle
    exact .inr ⟨hj, by simpa using hu.symm⟩

end Threads

section Steps

variable {w w' : World P E} {s s' : Session P E} {t t' : Thread P E}

theorem step_receiver_iff : w.step .receiver = some w' ↔
    w.receiver = .pure true ∧ w' = { w with receiver := waitRound } ∨
    ∃ o k, w.receiver = .op o k ∧
      w' = { w with session := (interp o w.session).2, receiver := k (interp o w.session).1 } := by
  cases h : w.receiver with
  | pure b => cases b <;> simp [World.step, h, Prog.advance, eq_comm]
  | op o k =>
    simp only [World.step, h, Prog.advance, Option.map_some, Option.some.injEq, reduceCtorEq, false_and,
      false_or]
    constructor
    · rintro rfl
      exact ⟨o, k, rfl, rfl⟩
    · rintro ⟨o', k', he, rfl⟩
      cases he
      rfl
  | _ => simp [World.step, h, Prog.advance]

theorem receiver_step_eq {o : Op P E} {k : Res o → Code P E Bool} (ho : w.receiver = .op o k)
    (h : w.step .receiver = some w') :
    w' = { w with session := (interp o w.session).2, receiver := k (interp o w.session).1 } := by
  rcases step_receiver_iff.mp h with ⟨hpure, -⟩ | ⟨o', k', ho', rfl⟩
  · cases ho.symm.trans hpure
  · cases ho.symm.trans ho'
    rfl

theorem step_thread_iff {i : ℕ} : w.step (.thread i) = some w' ↔
    ∃ t t' s', w.threads[i]? = some t ∧ t.advance w.session = some (t', s') ∧
      w' = { w with session := s', threads := w.threads.set i t' } := by
  simp only [World.step, Option.map_eq_some_iff, Option.bind_eq_some_iff, Prod.exists]
  constructor
  · rintro ⟨t', s', ⟨t, ht, ha⟩, rfl⟩
    exact ⟨t, t', s', ht, ha, rfl⟩
  · rintro ⟨t, t', s', ht, ha, rfl⟩
    exact ⟨t', s', ⟨t, ht, ha⟩, rfl⟩

theorem advance_cases (h : t.advance s = some (t', s')) :
    (∃ operation o k, t = .request operation (.op o k) ∧ s' = (interp o s).2 ∧
      t' = .request operation (k (interp o s).1)) ∨
    (∃ o k, t = .leaving (.op o k) ∧ s' = (interp o s).2 ∧ t' = .leaving (k (interp o s).1)) ∨
    (∃ o k, t = .worker (.op o k) ∧ s' = (interp o s).2 ∧ t' = .worker (k (interp o s).1)) := by
  cases t with
  | request operation rest =>
    obtain ⟨⟨rest', u⟩, hrest, he⟩ := Option.map_eq_some_iff.mp h
    obtain ⟨o, k, rfl, rfl, rfl⟩ := advance_iff.mp hrest
    cases he
    exact .inl ⟨operation, o, k, rfl, rfl, rfl⟩
  | leaving rest =>
    obtain ⟨⟨rest', u⟩, hrest, he⟩ := Option.map_eq_some_iff.mp h
    obtain ⟨o, k, rfl, rfl, rfl⟩ := advance_iff.mp hrest
    cases he
    exact .inr (.inl ⟨o, k, rfl, rfl, rfl⟩)
  | worker rest =>
    obtain ⟨⟨rest', u⟩, hrest, he⟩ := Option.map_eq_some_iff.mp h
    obtain ⟨o, k, rfl, rfl, rfl⟩ := advance_iff.mp hrest
    cases he
    exact .inr (.inr ⟨o, k, rfl, rfl, rfl⟩)

theorem step_thread_cases {i : ℕ} (h : w.step (.thread i) = some w') :
    (∃ operation o k, w.threads[i]? = some (.request operation (.op o k)) ∧ w' = { w with
      session := (interp o w.session).2
      threads := w.threads.set i (.request operation (k (interp o w.session).1)) }) ∨
    (∃ o k, w.threads[i]? = some (.leaving (.op o k)) ∧ w' = { w with
      session := (interp o w.session).2
      threads := w.threads.set i (.leaving (k (interp o w.session).1)) }) ∨
    (∃ o k, w.threads[i]? = some (.worker (.op o k)) ∧ w' = { w with
      session := (interp o w.session).2
      threads := w.threads.set i (.worker (k (interp o w.session).1)) }) := by
  obtain ⟨t, t', s', ht, hadvance, rfl⟩ := step_thread_iff.mp h
  rcases advance_cases hadvance with
    ⟨operation, o, k, rfl, rfl, rfl⟩ | ⟨o, k, rfl, rfl, rfl⟩ | ⟨o, k, rfl, rfl, rfl⟩
  · exact .inl ⟨operation, o, k, ht, rfl⟩
  · exact .inr (.inl ⟨o, k, ht, rfl⟩)
  · exact .inr (.inr ⟨o, k, ht, rfl⟩)

theorem step_work_iff : w.step .work = some w' ↔
    ∃ t tasks, w.session.tasks = t :: tasks ∧ w' = { w with
      session := { w.session with tasks := tasks }
      threads := w.threads ++ [.worker t.code] } := by
  cases h : w.session.tasks <;> simp [World.step, h, eq_comm]

theorem session_of_step {l : Choice P E} (h : w.step l = some w') :
    (∃ o, w.performs l = some o ∧ w'.session = (interp o w.session).2) ∨
      w.performs l = none ∧ ∃ tasks, w'.session = { w.session with tasks := tasks } := by
  cases l with
  | receiver =>
    rcases step_receiver_iff.mp h with ⟨hr, rfl⟩ | ⟨o, k, hr, rfl⟩
    · exact .inr ⟨by simp [World.performs, hr], w.session.tasks, rfl⟩
    · exact .inl ⟨o, by simp [World.performs, hr], rfl⟩
  | thread i =>
    rcases step_thread_cases h with ⟨operation, o, k, ht, rfl⟩ | ⟨o, k, ht, rfl⟩ | ⟨o, k, ht, rfl⟩
    all_goals exact .inl ⟨o, by simp [World.performs, ht, Thread.head?], rfl⟩
  | work =>
    obtain ⟨t, tasks, -, rfl⟩ := step_work_iff.mp h
    exact .inr ⟨rfl, tasks, rfl⟩
  | request operation =>
    cases h
    exact .inr ⟨rfl, w.session.tasks, rfl⟩
  | leave =>
    cases h
    exact .inr ⟨rfl, w.session.tasks, rfl⟩

theorem receiver_of_step {l : Choice P E} (h : w.step l = some w') :
    l ≠ .receiver ∧ w'.receiver = w.receiver ∨
      l = .receiver ∧ (w.receiver = .pure true ∧ w'.receiver = waitRound ∨ ∃ o k, w.receiver = .op o k ∧
        w'.session = (interp o w.session).2 ∧ w'.receiver = k (interp o w.session).1) := by
  cases l with
  | receiver =>
    rcases step_receiver_iff.mp h with ⟨hr, rfl⟩ | ⟨o, k, hr, rfl⟩
    · exact .inr ⟨rfl, .inl ⟨hr, rfl⟩⟩
    · exact .inr ⟨rfl, .inr ⟨o, k, hr, rfl, rfl⟩⟩
  | thread i =>
    obtain ⟨t, t', s', -, -, rfl⟩ := step_thread_iff.mp h
    exact .inl ⟨by simp, rfl⟩
  | work =>
    obtain ⟨task, tasks, -, rfl⟩ := step_work_iff.mp h
    exact .inl ⟨by simp, rfl⟩
  | request operation =>
    cases h
    exact .inl ⟨by simp, rfl⟩
  | leave =>
    cases h
    exact .inl ⟨by simp, rfl⟩

theorem receiver_stays {l : Choice P E} (hended : w.receiver = .pure false) (h : w.step l = some w') :
    l ≠ .receiver ∧ w'.receiver = .pure false := by
  rcases receiver_of_step h with ⟨hl, hr⟩ | ⟨-, ⟨hpure, -⟩ | ⟨o, k, ho, -⟩⟩
  · exact ⟨hl, hr.trans hended⟩
  · cases hended.symm.trans hpure
  · cases hended.symm.trans ho

theorem thread_of_step {l : Choice P E} {i : ℕ} (h : w.step l = some w') (hi : w.threads[i]? = some t) :
    w'.threads[i]? = some t ∨ l = .thread i ∧
      ∃ t', t.advance w.session = some (t', w'.session) ∧ w'.threads[i]? = some t' := by
  have hlt : i < w.threads.length := (List.getElem?_eq_some_iff.mp hi).1
  cases l with
  | receiver =>
    rcases step_receiver_iff.mp h with ⟨-, rfl⟩ | ⟨o, k, -, rfl⟩
    all_goals exact .inl hi
  | thread j =>
    obtain ⟨u, u', s', hu, ha, rfl⟩ := step_thread_iff.mp h
    by_cases hj : j = i
    · subst hj
      cases hi.symm.trans hu
      exact .inr ⟨rfl, u', ha, by simp [hlt]⟩
    · exact .inl (by simpa [hj] using hi)
  | work =>
    obtain ⟨u, tasks, -, rfl⟩ := step_work_iff.mp h
    exact .inl (by simpa [List.getElem?_append_left hlt] using hi)
  | request operation =>
    cases h
    exact .inl (by simpa [List.getElem?_append_left hlt] using hi)
  | leave =>
    cases h
    exact .inl (by simpa [List.getElem?_append_left hlt] using hi)

theorem lt_length_of_step {l : Choice P E} {i : ℕ} (h : w.step l = some w') (hi : i < w.threads.length) :
    i < w'.threads.length := by
  rcases thread_of_step h (List.getElem?_eq_getElem hi) with hsame | ⟨-, t', -, ht⟩
  · exact (List.getElem?_eq_some_iff.mp hsame).1
  · exact (List.getElem?_eq_some_iff.mp ht).1

theorem thread_before_step {l : Choice P E} {i : ℕ} (h : w.step l = some w')
    (hi : w'.threads[i]? = some t') :
    w.threads[i]? = some t' ∨
      (l = .thread i ∧ ∃ t, w.threads[i]? = some t ∧ t.advance w.session = some (t', w'.session)) ∨
      (∃ operation, l = .request operation ∧ t' = .request operation operation.code) ∨
      t' = .leaving leave ∨
      l = .work ∧ ∃ task, w.session.tasks.head? = some task ∧ t' = .worker task.code := by
  cases l with
  | receiver =>
    rcases step_receiver_iff.mp h with ⟨-, rfl⟩ | ⟨o, k, -, rfl⟩
    all_goals exact .inl hi
  | thread j =>
    obtain ⟨u, u', s', hu, ha, rfl⟩ := step_thread_iff.mp h
    rcases getElem?_set_cases hi with ⟨rfl, rfl⟩ | ⟨-, hi⟩
    · exact .inr (.inl ⟨rfl, u, hu, ha⟩)
    · exact .inl hi
  | work =>
    obtain ⟨task, tasks, htasks, rfl⟩ := step_work_iff.mp h
    rcases getElem?_append_cases hi with hi | hi
    · exact .inl hi
    · exact .inr (.inr (.inr (.inr ⟨rfl, task, by simp [htasks], hi⟩)))
  | request operation =>
    cases h
    rcases getElem?_append_cases hi with hi | hi
    · exact .inl hi
    · exact .inr (.inr (.inl ⟨operation, rfl, hi⟩))
  | leave =>
    cases h
    rcases getElem?_append_cases hi with hi | hi
    · exact .inl hi
    · exact .inr (.inr (.inr (.inl hi)))

theorem step_of_performs {l : Choice P E} {o : Op P E} (h : w.performs l = some o) :
    ∃ w', w.step l = some w' := by
  cases l with
  | receiver =>
    obtain ⟨k, hr⟩ := head?_eq_some_iff.mp h
    exact ⟨_, step_receiver_iff.mpr (.inr ⟨o, k, hr, rfl⟩)⟩
  | thread i =>
    obtain ⟨t, ht, ho⟩ := Option.bind_eq_some_iff.mp h
    obtain ⟨t', s', ha⟩ : ∃ t' s', t.advance w.session = some (t', s') := by
      cases t with
      | _ =>
        obtain ⟨k, rfl⟩ := head?_eq_some_iff.mp ho
        exact ⟨_, _, rfl⟩
    exact ⟨_, step_thread_iff.mpr ⟨t, t', s', ht, ha, rfl⟩⟩
  | _ => simp [World.performs] at h

end Steps

end XconnCpp.Sessions

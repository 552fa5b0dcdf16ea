import Mathlib.Data.Nat.Notation
import Mathlib.Logic.Basic

namespace XconnCpp.Library.Program

/-- A program over atomic operations: `Res o` is what the operation `o` gives back, and the
constructor `undefined` is reached where the language leaves the behaviour undefined. -/
inductive Prog (Op : Type) (Res : Op → Type) (ε α : Type) : Type
  | pure (a : α)
  | throw (e : ε)
  | undefined
  | op (o : Op) (k : Res o → Prog Op Res ε α)

variable {Op : Type} {Res : Op → Type} {ε α β S : Type}

namespace Prog

def bind (p : Prog Op Res ε α) (f : α → Prog Op Res ε β) : Prog Op Res ε β :=
  match p with
  | .pure a => f a
  | .throw e => .throw e
  | .undefined => .undefined
  | .op o k => .op o fun r => (k r).bind f

def tryCatch (p : Prog Op Res ε α) (handler : ε → Prog Op Res ε α) : Prog Op Res ε α :=
  match p with
  | .pure a => .pure a
  | .throw e => handler e
  | .undefined => .undefined
  | .op o k => .op o fun r => (k r).tryCatch handler

instance : Monad (Prog Op Res ε) where
  pure := .pure
  bind := .bind

def perform (o : Op) : Prog Op Res ε (Res o) := .op o .pure

@[simp] theorem pure_eq (a : α) : (Pure.pure a : Prog Op Res ε α) = .pure a := rfl

@[simp] theorem pure_bind (a : α) (f : α → Prog Op Res ε β) : (.pure a : Prog Op Res ε α) >>= f = f a :=
  rfl

@[simp] theorem throw_bind (e : ε) (f : α → Prog Op Res ε β) :
    (.throw e : Prog Op Res ε α) >>= f = .throw e := rfl

@[simp] theorem undefined_bind (f : α → Prog Op Res ε β) :
    (.undefined : Prog Op Res ε α) >>= f = .undefined := rfl

@[simp] theorem op_bind (o : Op) (k : Res o → Prog Op Res ε α) (f : α → Prog Op Res ε β) :
    (.op o k : Prog Op Res ε α) >>= f = .op o fun r => k r >>= f := rfl

@[simp] theorem perform_bind (o : Op) (f : Res o → Prog Op Res ε β) :
    (perform o : Prog Op Res ε (Res o)) >>= f = .op o f := rfl

@[simp] theorem tryCatch_pure (a : α) (h : ε → Prog Op Res ε α) : (Prog.pure a).tryCatch h = .pure a :=
  rfl

@[simp] theorem tryCatch_throw (e : ε) (h : ε → Prog Op Res ε α) : (Prog.throw e).tryCatch h = h e := rfl

@[simp] theorem tryCatch_undefined (h : ε → Prog Op Res ε α) :
    (Prog.undefined : Prog Op Res ε α).tryCatch h = .undefined := rfl

@[simp] theorem tryCatch_op (o : Op) (k : Res o → Prog Op Res ε α) (h : ε → Prog Op Res ε α) :
    (Prog.op o k).tryCatch h = .op o fun r => (k r).tryCatch h := rfl

def head? : Prog Op Res ε α → Option Op
  | .op o _ => some o
  | _ => none

@[simp] theorem head?_op (o : Op) (k : Res o → Prog Op Res ε α) : (Prog.op o k).head? = some o := rfl

@[simp] theorem head?_pure (a : α) : (Prog.pure a : Prog Op Res ε α).head? = none := rfl

@[simp] theorem head?_throw (e : ε) : (Prog.throw e : Prog Op Res ε α).head? = none := rfl

@[simp] theorem head?_undefined : (Prog.undefined : Prog Op Res ε α).head? = none := rfl

theorem head?_eq_some_iff {p : Prog Op Res ε α} {o : Op} : p.head? = some o ↔ ∃ k, p = .op o k := by
  cases p with
  | op o' k => exact ⟨by rintro ⟨⟩; exact ⟨k, rfl⟩, by rintro ⟨k', ⟨⟩⟩; rfl⟩
  | _ => simp

def Each (Φ : (o : Op) → (Res o → Prog Op Res ε α) → Prop) : Prog Op Res ε α → Prop
  | .op o k => Φ o k ∧ ∀ r, (k r).Each Φ
  | _ => True

def Uses (A : Op → Prop) : Prog Op Res ε α → Prop := Each fun o _ => A o

section Uses

variable {A B : Op → Prop}

@[simp] theorem uses_pure (a : α) : (Prog.pure a : Prog Op Res ε α).Uses A := trivial

@[simp] theorem uses_throw (e : ε) : (Prog.throw e : Prog Op Res ε α).Uses A := trivial

@[simp] theorem uses_undefined : (Prog.undefined : Prog Op Res ε α).Uses A := trivial

@[simp] theorem uses_op_iff {o : Op} {k : Res o → Prog Op Res ε α} :
    (Prog.op o k).Uses A ↔ A o ∧ ∀ r, (k r).Uses A := Iff.rfl

@[simp] theorem uses_perform_iff {o : Op} : (perform o : Prog Op Res ε (Res o)).Uses A ↔ A o := by
  simp [perform]

theorem Uses.head {p : Prog Op Res ε α} {o : Op} (hp : p.Uses A) (ho : p.head? = some o) : A o := by
  obtain ⟨k, rfl⟩ := head?_eq_some_iff.mp ho
  exact hp.1

theorem Uses.mono (h : ∀ o, A o → B o) {p : Prog Op Res ε α} (hp : p.Uses A) : p.Uses B := by
  induction p with
  | op o k ih => exact ⟨h o hp.1, fun r => ih r (hp.2 r)⟩
  | _ => trivial

theorem Uses.bind {p : Prog Op Res ε α} {f : α → Prog Op Res ε β} (hp : p.Uses A)
    (hf : ∀ a, (f a).Uses A) : (p >>= f).Uses A := by
  induction p with
  | pure a => exact hf a
  | op o k ih => exact ⟨hp.1, fun r => ih r (hp.2 r)⟩
  | _ => trivial

theorem Uses.tryCatch {p : Prog Op Res ε α} {g : ε → Prog Op Res ε α} (hp : p.Uses A)
    (hg : ∀ e, (g e).Uses A) : (p.tryCatch g).Uses A := by
  induction p with
  | throw e => exact hg e
  | op o k ih => exact ⟨hp.1, fun r => ih r (hp.2 r)⟩
  | _ => trivial

end Uses

structure Protocol (Q Op : Type) (Res : Op → Type) where
  allows : Q → Op → Prop
  next : Q → (o : Op) → Res o → Q

def Follows {Q : Type} (protocol : Protocol Q Op Res) (post exc : Q → Prop) :
    Prog Op Res ε α → Q → Prop
  | .pure _, q => post q
  | .throw _, q => exc q
  | .undefined, q => exc q
  | .op o k, q => protocol.allows q o ∧ ∀ r, (k r).Follows protocol post exc (protocol.next q o r)

section Follows

variable {Q : Type} {protocol : Protocol Q Op Res} {post exc : Q → Prop} {q : Q}

theorem Follows.head {p : Prog Op Res ε α} {o : Op} (hp : p.Follows protocol post exc q)
    (ho : p.head? = some o) : protocol.allows q o := by
  obtain ⟨k, rfl⟩ := head?_eq_some_iff.mp ho
  exact hp.1

theorem Follows.bind (mid : Q → Prop) {p : Prog Op Res ε α} {f : α → Prog Op Res ε β}
    (hp : p.Follows protocol mid exc q) (hf : ∀ a q', mid q' → (f a).Follows protocol post exc q') :
    (p >>= f).Follows protocol post exc q := by
  induction p generalizing q with
  | pure a => exact hf a q hp
  | throw e => exact hp
  | undefined => exact hp
  | op o k ih => exact ⟨hp.1, fun r => ih r (hp.2 r)⟩

theorem Follows.tryCatch {p : Prog Op Res ε α} {g : ε → Prog Op Res ε α}
    (hp : p.Follows protocol post exc q) (hg : ∀ e q', exc q' → (g e).Follows protocol post exc q') :
    (p.tryCatch g).Follows protocol post exc q := by
  induction p generalizing q with
  | pure a => exact hp
  | throw e => exact hg e q hp
  | undefined => exact hp
  | op o k ih => exact ⟨hp.1, fun r => ih r (hp.2 r)⟩

theorem Uses.follows {A : Op → Prop} {I : Q → Prop}
    (hA : ∀ o, A o → ∀ q, I q → protocol.allows q o ∧ ∀ r, I (protocol.next q o r))
    (hpost : ∀ q, I q → post q) (hexc : ∀ q, I q → exc q) {p : Prog Op Res ε α} (hp : p.Uses A)
    (hq : I q) : p.Follows protocol post exc q := by
  induction p generalizing q with
  | pure a => exact hpost q hq
  | throw e => exact hexc q hq
  | undefined => exact hexc q hq
  | op o k ih =>
    obtain ⟨hallows, hnext⟩ := hA o hp.1 q hq
    exact ⟨hallows, fun r => ih r (hp.2 r) (hnext r)⟩

theorem Follows.uses {A : Op → Prop} {I : Q → Prop}
    (hI : ∀ q o, I q → protocol.allows q o → A o ∧ ∀ r, I (protocol.next q o r))
    {p : Prog Op Res ε α} (hp : p.Follows protocol post exc q) (hq : I q) : p.Uses A := by
  induction p generalizing q with
  | op o k ih =>
    obtain ⟨ho, hnext⟩ := hI q o hq hp.1
    exact ⟨ho, fun r => ih r (hp.2 r) (hnext r)⟩
  | _ => trivial

theorem Follows.mono {post' exc' : Q → Prop} (hpost : ∀ q, post q → post' q) (hexc : ∀ q, exc q → exc' q)
    {p : Prog Op Res ε α} (hp : p.Follows protocol post exc q) : p.Follows protocol post' exc' q := by
  induction p generalizing q with
  | pure a => exact hpost q hp
  | op o k ih => exact ⟨hp.1, fun r => ih r (hp.2 r)⟩
  | _ => exact hexc q hp

end Follows

def Defined : Prog Op Res ε α → Prop
  | .op _ k => ∀ r, (k r).Defined
  | .undefined => False
  | _ => True

@[simp] theorem defined_throw (e : ε) : (Prog.throw e : Prog Op Res ε α).Defined := trivial

@[simp] theorem defined_perform (o : Op) : (perform o : Prog Op Res ε (Res o)).Defined := fun _ => trivial

def Throws : Prog Op Res ε α → Prop
  | .op _ k => ∀ r, (k r).Throws
  | .throw _ => True
  | _ => False

@[simp] theorem not_throws_pure (a : α) : ¬ (Prog.pure a : Prog Op Res ε α).Throws := not_false

def Catches : Prog Op Res ε α → Prop
  | .op _ k => ∀ r, (k r).Catches
  | .throw _ => False
  | _ => True

theorem Catches.bind {p : Prog Op Res ε α} {f : α → Prog Op Res ε β} (hp : p.Catches)
    (hf : ∀ a, (f a).Catches) : (p >>= f).Catches := by
  induction p with
  | pure a => exact hf a
  | throw e => exact hp.elim
  | undefined => trivial
  | op o k ih => exact fun r => ih r (hp r)

theorem catches_tryCatch {g : ε → Prog Op Res ε α} (hg : ∀ e, (g e).Catches) (p : Prog Op Res ε α) :
    (p.tryCatch g).Catches := by
  induction p with
  | throw e => exact hg e
  | op o k ih => exact fun r => ih r
  | _ => trivial

def Within : Prog Op Res ε α → ℕ → Prop
  | .op _ k, n + 1 => ∀ r, (k r).Within n
  | .op _ _, 0 => False
  | _, _ => True

section Within

variable {m n : ℕ} {p : Prog Op Res ε α}

@[simp] theorem within_pure (a : α) : (Prog.pure a : Prog Op Res ε α).Within n := trivial

@[simp] theorem within_throw (e : ε) : (Prog.throw e : Prog Op Res ε α).Within n := trivial

@[simp] theorem within_undefined : (Prog.undefined : Prog Op Res ε α).Within n := trivial

@[simp] theorem within_op_iff {o : Op} {k : Res o → Prog Op Res ε α} :
    (Prog.op o k).Within (n + 1) ↔ ∀ r, (k r).Within n := Iff.rfl

@[simp] theorem not_within_zero {o : Op} {k : Res o → Prog Op Res ε α} : ¬ (Prog.op o k).Within 0 :=
  not_false

theorem Within.mono (hp : p.Within m) (h : m ≤ n) : p.Within n := by
  induction p generalizing m n with
  | op o k ih =>
    cases m with
    | zero => exact hp.elim
    | succ m =>
      obtain ⟨n, rfl⟩ : ∃ j, n = j + 1 := ⟨n - 1, by omega⟩
      exact fun r => ih r (hp r) (by omega)
  | _ => trivial

theorem Within.bind {f : α → Prog Op Res ε β} (hp : p.Within m) (hf : ∀ a, (f a).Within n) :
    (p >>= f).Within (m + n) := by
  induction p generalizing m with
  | pure a => exact (hf a).mono (by omega)
  | op o k ih =>
    cases m with
    | zero => exact hp.elim
    | succ m =>
      rw [Nat.succ_add]
      exact fun r => ih r (hp r)
  | _ => trivial

theorem Within.tryCatch {g : ε → Prog Op Res ε α} (hp : p.Within m) (hg : ∀ e, (g e).Within n) :
    (p.tryCatch g).Within (m + n) := by
  induction p generalizing m with
  | throw e => exact (hg e).mono (by omega)
  | op o k ih =>
    cases m with
    | zero => exact hp.elim
    | succ m =>
      rw [Nat.succ_add]
      exact fun r => ih r (hp r)
  | _ => trivial

end Within

theorem Defined.bind {p : Prog Op Res ε α} {f : α → Prog Op Res ε β} (hp : p.Defined)
    (hf : ∀ a, (f a).Defined) : (p >>= f).Defined := by
  induction p with
  | pure a => exact hf a
  | throw e => trivial
  | undefined => exact hp
  | op o k ih => exact fun r => ih r (hp r)

end Prog

inductive Outcome (ε α : Type)
  | returned (a : α)
  | threw (e : ε)
  | undefined
  deriving DecidableEq

namespace Prog

def advance (interp : (o : Op) → S → Res o × S) : Prog Op Res ε α → S → Option (Prog Op Res ε α × S)
  | .op o k, s => some (k (interp o s).1, (interp o s).2)
  | _, _ => none

def run (interp : (o : Op) → S → Res o × S) : Prog Op Res ε α → S → Outcome ε α × S
  | .pure a, s => (.returned a, s)
  | .throw e, s => (.threw e, s)
  | .undefined, s => (.undefined, s)
  | .op o k, s => (k (interp o s).1).run interp (interp o s).2

variable {interp : (o : Op) → S → Res o × S}

theorem advance_iff {p p' : Prog Op Res ε α} {s s' : S} :
    p.advance interp s = some (p', s') ↔
      ∃ o k, p = .op o k ∧ p' = k (interp o s).1 ∧ s' = (interp o s).2 := by
  constructor
  · intro h
    cases p with
    | op o k =>
      obtain ⟨rfl, rfl⟩ := Prod.mk.inj (Option.some.inj h)
      exact ⟨o, k, rfl, rfl, rfl⟩
    | _ => simp [advance] at h
  · rintro ⟨o, k, rfl, rfl, rfl⟩
    rfl

@[simp] theorem run_pure (a : α) (s : S) :
    (Prog.pure a : Prog Op Res ε α).run interp s = (.returned a, s) := rfl

@[simp] theorem run_throw (e : ε) (s : S) :
    (Prog.throw e : Prog Op Res ε α).run interp s = (.threw e, s) := rfl

@[simp] theorem run_undefined (s : S) :
    (Prog.undefined : Prog Op Res ε α).run interp s = (.undefined, s) := rfl

@[simp] theorem run_op (o : Op) (k : Res o → Prog Op Res ε α) (s : S) :
    (Prog.op o k).run interp s = (k (interp o s).1).run interp (interp o s).2 := rfl

theorem run_bind (p : Prog Op Res ε α) (f : α → Prog Op Res ε β) (s : S) :
    (p >>= f).run interp s = match p.run interp s with
      | (.returned a, t) => (f a).run interp t
      | (.threw e, t) => (.threw e, t)
      | (.undefined, t) => (.undefined, t) := by
  induction p generalizing s with
  | op o k ih => exact ih _ _
  | _ => rfl

theorem run_tryCatch (p : Prog Op Res ε α) (g : ε → Prog Op Res ε α) (s : S) :
    (p.tryCatch g).run interp s = match p.run interp s with
      | (.threw e, t) => (g e).run interp t
      | r => r := by
  induction p generalizing s with
  | op o k ih => exact ih _ _
  | _ => rfl

theorem Defined.run_ne {p : Prog Op Res ε α} (hp : p.Defined) (s : S) :
    (p.run interp s).1 ≠ .undefined := by
  induction p generalizing s with
  | op o k ih => exact ih _ (hp _) _
  | undefined => exact hp.elim
  | _ => simp

theorem Uses.run {A : Op → Prop} {R : S → S → Prop} (refl : ∀ s, R s s)
    (trans : ∀ {s t u}, R s t → R t u → R s u) (hstep : ∀ o, A o → ∀ s, R s (interp o s).2)
    {p : Prog Op Res ε α} (hp : p.Uses A) (s : S) : R s (p.run interp s).2 := by
  induction p generalizing s with
  | op o k ih => exact trans (hstep o hp.1 s) (ih _ (hp.2 _) _)
  | _ => exact refl s

theorem Uses.run_eq {X : Type} {f : S → X} {p : Prog Op Res ε α}
    (hp : p.Uses fun o => ∀ s, f (interp o s).2 = f s) (s : S) : f (p.run interp s).2 = f s :=
  hp.run (R := fun s t => f t = f s) (fun _ => rfl) (fun h₁ h₂ => h₂.trans h₁) (fun _ ho => ho) s

end Prog

end XconnCpp.Library.Program

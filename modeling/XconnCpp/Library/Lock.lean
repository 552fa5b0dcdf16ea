import Mathlib.Logic.Basic

namespace XconnCpp.Library.Lock

variable {T : Type*} {holder holder' : Option T} {inside inside' : T → Prop} {t u : T}

def Exclusive (holder : Option T) (inside : T → Prop) : Prop := ∀ t, inside t ↔ holder = some t

def Turn (t : T) (holder holder' : Option T) (before after : Prop) : Prop :=
  holder' = holder ∧ (after ↔ before) ∨ holder = none ∧ holder' = some t ∧ after ∨
    before ∧ holder' = none ∧ ¬ after

theorem Exclusive.alone (h : Exclusive holder inside) (ht : inside t) (hu : inside u) : t = u :=
  Option.some.inj (((h t).mp ht).symm.trans ((h u).mp hu))

theorem Exclusive.same (h : Exclusive holder inside) (hsame : ∀ t, inside' t ↔ inside t) :
    Exclusive holder inside' := fun t => (hsame t).trans (h t)

theorem Exclusive.turn (h : Exclusive holder inside)
    (hturn : Turn t holder holder' (inside t) (inside' t))
    (hother : ∀ u, u ≠ t → (inside' u ↔ inside u)) : Exclusive holder' inside' := by
  intro u
  by_cases hu : u = t
  · subst hu
    rcases hturn with ⟨rfl, hsame⟩ | ⟨-, rfl, hin⟩ | ⟨-, rfl, hout⟩
    · exact hsame.trans (h u)
    · simp [hin]
    · simp [hout]
  · rw [hother u hu, h u]
    rcases hturn with ⟨rfl, -⟩ | ⟨rfl, rfl, -⟩ | ⟨hin, rfl, -⟩
    · exact Iff.rfl
    · simp [Ne.symm hu]
    · have ht : holder = some t := (h t).mp hin
      simp [ht, Ne.symm hu]

end XconnCpp.Library.Lock

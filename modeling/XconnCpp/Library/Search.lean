import Mathlib.Data.List.Infix
import Mathlib.Data.List.TakeDrop

namespace XconnCpp.Library.Search

variable {α : Type*} {p s t a b a' b' : List α} {n : ℕ} {x : α}

structure FirstSplit (p s a b : List α) : Prop where
  split : s = a ++ p ++ b
  first : ∀ a' b', s = a' ++ p ++ b' → a.length ≤ a'.length

theorem FirstSplit.tail (h : FirstSplit p (x :: s) (x :: a) b) : FirstSplit p s a b := by
  refine ⟨(List.cons.inj h.split).2, ?_⟩
  intro a' b' hs
  have hfirst := h.first (x :: a') b' (by simp [hs])
  simpa using hfirst

theorem FirstSplit.cons (h : FirstSplit p s a b) (hp : ¬ p <+: x :: s) :
    FirstSplit p (x :: s) (x :: a) b := by
  refine ⟨by simp [h.split], ?_⟩
  intro a' b' hs
  cases a' with
  | nil => exact absurd ⟨b', hs.symm⟩ hp
  | cons y a' =>
    have hfirst := h.first a' b' (List.cons.inj hs).2
    simpa using hfirst

theorem exists_firstSplit (h : p <:+: s) : ∃ a b, FirstSplit p s a b := by
  induction s with
  | nil =>
    obtain rfl := List.infix_nil.mp h
    exact ⟨[], [], rfl, fun _ _ _ => Nat.zero_le _⟩
  | cons x s ih =>
    by_cases hp : p <+: x :: s
    · obtain ⟨b, hb⟩ := hp
      exact ⟨[], b, hb.symm, fun _ _ _ => Nat.zero_le _⟩
    · obtain ⟨a, b, hab⟩ := ih ((List.infix_cons_iff.mp h).resolve_left hp)
      exact ⟨x :: a, b, hab.cons hp⟩

theorem firstSplit_singleton (hx : x ∉ a) : FirstSplit [x] (a ++ [x] ++ b) a b := by
  refine ⟨rfl, ?_⟩
  intro a' b' hs
  by_contra hlt
  apply hx
  have hat := congrArg (fun l : List α => l[a'.length]?) hs
  simp only [List.append_assoc] at hat
  rw [List.getElem?_append_left (not_le.mp hlt)] at hat
  exact List.mem_of_getElem? (hat.trans (by simp))

def Borderless (p : List α) : Prop := ∀ k < p.length, 0 < k → ¬ p.take k <:+ p

theorem firstSplit_of_borderless (hp : Borderless p) (ha : ¬ p <:+: a) : FirstSplit p (a ++ p ++ b) a b := by
  refine ⟨rfl, ?_⟩
  intro a' b' hs
  by_contra hlt
  have hleft : a <+: a ++ p ++ b := ⟨p ++ b, by rw [List.append_assoc]⟩
  have hright : a' <+: a ++ p ++ b := ⟨p ++ b', by rw [hs, List.append_assoc]⟩
  obtain ⟨c, rfl⟩ := List.prefix_of_prefix_length_le hright hleft (not_le.mp hlt).le
  have hc : c ++ (p ++ b) = p ++ b' := by simpa using hs
  have hcp : c <+: p ++ b' := ⟨p ++ b, hc⟩
  have hpp : p <+: p ++ b' := ⟨b', rfl⟩
  rcases le_or_gt p.length c.length with hle | hlt
  · have hpc : p <:+: c := (List.prefix_of_prefix_length_le hpp hcp hle).isInfix
    exact ha (hpc.trans (List.suffix_append a' c).isInfix)
  · -- the two occurrences overlap in `d`, a prefix of the one and a suffix of the other
    obtain ⟨d, hd⟩ := List.prefix_of_prefix_length_le hcp hpp hlt.le
    have hoverlap : p ++ b = d ++ b' := by
      have hsame : c ++ (p ++ b) = c ++ (d ++ b') := by rw [hc, ← List.append_assoc, hd]
      exact List.append_cancel_left hsame
    have hlength : c.length + d.length = p.length := by rw [← List.length_append, hd]
    have hshort : d.length < p.length := by
      simp only [List.length_append] at *
      omega
    have hdp : d <+: p := List.prefix_of_prefix_length_le ⟨b', hoverlap.symm⟩ ⟨b, rfl⟩ hshort.le
    apply hp d.length hshort (by omega)
    rw [← List.prefix_iff_eq_take.mp hdp]
    exact ⟨c, hd⟩

variable [DecidableEq α]

instance : Decidable (Borderless p) := Nat.decidableBallLT _ _

def search (p : List α) : List α → Option ℕ
  | [] => if p = [] then some 0 else none
  | x :: s => if p <+: x :: s then some 0 else (search p s).map (· + 1)

theorem search_eq_none_iff : search p s = none ↔ ¬ p <:+: s := by
  induction s with
  | nil => simp [search]
  | cons x s ih =>
    by_cases hp : p <+: x :: s
    · simp [search, hp, hp.isInfix]
    · simp [search, hp, ih, List.infix_cons_iff]

theorem search_of_firstSplit (h : FirstSplit p s a b) : search p s = some a.length := by
  induction s generalizing a with
  | nil =>
    obtain ⟨rfl, rfl, -⟩ : a = [] ∧ p = [] ∧ b = [] := by simpa using h.split.symm
    rfl
  | cons x s ih =>
    by_cases hp : p <+: x :: s
    · obtain ⟨b', hb'⟩ := hp
      have hzero : a.length = 0 := Nat.le_zero.mp (h.first [] b' hb'.symm)
      rw [hzero, search, if_pos ⟨b', hb'⟩]
    · cases a with
      | nil => exact absurd ⟨b, h.split.symm⟩ hp
      | cons y a =>
        obtain rfl : x = y := (List.cons.inj h.split).1
        rw [search, if_neg hp, ih h.tail]
        rfl

end XconnCpp.Library.Search

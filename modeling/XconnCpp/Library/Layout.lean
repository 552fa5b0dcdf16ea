import XconnCpp.Library.Tree
import Mathlib.Algebra.Order.BigOperators.Group.List
import Mathlib.Algebra.Order.Group.Nat

namespace XconnCpp.Library.Tree

structure Style (K α : Type) where
  listOpen : List α
  listClose : List α
  dictOpen : List α
  dictClose : List α
  separator : List α
  key : K → List α

variable {K L α : Type}

mutual

def leaves : Tree K L → List L
  | .leaf l => [l]
  | .list xs => leavesList xs
  | .dict d => leavesDict d

def leavesList : List (Tree K L) → List L
  | [] => []
  | x :: xs => leaves x ++ leavesList xs

def leavesDict : List (K × Tree K L) → List L
  | [] => []
  | (_, x) :: d => leaves x ++ leavesDict d

end

section Layout

variable (style : Style K α) (f : L → List α)

mutual

def layout : Tree K L → List α
  | .leaf l => f l
  | .list xs => style.listOpen ++ style.separator.intercalate (layoutList xs) ++ style.listClose
  | .dict d => style.dictOpen ++ style.separator.intercalate (layoutDict d) ++ style.dictClose

def layoutList : List (Tree K L) → List (List α)
  | [] => []
  | x :: xs => layout x :: layoutList xs

def layoutDict : List (K × Tree K L) → List (List α)
  | [] => []
  | (k, x) :: d => (style.key k ++ layout x) :: layoutDict d

end

end Layout

theorem intercalate_cons (separator x : List α) (xs : List (List α)) :
    separator.intercalate (x :: xs) = x ++ xs.flatMap (separator ++ ·) := by
  induction xs generalizing x with
  | nil => simp
  | cons y xs ih =>
    rw [List.intercalate_cons_cons, ih, List.flatMap_cons]
    simp

theorem length_intercalate (separator : List α) (xs : List (List α)) :
    (separator.intercalate xs).length = xs.flatten.length + separator.length * (xs.length - 1) := by
  cases xs with
  | nil => rfl
  | cons x xs =>
    rw [intercalate_cons]
    induction xs with
    | nil => simp
    | cons y xs ih =>
      simp only [List.length_append, List.flatMap_cons, List.flatten_cons, List.length_cons,
        Nat.add_sub_cancel] at ih ⊢
      rw [Nat.mul_add_one]
      omega

section Lengths

variable {style : Style K α} {f g : L → List α}

def weight (f : L → List α) (ls : List L) : ℕ := (ls.flatMap f).length

theorem weight_append (ls ms : List L) : weight f (ls ++ ms) = weight f ls + weight f ms := by
  simp [weight]

@[simp] theorem length_layoutList (xs : List (Tree K L)) : (layoutList style f xs).length = xs.length := by
  induction xs with
  | nil => rfl
  | cons x xs ih => simp [layoutList, ih]

@[simp] theorem length_layoutDict (d : List (K × Tree K L)) : (layoutDict style f d).length = d.length := by
  induction d with
  | nil => rfl
  | cons e d ih => simp [layoutDict, ih]

mutual

theorem length_layout : (t : Tree K L) →
    (layout style f t).length = (layout style (fun _ => []) t).length + weight f (leaves t)
  | .leaf l => by simp [layout, leaves, weight]
  | .list xs => by
    have hxs := length_layoutList_flatten xs
    simp only [layout, leaves, List.length_append, length_intercalate, length_layoutList]
    omega
  | .dict d => by
    have hd := length_layoutDict_flatten d
    simp only [layout, leaves, List.length_append, length_intercalate, length_layoutDict]
    omega

theorem length_layoutList_flatten : (xs : List (Tree K L)) →
    (layoutList style f xs).flatten.length =
      (layoutList style (fun _ => []) xs).flatten.length + weight f (leavesList xs)
  | [] => rfl
  | x :: xs => by
    have hx := length_layout x
    have hxs := length_layoutList_flatten xs
    simp only [layoutList, leavesList, List.flatten_cons, List.length_append, weight_append]
    omega

theorem length_layoutDict_flatten : (d : List (K × Tree K L)) →
    (layoutDict style f d).flatten.length =
      (layoutDict style (fun _ => []) d).flatten.length + weight f (leavesDict d)
  | [] => rfl
  | (k, x) :: d => by
    have hx := length_layout x
    have hd := length_layoutDict_flatten d
    simp only [layoutDict, leavesDict, List.flatten_cons, List.length_append, weight_append]
    omega

end

mutual

theorem layout_congr : (t : Tree K L) → (∀ l ∈ leaves t, f l = g l) → layout style f t = layout style g t
  | .leaf l, h => h l (by simp [leaves])
  | .list xs, h => by rw [layout, layout, layoutList_congr xs h]
  | .dict d, h => by rw [layout, layout, layoutDict_congr d h]

theorem layoutList_congr : (xs : List (Tree K L)) → (∀ l ∈ leavesList xs, f l = g l) →
    layoutList style f xs = layoutList style g xs
  | [], _ => rfl
  | x :: xs, h => by
    have hx := layout_congr x fun l hl => h l (List.mem_append_left _ hl)
    have hxs := layoutList_congr xs fun l hl => h l (List.mem_append_right _ hl)
    rw [layoutList, layoutList, hx, hxs]

theorem layoutDict_congr : (d : List (K × Tree K L)) → (∀ l ∈ leavesDict d, f l = g l) →
    layoutDict style f d = layoutDict style g d
  | [], _ => rfl
  | (k, x) :: d, h => by
    have hx := layout_congr x fun l hl => h l (List.mem_append_left _ hl)
    have hd := layoutDict_congr d fun l hl => h l (List.mem_append_right _ hl)
    rw [layoutDict, layoutDict, hx, hd]

end

/-- Two ways to write leaves, of which one writes some shorter, give the same text for a tree just if they
write its leaves alike. -/
theorem layout_eq_iff {t : Tree K L} (h : ∀ l ∈ leaves t, f l = g l ∨ (f l).length < (g l).length) :
    layout style f t = layout style g t ↔ ∀ l ∈ leaves t, f l = g l := by
  refine ⟨fun he => ?_, layout_congr t⟩
  by_contra hne
  push Not at hne
  obtain ⟨l, hl, hne⟩ := hne
  have hle (m : L) (hm : m ∈ leaves t) : (f m).length ≤ (g m).length :=
    (h m hm).elim (fun he => he ▸ le_rfl) le_of_lt
  have hlt : weight f (leaves t) < weight g (leaves t) := by
    rw [weight, weight, List.length_flatMap, List.length_flatMap]
    exact List.sum_lt_sum _ _ hle ⟨l, hl, (h l hl).resolve_left hne⟩
  have hlength := congrArg List.length he
  rw [length_layout, length_layout (f := g)] at hlength
  omega

end Lengths

end XconnCpp.Library.Tree

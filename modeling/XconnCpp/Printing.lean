import XconnCpp.Library.Layout
import XconnCpp.Values

namespace XconnCpp.Values

open Library Library.Tree

variable {nullable : Prop}

def Scalar.IsInteger : Scalar nullable → Prop
  | .int64 _ | .uint64 _ => True
  | _ => False

def Scalar.IsNullPointer : Scalar nullable → Bool
  | .nullptr _ _ => true
  | _ => false

def Value.IsInteger : Value → Prop
  | .leaf v => v.IsInteger
  | _ => False

section Reference

def quoted (s : Str) : Str := ascii "\"" ++ s ++ ascii "\""

def textStyle : Style Str UInt8 where
  listOpen := ascii "["
  listClose := ascii "]"
  dictOpen := ascii "\x7b"
  dictClose := ascii "\x7d"
  separator := ascii ", "
  key k := quoted k ++ ascii ": "

def numeral (n : ℤ) : Str := if n < 0 then ascii "-" ++ decimal n.natAbs else decimal n.natAbs

def renderScalar : Scalar nullable → Str
  | .null => ascii "null"
  | .int64 v => numeral v.toInt
  | .uint64 v => numeral v.toNat
  | .double v => printDouble v
  | .bool v => if v then ascii "1" else ascii "0"
  | .string v => quoted v
  | .bytes v => ascii "bytes[" ++ decimal v.length ++ ascii "]"
  -- not rendered
  | .nullptr _ _ => []

/-- The form in which a value is to be printed. A null pointer is neither null nor a list or dictionary: there
is no form for a value with one. -/
def render (v : Value) : Option Str :=
  if ∀ l ∈ leaves v, ¬ l.IsNullPointer then some (layout textStyle renderScalar v) else none

end Reference

section Printed

theorem key_eq (k : Str) : textStyle.key k = 34 :: k ++ ascii "\": " := by
  have hsplit : textStyle.key k = ascii "\"" ++ k ++ ascii "\"" ++ ascii ": " := rfl
  rw [hsplit, List.append_assoc]
  rfl

mutual

theorem printValue_eq : (v : ValueOf nullable) → printValue v = layout textStyle printScalar v
  | .leaf _ => rfl
  | .list vs => by
    rw [printValue, printItems_true_eq vs]
    rfl
  | .dict d => by
    rw [printValue, printEntries_true_eq d]
    rfl

theorem printItems_true_eq : (vs : List (ValueOf nullable)) →
    printItems true vs = (ascii ", ").intercalate (layoutList textStyle printScalar vs)
  | [] => rfl
  | v :: vs => by
    rw [printItems, printValue_eq v, printItems_false_eq vs, layoutList, intercalate_cons]
    rfl

theorem printItems_false_eq : (vs : List (ValueOf nullable)) →
    printItems false vs = (layoutList textStyle printScalar vs).flatMap (ascii ", " ++ ·)
  | [] => rfl
  | v :: vs => by
    rw [printItems, printValue_eq v, printItems_false_eq vs, layoutList, List.flatMap_cons]
    rfl

theorem printEntries_true_eq : (d : DictOf nullable) →
    printEntries true d = (ascii ", ").intercalate (layoutDict textStyle printScalar d)
  | [] => rfl
  | (k, v) :: d => by
    rw [printEntries, printValue_eq v, printEntries_false_eq d, layoutDict, intercalate_cons, key_eq]
    rfl

theorem printEntries_false_eq : (d : DictOf nullable) →
    printEntries false d = (layoutDict textStyle printScalar d).flatMap (ascii ", " ++ ·)
  | [] => rfl
  | (k, v) :: d => by
    rw [printEntries, printValue_eq v, printEntries_false_eq d, layoutDict, List.flatMap_cons, key_eq]
    simp

end

theorem length_numeral_pos (n : ℤ) : 0 < (numeral n).length := by
  have hdecimal (m : ℕ) : 0 < (decimal m).length := by
    rw [decimal, List.length_map]
    exact Nat.length_toDigits_pos
  rw [numeral]
  split
  · rw [List.length_append]
    exact Nat.add_pos_right _ (hdecimal _)
  · exact hdecimal _

theorem length_printScalar_lt {v : Scalar nullable} (h : v.IsInteger) :
    (printScalar v).length < (renderScalar v).length := by
  cases v with
  | int64 v => exact length_numeral_pos _
  | uint64 v => exact length_numeral_pos _
  | _ => exact h.elim

theorem printScalar_eq_iff {v : Scalar nullable} (hv : ¬ v.IsNullPointer) :
    printScalar v = renderScalar v ↔ ¬ v.IsInteger := by
  constructor
  · intro he h
    exact (length_printScalar_lt h).ne (congrArg List.length he)
  · intro h
    cases v with
    | int64 v => exact absurd trivial h
    | uint64 v => exact absurd trivial h
    | nullptr p hp => exact absurd rfl hv
    | string v => rfl
    | _ => rfl

theorem printScalar_eq_or_lt {v : Scalar nullable} (hv : ¬ v.IsNullPointer) :
    printScalar v = renderScalar v ∨ (printScalar v).length < (renderScalar v).length := by
  by_cases h : v.IsInteger
  · exact .inr (length_printScalar_lt h)
  · exact .inl ((printScalar_eq_iff hv).mpr h)

theorem printValue_eq_render_iff (v : Value) :
    render v = some (printValue v) ↔ ∀ l ∈ leaves v, ¬ l.IsInteger ∧ ¬ l.IsNullPointer := by
  by_cases hnull : ∀ l ∈ leaves v, ¬ l.IsNullPointer
  · rw [render, if_pos hnull, Option.some_inj, eq_comm, printValue_eq,
      layout_eq_iff fun l hl => printScalar_eq_or_lt (hnull l hl)]
    refine forall₂_congr fun l hl => ?_
    rw [printScalar_eq_iff (hnull l hl), and_iff_left (hnull l hl)]
  · rw [render, if_neg hnull]
    exact iff_of_false (Option.some_ne_none _).symm fun h => hnull fun l hl => (h l hl).2

theorem printItems_of_integers {args args' : List Value} (h : ∀ v ∈ args, v.IsInteger)
    (h' : ∀ v ∈ args', v.IsInteger) (hlength : args.length = args'.length) (first : Bool) :
    printItems first args = printItems first args' := by
  have hblank {v : Value} (hv : v.IsInteger) : printValue v = [] := by
    cases v with
    | leaf v => cases v <;> first | rfl | exact hv.elim
    | _ => exact hv.elim
  induction args generalizing args' first with
  | nil =>
    obtain rfl := List.length_eq_zero_iff.mp hlength.symm
    rfl
  | cons v args ih =>
    cases args' with
    | nil => cases hlength
    | cons v' args' =>
      have hrest := ih (fun w hw => h w (List.mem_cons_of_mem _ hw))
        (fun w hw => h' w (List.mem_cons_of_mem _ hw)) (Nat.succ.inj hlength) false
      rw [printItems, printItems, hblank (h v List.mem_cons_self), hblank (h' v' List.mem_cons_self), hrest]

theorem what_of_integers (message : Str) {args args' : List Value} (h : ∀ v ∈ args, v.IsInteger)
    (h' : ∀ v ∈ args', v.IsInteger) (hlength : args.length = args'.length) :
    (ApplicationError.mk message args []).what = (ApplicationError.mk message args' []).what := by
  have hnil : args = [] ↔ args' = [] := by
    rw [← List.length_eq_zero_iff, ← List.length_eq_zero_iff, hlength]
  simp only [ApplicationError.what, printValue, printItems_of_integers h h' hlength, hnil]

/-- What is printed is the form it should have just if no integer and no null pointer is in it, and two
errors with nothing but integers never differ in what they say. -/
theorem printed_iff (v : Value) (message : Str) (args args' : List Value) :
    (render v = some (printValue v) ↔ ∀ l ∈ leaves v, ¬ l.IsInteger ∧ ¬ l.IsNullPointer) ∧
      ((∀ v ∈ args, v.IsInteger) → (∀ v ∈ args', v.IsInteger) → args.length = args'.length →
        (ApplicationError.mk message args []).what = (ApplicationError.mk message args' []).what) :=
  ⟨printValue_eq_render_iff v, fun h h' hlength => what_of_integers message h h' hlength⟩

theorem integers_unseen :
    render (.list [.leaf (.int64 7)]) ≠ some (printValue (.list [.leaf (.int64 7)] : Value)) ∧
      ¬ ((ApplicationError.mk (ascii "com.example.error") [.leaf (.int64 1)] [] : ApplicationError True).what ≠
        (ApplicationError.mk (ascii "com.example.error") [.leaf (.int64 2)] [] : ApplicationError True).what) := by
  decide +kernel

end Printed

end XconnCpp.Values

import XconnCpp.Library.Program
import XconnCpp.Values
import Mathlib.Data.Option.Basic

namespace XconnCpp.Values

open Library.Program

abbrev Access (T : Type) := Outcome Empty (Option T)

section Containers

variable {nullable : Prop}

def arrow {T : Type} (found : Option (ValueOf nullable)) (getter : ValueOf nullable → Option T) : Access T :=
  found.elim .undefined fun v => .returned (getter v)

def tested {T : Type} (found : Option (ValueOf nullable)) (getter : ValueOf nullable → Pointer T) :
    Access (Pointer T) :=
  match found with
  | none => .returned none
  | some v =>
    match getter v with
    | none => .returned none
    | some x => .returned (some (some x))

def Access.map {S T : Type} (convert : S → T) : Access S → Access T
  | .returned o => .returned (o.map convert)
  | .undefined => .undefined

namespace ListGetters

variable (list : List (ValueOf nullable)) (index : ℤ)

def get : Option (ValueOf nullable) := if index < 0 ∨ list.length ≤ index then none else list[index.toNat]?

def getString : Access Str := arrow (get list index) Value.getString
def getBool : Access Bool := arrow (get list index) Value.getBool
def getInt64 : Access Int64 := arrow (get list index) Value.getInt64
-- the return type is `std::optional<int64_t>`
def getUInt64 : Access Int64 := (arrow (get list index) Value.getUInt64).map UInt64.toInt64
def getDouble : Access Double := arrow (get list index) Value.getDouble
def getBytes : Access (List UInt8) := arrow (get list index) Value.getBytes
def getList : Access (Pointer (List (ValueOf nullable))) := tested (get list index) Value.getList
def getDict : Access (Pointer (DictOf nullable)) := tested (get list index) Value.getDict

end ListGetters

namespace DictGetters

variable (dict : DictOf nullable) (key : Str)

def get : Option (ValueOf nullable) := dict.lookup key

def getString : Access Str := arrow (get dict key) Value.getString
def getBool : Access Bool := arrow (get dict key) Value.getBool
def getInt64 : Access Int64 := arrow (get dict key) Value.getInt64
def getUInt64 : Access UInt64 := arrow (get dict key) Value.getUInt64
def getDouble : Access Double := arrow (get dict key) Value.getDouble
def getBytes : Access (List UInt8) := arrow (get dict key) Value.getBytes
def getList : Access (Pointer (List (ValueOf nullable))) := tested (get dict key) Value.getList
def getDict : Access (Pointer (DictOf nullable)) := tested (get dict key) Value.getDict

end DictGetters

namespace ArgsHelper

variable (helper : ArgsHelper nullable) (index : ℤ)

def argString : Access Str := ListGetters.getString helper.args index
def argBool : Access Bool := ListGetters.getBool helper.args index
def argInt64 : Access Int64 := ListGetters.getInt64 helper.args index
-- converted back from `int64_t`
def argUInt64 : Access UInt64 := (ListGetters.getUInt64 helper.args index).map Int64.toUInt64
def argDouble : Access Double := ListGetters.getDouble helper.args index
def argBytes : Access (List UInt8) := ListGetters.getBytes helper.args index
def argList : Access (Pointer (List (ValueOf nullable))) := ListGetters.getList helper.args index
def argDict : Access (Pointer (DictOf nullable)) := ListGetters.getDict helper.args index

end ArgsHelper

namespace KwargsHelper

variable (helper : KwargsHelper nullable) (key : Str)

def kwargString : Access Str := DictGetters.getString helper.kwargs key
def kwargBool : Access Bool := DictGetters.getBool helper.kwargs key
def kwargInt64 : Access Int64 := DictGetters.getInt64 helper.kwargs key
def kwargUInt64 : Access UInt64 := DictGetters.getUInt64 helper.kwargs key
def kwargDouble : Access Double := DictGetters.getDouble helper.kwargs key
def kwargBytes : Access (List UInt8) := DictGetters.getBytes helper.kwargs key
def kwargList : Access (Pointer (List (ValueOf nullable))) := DictGetters.getList helper.kwargs key
def kwargDict : Access (Pointer (DictOf nullable)) := DictGetters.getDict helper.kwargs key

end KwargsHelper

end Containers

inductive Alternative
  | string
  | bool
  | int64
  | uint64
  | double
  | bytes
  | list
  | dict
  deriving DecidableEq

namespace Alternative

variable {nullable : Prop}

@[reducible] def Stored (nullable : Prop) : Alternative → Type
  | .string => Str
  | .bool => Bool
  | .int64 => Int64
  | .uint64 => UInt64
  | .double => Double
  | .bytes => List UInt8
  | .list => Pointer (List (ValueOf nullable))
  | .dict => Pointer (DictOf nullable)

def store : (a : Alternative) → a.Stored True → Value
  | .string, v => .leaf (.string v)
  | .bool, v => .leaf (.bool v)
  | .int64, v => .leaf (.int64 v)
  | .uint64, v => .leaf (.uint64 v)
  | .double, v => .leaf (.double v)
  | .bytes, v => .leaf (.bytes v)
  | .list, some v => .list v
  | .list, none => .leaf (.nullptr .list trivial)
  | .dict, some v => .dict v
  | .dict, none => .leaf (.nullptr .dict trivial)

def stored : (a : Alternative) → Value → Option (a.Stored True)
  | .string => Value.getString
  | .bool => Value.getBool
  | .int64 => Value.getInt64
  | .uint64 => Value.getUInt64
  | .double => Value.getDouble
  | .bytes => Value.getBytes
  | .list => fun
    | .list v => some (some v)
    | .leaf (.nullptr .list _) => some none
    | _ => none
  | .dict => fun
    | .dict v => some (some v)
    | .leaf (.nullptr .dict _) => some none
    | _ => none

@[reducible] def Content (nullable : Prop) : Alternative → Type
  | .string => Str
  | .bool => Bool
  | .int64 => Int64
  | .uint64 => UInt64
  | .double => Double
  | .bytes => List UInt8
  | .list => List (ValueOf nullable)
  | .dict => DictOf nullable

def read : (a : Alternative) → ValueOf nullable → Option (a.Content nullable)
  | .string => Value.getString
  | .bool => Value.getBool
  | .int64 => Value.getInt64
  | .uint64 => Value.getUInt64
  | .double => Value.getDouble
  | .bytes => Value.getBytes
  | .list => Value.getList
  | .dict => Value.getDict

def content : (a : Alternative) → a.Stored nullable → Option (a.Content nullable)
  | .string, v => some v
  | .bool, v => some v
  | .int64, v => some v
  | .uint64, v => some v
  | .double, v => some v
  | .bytes, v => some v
  | .list, v => v
  | .dict, v => v

@[reducible] def Listed (nullable : Prop) : Alternative → Type
  | .uint64 => Int64
  | .string => Str
  | .bool => Bool
  | .int64 => Int64
  | .double => Double
  | .bytes => List UInt8
  | .list => Pointer (List (ValueOf nullable))
  | .dict => Pointer (DictOf nullable)

def SameNumber : (a : Alternative) → a.Listed nullable → a.Stored nullable → Prop
  | .uint64, m, n => m.toInt = n.toNat
  | .string, v, w => v = w
  | .bool, v, w => v = w
  | .int64, v, w => v = w
  | .double, v, w => v = w
  | .bytes, v, w => v = w
  | .list, v, w => v = w
  | .dict, v, w => v = w

def listGetter (list : List (ValueOf nullable)) (index : ℤ) : (a : Alternative) → Access (a.Listed nullable)
  | .string => ListGetters.getString list index
  | .bool => ListGetters.getBool list index
  | .int64 => ListGetters.getInt64 list index
  | .uint64 => ListGetters.getUInt64 list index
  | .double => ListGetters.getDouble list index
  | .bytes => ListGetters.getBytes list index
  | .list => ListGetters.getList list index
  | .dict => ListGetters.getDict list index

def dictGetter (dict : DictOf nullable) (key : Str) : (a : Alternative) → Access (a.Stored nullable)
  | .string => DictGetters.getString dict key
  | .bool => DictGetters.getBool dict key
  | .int64 => DictGetters.getInt64 dict key
  | .uint64 => DictGetters.getUInt64 dict key
  | .double => DictGetters.getDouble dict key
  | .bytes => DictGetters.getBytes dict key
  | .list => DictGetters.getList dict key
  | .dict => DictGetters.getDict dict key

def argGetter (helper : ArgsHelper nullable) (index : ℤ) : (a : Alternative) → Access (a.Stored nullable)
  | .string => helper.argString index
  | .bool => helper.argBool index
  | .int64 => helper.argInt64 index
  | .uint64 => helper.argUInt64 index
  | .double => helper.argDouble index
  | .bytes => helper.argBytes index
  | .list => helper.argList index
  | .dict => helper.argDict index

def kwargGetter (helper : KwargsHelper nullable) (key : Str) : (a : Alternative) → Access (a.Stored nullable)
  | .string => helper.kwargString key
  | .bool => helper.kwargBool key
  | .int64 => helper.kwargInt64 key
  | .uint64 => helper.kwargUInt64 key
  | .double => helper.kwargDouble key
  | .bytes => helper.kwargBytes key
  | .list => helper.kwargList key
  | .dict => helper.kwargDict key

def access : (a : Alternative) → Option (ValueOf nullable) → Access (a.Stored nullable)
  | .string, found => arrow found Value.getString
  | .bool, found => arrow found Value.getBool
  | .int64, found => arrow found Value.getInt64
  | .uint64, found => arrow found Value.getUInt64
  | .double, found => arrow found Value.getDouble
  | .bytes, found => arrow found Value.getBytes
  | .list, found => tested found Value.getList
  | .dict, found => tested found Value.getDict

def isContainer (a : Alternative) : Prop := a = .list ∨ a = .dict

def IsNull : (a : Alternative) → a.Stored nullable → Prop
  | .list, v => v = none
  | .dict, v => v = none
  | _, _ => False

theorem stored_store (a : Alternative) (x : a.Stored True) : a.stored (a.store x) = some x := by
  cases a with
  | list => cases x <;> rfl
  | dict => cases x <;> rfl
  | _ => rfl

theorem stored_eq_some_iff (a : Alternative) (v : Value) (x : a.Stored True) :
    a.stored v = some x ↔ v = a.store x := by
  constructor
  · intro h
    cases v with
    | leaf v =>
      cases v with
      | nullptr p _ => cases p <;> cases a <;> cases h <;> rfl
      | _ => cases a <;> cases h <;> rfl
    | list v =>
      cases a <;> cases h
      rfl
    | dict v =>
      cases a <;> cases h
      rfl
  · rintro rfl
    exact a.stored_store x

theorem read_eq (a : Alternative) (v : Value) : a.read v = (a.stored v).bind a.content := by
  cases v with
  | leaf v =>
    cases v with
    | nullptr p _ => cases p <;> cases a <;> rfl
    | _ => cases a <;> rfl
  | _ => cases a <;> rfl

theorem getList_eq (v : Value) : Value.getList v = (Alternative.list.stored v).join :=
  Alternative.list.read_eq v

theorem getDict_eq (v : Value) : Value.getDict v = (Alternative.dict.stored v).join :=
  Alternative.dict.read_eq v

end Alternative

def Lifts {S T : Type} (same : S → T → Prop) (expected : Option T) (access : Access S) : Prop :=
  ∃ o, access = .returned o ∧ Option.Rel same o expected

section Lifting

variable {T : Type} {found : Option Value} {getter : Value → Option T}

theorem lifts_eq_iff {expected : Option T} {access : Access T} :
    Lifts (· = ·) expected access ↔ access = .returned expected := by
  constructor
  · rintro ⟨o, rfl, hrel⟩
    cases hrel with
    | some h => rw [h]
    | none => rfl
  · rintro rfl
    refine ⟨expected, rfl, ?_⟩
    cases expected with
    | none => exact .none
    | some x => exact .some rfl

theorem lifts_arrow_iff : Lifts (· = ·) (found.bind getter) (arrow found getter) ↔ found ≠ none := by
  rw [lifts_eq_iff]
  cases found <;> simp [arrow]

theorem lifts_tested_iff {getter : Value → Pointer T} {stored : Value → Option (Pointer T)}
    (h : ∀ v, getter v = (stored v).join) :
    Lifts (· = ·) (found.bind stored) (tested found getter) ↔ ∀ x, found.bind stored = some x → x ≠ none := by
  rw [lifts_eq_iff]
  cases found with
  | none => simp [tested]
  | some v => rcases hv : stored v with _ | _ | x <;> simp [tested, h, hv]

theorem toInt_toInt64_iff (n : UInt64) : n.toInt64.toInt = n.toNat ↔ n.toNat < 2 ^ 63 := by
  have hint : n.toInt64.toInt = n.toBitVec.toInt := rfl
  have hnat : n.toBitVec.toNat = n.toNat := rfl
  have hlt := n.toNat_lt
  rw [hint, BitVec.toInt_eq_toNat_cond, hnat]
  split <;> omega

theorem lifts_narrowed_iff : Lifts (@Alternative.SameNumber True .uint64)
    (found.bind Value.getUInt64) ((arrow found Value.getUInt64).map UInt64.toInt64) ↔
      found ≠ none ∧ ∀ n, found = some (.leaf (.uint64 n)) → n.toNat < 2 ^ 63 := by
  cases found with
  | none => simp [Lifts, arrow, Access.map]
  | some v =>
    cases hv : Value.getUInt64 v with
    | none =>
      have hne (n : UInt64) : v ≠ .leaf (.uint64 n) := by
        rintro rfl
        cases hv
      simp [Lifts, arrow, Access.map, hv, hne]
    | some n =>
      obtain rfl := (Alternative.uint64.stored_eq_some_iff v n).mp hv
      have hsame : Lifts (@Alternative.SameNumber True .uint64) (some n)
          (.returned (some n.toInt64)) ↔ n.toNat < 2 ^ 63 := by
        simp [Lifts, Alternative.SameNumber, toInt_toInt64_iff]
      refine hsame.trans ?_
      simp [Alternative.store]

theorem widened_narrowed : ((arrow found Value.getUInt64).map UInt64.toInt64).map Int64.toUInt64 =
    arrow found Value.getUInt64 := by
  cases found with
  | none => rfl
  | some v => cases hv : Value.getUInt64 v <;> simp [arrow, Access.map, hv]

end Lifting

section Getters

variable {list : List Value} {index : ℤ} {dict : Dict} {key : Str} (a : Alternative)

theorem listGet_eq_some_iff {v : Value} :
    ListGetters.get list index = some v ↔ 0 ≤ index ∧ list[index.toNat]? = some v := by
  by_cases hout : index < 0 ∨ list.length ≤ index
  · rw [ListGetters.get, if_pos hout]
    simp only [reduceCtorEq, List.getElem?_eq_some_iff, false_iff, not_and, not_exists]
    intro hnonneg hlt
    omega
  · rw [ListGetters.get, if_neg hout]
    exact (and_iff_right (by omega)).symm

theorem listGet_ne_none_iff : ListGetters.get list index ≠ none ↔ 0 ≤ index ∧ index < list.length := by
  rw [Option.ne_none_iff_exists']
  simp only [listGet_eq_some_iff, exists_and_left]
  apply and_congr_right
  intro hnonneg
  rw [← Option.ne_none_iff_exists', ne_eq, List.getElem?_eq_none_iff]
  omega

theorem dictGet_ne_none_iff : DictGetters.get dict key ≠ none ↔ key ∈ dict.map Prod.fst := by
  simp [DictGetters.get, List.lookup_eq_none_iff]

theorem access_lifts_iff {found : Option Value} : Lifts (· = ·) (found.bind a.stored) (a.access found) ↔
    (found ≠ none ∨ a.isContainer) ∧ ∀ x, found.bind a.stored = some x → ¬ a.IsNull x := by
  cases a with
  | list =>
    exact (lifts_tested_iff Alternative.getList_eq).trans (by simp [Alternative.isContainer, Alternative.IsNull])
  | dict =>
    exact (lifts_tested_iff Alternative.getDict_eq).trans (by simp [Alternative.isContainer, Alternative.IsNull])
  | _ => exact lifts_arrow_iff.trans (by simp [Alternative.isContainer, Alternative.IsNull])

theorem listGetter_lifts_iff :
    Lifts a.SameNumber ((ListGetters.get list index).bind a.stored) (a.listGetter list index) ↔
      (0 ≤ index ∧ index < list.length ∨ a.isContainer) ∧
        (a = .uint64 → ∀ n, ListGetters.get list index = some (.leaf (.uint64 n)) → n.toNat < 2 ^ 63) ∧
        ∀ x, (ListGetters.get list index).bind a.stored = some x → ¬ a.IsNull x := by
  rw [← listGet_ne_none_iff]
  by_cases ha : a = .uint64
  · subst ha
    exact lifts_narrowed_iff.trans (by simp [Alternative.isContainer, Alternative.IsNull])
  · have hget : Lifts a.SameNumber ((ListGetters.get list index).bind a.stored) (a.listGetter list index) ↔
        Lifts (· = ·) ((ListGetters.get list index).bind a.stored) (a.access (ListGetters.get list index)) := by
      cases a with
      | uint64 => exact absurd rfl ha
      | _ => exact Iff.rfl
    rw [hget, access_lifts_iff]
    simp [ha]

theorem dictGetter_lifts_iff :
    Lifts (· = ·) ((DictGetters.get dict key).bind a.stored) (a.dictGetter dict key) ↔
      (key ∈ dict.map Prod.fst ∨ a.isContainer) ∧
        ∀ x, (DictGetters.get dict key).bind a.stored = some x → ¬ a.IsNull x := by
  have hget : a.dictGetter dict key = a.access (DictGetters.get dict key) := by cases a <;> rfl
  rw [← dictGet_ne_none_iff, hget]
  exact access_lifts_iff a

theorem argGetter_lifts_iff (helper : ArgsHelper True) :
    Lifts (· = ·) ((ListGetters.get helper.args index).bind a.stored) (a.argGetter helper index) ↔
      (0 ≤ index ∧ index < helper.args.length ∨ a.isContainer) ∧
        ∀ x, (ListGetters.get helper.args index).bind a.stored = some x → ¬ a.IsNull x := by
  have hget : a.argGetter helper index = a.access (ListGetters.get helper.args index) := by
    cases a with
    | uint64 => exact widened_narrowed
    | _ => rfl
  rw [← listGet_ne_none_iff, hget]
  exact access_lifts_iff a

theorem kwargGetter_eq {nullable : Prop} (helper : KwargsHelper nullable) :
    a.kwargGetter helper key = a.dictGetter helper.kwargs key := by
  cases a <;> rfl

/-- The getters of `Value` give what is stored. Those of the containers lift them just if there is
something at the index or key, or the getter tests for it, and, for the unsigned integers of a `List`, the
number is below `2 ^ 63`; the helpers give these numbers back. No null pointer is given. -/
theorem getters_lift_iff (a : Alternative) (v : Value) (list : List Value) (index : ℤ) (dict : Dict)
    (key : Str) (argsHelper : ArgsHelper True) (kwargsHelper : KwargsHelper True) :
    ((∀ x, a.stored v = some x ↔ v = a.store x) ∧ a.read v = (a.stored v).bind a.content) ∧
    (Lifts a.SameNumber ((ListGetters.get list index).bind a.stored) (a.listGetter list index) ↔
      (0 ≤ index ∧ index < list.length ∨ a.isContainer) ∧
        (a = .uint64 → ∀ n, ListGetters.get list index = some (.leaf (.uint64 n)) → n.toNat < 2 ^ 63) ∧
        ∀ x, (ListGetters.get list index).bind a.stored = some x → ¬ a.IsNull x) ∧
    (Lifts (· = ·) ((DictGetters.get dict key).bind a.stored) (a.dictGetter dict key) ↔
      (key ∈ dict.map Prod.fst ∨ a.isContainer) ∧
        ∀ x, (DictGetters.get dict key).bind a.stored = some x → ¬ a.IsNull x) ∧
    (Lifts (· = ·) ((ListGetters.get argsHelper.args index).bind a.stored) (a.argGetter argsHelper index) ↔
      (0 ≤ index ∧ index < argsHelper.args.length ∨ a.isContainer) ∧
        ∀ x, (ListGetters.get argsHelper.args index).bind a.stored = some x → ¬ a.IsNull x) ∧
    (Lifts (· = ·) ((DictGetters.get kwargsHelper.kwargs key).bind a.stored)
        (a.kwargGetter kwargsHelper key) ↔
      (key ∈ kwargsHelper.kwargs.map Prod.fst ∨ a.isContainer) ∧
        ∀ x, (DictGetters.get kwargsHelper.kwargs key).bind a.stored = some x → ¬ a.IsNull x) := by
  refine ⟨⟨a.stored_eq_some_iff v, a.read_eq v⟩, listGetter_lifts_iff a, dictGetter_lifts_iff a,
    argGetter_lifts_iff a argsHelper, ?_⟩
  rw [kwargGetter_eq]
  exact dictGetter_lifts_iff a

theorem not_lifts_absent :
    ¬ Lifts (· = ·) ((DictGetters.get [] (ascii "age")).bind Alternative.int64.stored)
        (Alternative.int64.kwargGetter ⟨[]⟩ (ascii "age")) ∧
      ¬ Lifts Alternative.uint64.SameNumber
        ((ListGetters.get [.leaf (.uint64 0x8000000000000000)] 0).bind Alternative.uint64.stored)
        (Alternative.uint64.listGetter [.leaf (.uint64 0x8000000000000000)] 0) ∧
      ¬ Lifts Alternative.list.SameNumber
        ((ListGetters.get [.leaf (.nullptr .list trivial)] 0).bind Alternative.list.stored)
        (Alternative.list.listGetter [.leaf (.nullptr .list trivial)] 0) := by
  refine ⟨?_, ?_, ?_⟩
  · rintro ⟨o, h, -⟩
    cases h
  · intro h
    have hsmall := (lifts_narrowed_iff.mp h).2 _ (listGet_eq_some_iff.mpr ⟨le_refl 0, rfl⟩)
    exact absurd hsmall (by decide)
  · intro h
    cases lifts_eq_iff.mp h

end Getters

section Received

def Alternative.widen {nullable : Prop} : (a : Alternative) → a.Listed nullable → a.Stored nullable
  | .uint64, n => n.toUInt64
  | .string, v => v
  | .bool, v => v
  | .int64, v => v
  | .double, v => v
  | .bytes, v => v
  | .list, v => v
  | .dict, v => v

def Result.ofC (args : List CValue) (kwargs details : CDict) : Result :=
  ⟨fromCList args, fromCDict kwargs, fromCDict details⟩

def Invocation.ofC (args : List CValue) (kwargs details : CDict) : Invocation :=
  ⟨fromCList args, fromCDict kwargs, fromCDict details⟩

def Event.ofC (args : List CValue) (kwargs details : CDict) : Event :=
  .make (fromCList args) (fromCDict kwargs) (fromCDict details)

structure Agree (args : List CValue) (kwargs details : CDict) (publicArgs : List WholeValue)
    (publicKwargs publicDetails : WholeDict) (argsHelper : ArgsHelper False)
    (kwargsHelper : KwargsHelper False) : Prop where
  args : publicArgs = fromCList args
  kwargs : publicKwargs = fromCDict kwargs
  details : publicDetails = fromCDict details
  argX : ∀ (index : ℤ) (a : Alternative),
    a.argGetter argsHelper index = (a.listGetter publicArgs index).map a.widen
  kwargX : ∀ (key : Str) (a : Alternative), a.kwargGetter kwargsHelper key = a.dictGetter publicKwargs key

inductive Received
  | result (args : List CValue) (kwargs details : CDict)
  | invocation (args : List CValue) (kwargs details : CDict)
  | event (args : List CValue) (kwargs details : CDict)

def Received.FieldsAgree : Received → Prop
  | .result args kwargs details =>
    let r := Result.ofC args kwargs details
    Agree args kwargs details r.args r.kwargs r.details ⟨r.args⟩ ⟨r.kwargs⟩
  | .invocation args kwargs details =>
    let i := Invocation.ofC args kwargs details
    Agree args kwargs details i.args i.kwargs i.details ⟨i.args⟩ ⟨i.kwargs⟩
  | .event args kwargs details =>
    let e := Event.ofC args kwargs details
    Agree args kwargs details e.args e.kwargs e.details e.argsHelper e.kwargsHelper

def Received.HidesNothing : Received → Prop
  | .event args kwargs _ => args = [] ∧ kwargs = []
  | _ => True

theorem Access.map_id {T : Type} (access : Access T) : access.map id = access := by
  cases access with
  | returned o => simp [Access.map]
  | threw e => cases e
  | undefined => rfl

theorem argGetter_eq {nullable : Prop} (a : Alternative) (helper : ArgsHelper nullable) (index : ℤ) :
    a.argGetter helper index = (a.listGetter helper.args index).map a.widen := by
  cases a with
  | uint64 => rfl
  | _ => exact (Access.map_id _).symm

theorem agree_ofC (args : List CValue) (kwargs details : CDict) :
    Agree args kwargs details (fromCList args) (fromCDict kwargs) (fromCDict details) ⟨fromCList args⟩
      ⟨fromCDict kwargs⟩ :=
  ⟨rfl, rfl, rfl, fun index a => argGetter_eq a _ index, fun _ a => kwargGetter_eq a _⟩

theorem fromCList_eq_nil_iff {args : List CValue} : fromCList args = [] ↔ args = [] := by
  cases args with
  | nil => exact iff_of_true rfl rfl
  | cons v vs => exact iff_of_false (List.cons_ne_nil _ _) (List.cons_ne_nil _ _)

theorem fromCDict_eq_nil_iff {kwargs : CDict} : fromCDict kwargs = [] ↔ kwargs = [] := by
  rw [fromCDict, Library.Tree.collect_eq_nil_iff]
  cases kwargs with
  | nil => exact iff_of_true rfl rfl
  | cons e es => exact iff_of_false (List.cons_ne_nil _ _) (List.cons_ne_nil _ _)

/-- The public fields of an `Event` are its own, which are empty, and not those that its helpers read. -/
theorem fieldsAgree_iff (m : Received) : m.FieldsAgree ↔ m.HidesNothing := by
  cases m with
  | result args kwargs details => exact iff_of_true (agree_ofC args kwargs details) trivial
  | invocation args kwargs details => exact iff_of_true (agree_ofC args kwargs details) trivial
  | event args kwargs details =>
    constructor
    · intro h
      exact ⟨fromCList_eq_nil_iff.mp h.args.symm, fromCDict_eq_nil_iff.mp h.kwargs.symm⟩
    · rintro ⟨rfl, rfl⟩
      exact agree_ofC [] [] details

theorem not_fieldsAgree_event : ¬ (Received.event [.leaf (.int 1)] [] []).FieldsAgree := by
  intro h
  have hargs : ([] : List WholeValue) = [.leaf (.int64 1)] := h.args
  cases hargs

end Received

end XconnCpp.Values

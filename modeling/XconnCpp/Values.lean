import XconnCpp.Library.Tree
import Mathlib.Algebra.Group.Nat.Defs
import Mathlib.Data.List.TakeWhile
import Mathlib.Data.Nat.Log

namespace XconnCpp.Values

open Library

abbrev Str := List UInt8

def ascii (s : String) : Str := s.toList.map fun c => UInt8.ofNat c.toNat

/-- What a reader of `s.c_str()` sees: the bytes before the first NUL. -/
def cStr (s : Str) : Str := s.takeWhile (· ≠ 0)

theorem cStr_eq_self_iff (s : Str) : cStr s = s ↔ 0 ∉ s := by
  simp only [cStr, List.takeWhile_eq_self_iff, decide_eq_true_eq]
  exact ⟨fun h h0 => h 0 h0 rfl, fun h x hx h0 => h (h0 ▸ hx)⟩

theorem cStr_idem (s : Str) : cStr (cStr s) = cStr s := List.takeWhile_idem

/-- A `double` is known by its bit pattern, so that two NaNs may be told apart. -/
structure Double where
  bits : UInt64
  deriving DecidableEq

/-- A null `std::shared_ptr<List>` or `std::shared_ptr<Dict>`. -/
inductive NullPointer
  | list
  | dict
  deriving DecidableEq

inductive Scalar (nullable : Prop)
  | null
  | int64 (v : Int64)
  | uint64 (v : UInt64)
  | double (v : Double)
  | string (v : Str)
  | bool (v : Bool)
  | bytes (v : List UInt8)
  | nullptr (p : NullPointer) (h : nullable)
  deriving DecidableEq

abbrev ValueOf (nullable : Prop) := Tree Str (Scalar nullable)

abbrev DictOf (nullable : Prop) := List (Str × ValueOf nullable)

abbrev Value := ValueOf True

abbrev Dict := DictOf True

/-- What `to_c_value` can be given, which dereferences the pointers, and what `from_c_value` gives. -/
abbrev WholeValue := ValueOf False

abbrev WholeDict := DictOf False

abbrev Pointer (T : Type) := Option T

namespace Value

variable {nullable : Prop}

def getInt64 : ValueOf nullable → Option Int64
  | .leaf (.int64 v) => some v
  | _ => none

def getUInt64 : ValueOf nullable → Option UInt64
  | .leaf (.uint64 v) => some v
  | _ => none

def getDouble : ValueOf nullable → Option Double
  | .leaf (.double v) => some v
  | _ => none

def getBool : ValueOf nullable → Option Bool
  | .leaf (.bool v) => some v
  | _ => none

def getString : ValueOf nullable → Option Str
  | .leaf (.string v) => some v
  | _ => none

def getBytes : ValueOf nullable → Option (List UInt8)
  | .leaf (.bytes v) => some v
  | _ => none

-- null also when that is what is stored
def getList : ValueOf nullable → Pointer (List (ValueOf nullable))
  | .list v => some v
  | _ => none

def getDict : ValueOf nullable → Pointer (DictOf nullable)
  | .dict v => some v
  | _ => none

end Value

/-- The tags of `::Value` whose payload holds no further values. The pointer itself may be null,
and so may the pointer in a `VALUE_STR`. -/
inductive CScalar
  | nullptr
  | null
  | int (v : Int64)
  | float (v : Double)
  | bool (v : ℤ)
  | str (v : Option Str)
  | bytes (v : List UInt8)
  | other
  deriving DecidableEq

abbrev CValue := Tree Str CScalar

abbrev CDict := List (Str × CValue)

def toCScalar : Scalar False → CScalar
  | .null => .null
  | .int64 v => .int v
  | .uint64 v => .int v.toInt64
  | .double v => .float v
  | .string v => .str (some (cStr v))
  | .bool v => .bool (if v then 1 else 0)
  | .bytes v => .bytes v

def toCValue : WholeValue → CValue := Tree.encode toCScalar cStr

def toCList : List WholeValue → List CValue := Tree.encodeList toCScalar cStr

def toCDict : WholeDict → CDict := Tree.encodeDict toCScalar cStr

def vectorToList (list : List WholeValue) : List CValue := toCList list

def unorderedMapToDict (dict : WholeDict) : CDict := toCDict dict

def fromCScalar : CScalar → Scalar False
  | .nullptr => .null
  | .null => .null
  | .int v => .int64 v
  | .float v => .double v
  | .bool v => .bool (v ≠ 0)
  | .str v => .string (cStr (v.getD []))
  | .bytes v => .bytes v
  | .other => .null

def fromCValue : CValue → WholeValue := Tree.decode fromCScalar cStr

def fromCList : List CValue → List WholeValue := Tree.decodeList fromCScalar cStr

def fromCDict (dict : CDict) : WholeDict := Tree.collect (Tree.decodeDict fromCScalar cStr dict)

@[simp] theorem toCValue_leaf (v : Scalar False) : toCValue (.leaf v) = .leaf (toCScalar v) := rfl

@[simp] theorem toCValue_list (v : List WholeValue) : toCValue (.list v) = .list (toCList v) := rfl

@[simp] theorem toCValue_dict (v : WholeDict) : toCValue (.dict v) = .dict (toCDict v) := rfl

@[simp] theorem fromCValue_leaf (v : CScalar) : fromCValue (.leaf v) = .leaf (fromCScalar v) := rfl

@[simp] theorem fromCValue_list (v : List CValue) : fromCValue (.list v) = .list (fromCList v) := rfl

@[simp] theorem fromCValue_dict (v : CDict) : fromCValue (.dict v) = .dict (fromCDict v) := rfl

section Printing

/-- The digits of a `double` as a stream prints them by default: the value is rounded to six
significant digits, ties to even, and trailing zeros are dropped. -/
def significand (num den : ℕ) : ℕ × ℤ :=
  let x : ℤ := if den ≤ num then Nat.log 10 (num / den) else -(Nat.clog 10 ((den + num - 1) / num) : ℤ)
  let scaled := num * 10 ^ (5 - x).toNat
  let unit := den * 10 ^ (x - 5).toNat
  let q := scaled / unit
  let r := scaled % unit
  let d := if unit < 2 * r ∨ (2 * r = unit ∧ q % 2 = 1) then q + 1 else q
  if d = 10 ^ 6 then (10 ^ 5, x + 1) else (d, x)

def decimal (n : ℕ) : Str := (Nat.toDigits 10 n).map fun c => UInt8.ofNat c.toNat

def dropZeros (s : Str) : Str := (s.reverse.dropWhile (· = 48)).reverse

def withPoint (whole frac : Str) : Str :=
  if dropZeros frac = [] then whole else whole ++ 46 :: dropZeros frac

def printMagnitude (num den : ℕ) : Str :=
  let (d, x) := significand num den
  let digits := decimal d
  if x < -4 ∨ 6 ≤ x then
    let exponent := decimal x.natAbs
    withPoint (digits.take 1) (digits.drop 1) ++ 101 :: (if x < 0 then 45 else 43) ::
      (if exponent.length < 2 then 48 :: exponent else exponent)
  else if x < 0 then withPoint [48] (List.replicate (x.natAbs - 1) 48 ++ digits)
  else withPoint (digits.take (x.toNat + 1)) (digits.drop (x.toNat + 1))

def printDouble (v : Double) : Str :=
  let fraction := v.bits.toNat % 2 ^ 52
  let exponent := v.bits.toNat / 2 ^ 52 % 2 ^ 11
  let sign : Str := if v.bits.toNat / 2 ^ 63 = 1 then [45] else []
  if exponent = 2047 then sign ++ if fraction = 0 then ascii "inf" else ascii "nan"
  else if exponent = 0 ∧ fraction = 0 then sign ++ [48]
  else
    let mantissa := if exponent = 0 then fraction else fraction + 2 ^ 52
    let shift := max exponent 1
    sign ++ printMagnitude (mantissa * 2 ^ (shift - 1075)) (2 ^ (1075 - shift))

variable {nullable : Prop}

/-- `operator<<` has no branch for `int64_t` and `uint64_t`: neither is the type `int`. -/
def printScalar : Scalar nullable → Str
  | .null => ascii "null"
  | .int64 _ => []
  | .uint64 _ => []
  | .double v => printDouble v
  | .bool v => if v then [49] else [48]
  | .string v => 34 :: v ++ [34]
  | .bytes v => ascii "bytes[" ++ decimal v.length ++ [93]
  | .nullptr .list _ => ascii "null_list"
  | .nullptr .dict _ => ascii "null_dict"

mutual

def printValue : ValueOf nullable → Str
  | .leaf v => printScalar v
  | .list v => 91 :: printItems true v ++ [93]
  | .dict v => 123 :: printEntries true v ++ [125]

def printItems (first : Bool) : List (ValueOf nullable) → Str
  | [] => []
  | v :: vs => (if first then [] else ascii ", ") ++ printValue v ++ printItems false vs

def printEntries (first : Bool) : DictOf nullable → Str
  | [] => []
  | (k, v) :: d => (if first then [] else ascii ", ") ++ 34 :: k ++ ascii "\": " ++ printValue v ++
      printEntries false d

end

end Printing

structure ApplicationError (nullable : Prop) where
  message : Str
  list : List (ValueOf nullable)
  dict : DictOf nullable

def ApplicationError.what {nullable : Prop} (e : ApplicationError nullable) : Str :=
  e.message ++ (if e.list = [] then [] else ascii ": " ++ printValue (.list e.list)) ++
    (if e.dict = [] then [] else ascii ": " ++ printValue (.dict e.dict))

structure Invocation where
  args : List WholeValue
  kwargs : WholeDict
  details : WholeDict

structure Result where
  args : List WholeValue
  kwargs : WholeDict
  details : WholeDict

structure ArgsHelper (nullable : Prop) where
  args : List (ValueOf nullable)

structure KwargsHelper (nullable : Prop) where
  kwargs : DictOf nullable

/-- Unlike the other classes, `Event` declares `args` and `kwargs` again, beside those of its bases. -/
structure Event where
  argsHelper : ArgsHelper False
  kwargsHelper : KwargsHelper False
  args : List WholeValue
  kwargs : WholeDict
  details : WholeDict

def Event.make (args : List WholeValue) (kwargs details : WholeDict) : Event where
  argsHelper := ⟨args⟩
  kwargsHelper := ⟨kwargs⟩
  -- the constructor initializes the bases and `details` only
  args := []
  kwargs := []
  details := details

end XconnCpp.Values

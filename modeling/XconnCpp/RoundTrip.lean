import XconnCpp.Values

namespace XconnCpp.Values

open Library

/-- Leaves that the C representation can hold: it has no unsigned integers, and its strings end at
the first NUL. -/
def Scalar.Portable : Scalar False → Prop
  | .uint64 _ => False
  | .string v => 0 ∉ v
  | _ => True

def Portable : WholeValue → Prop := Tree.All Scalar.Portable (0 ∉ ·)

def PortableList : List WholeValue → Prop := Tree.AllList Scalar.Portable (0 ∉ ·)

def PortableDict : WholeDict → Prop := Tree.AllDict Scalar.Portable (0 ∉ ·)

theorem scalar_fixed_iff (v : Scalar False) : fromCScalar (toCScalar v) = v ↔ v.Portable := by
  cases v with
  | string v => simp [toCScalar, fromCScalar, Scalar.Portable, cStr_idem, cStr_eq_self_iff]
  | bool v => cases v <;> simp [toCScalar, fromCScalar, Scalar.Portable]
  | nullptr p h => exact h.elim
  | _ => simp [toCScalar, fromCScalar, Scalar.Portable]

structure GettersAgree (v w : WholeValue) : Prop where
  int64 : ∀ x, Value.getInt64 v = some x → Value.getInt64 w = some x
  uint64 : ∀ x, Value.getUInt64 v = some x → Value.getUInt64 w = some x
  double : ∀ x, Value.getDouble v = some x → Value.getDouble w = some x
  bool : ∀ x, Value.getBool v = some x → Value.getBool w = some x
  string : ∀ x, Value.getString v = some x → Value.getString w = some x
  bytes : ∀ x, Value.getBytes v = some x → Value.getBytes w = some x
  list : ∀ xs, Value.getList v = some xs → ∃ ys, Value.getList w = some ys ∧ Tree.SameList xs ys
  dict : ∀ d, Value.getDict v = some d → ∃ e, Value.getDict w = some e ∧ Tree.SameDict d e

theorem gettersAgree_of_same {v w : WholeValue} (h : v.Same w) : GettersAgree v w := by
  cases v with
  | leaf l =>
    obtain rfl : w = .leaf l := h
    constructor <;> simp [Value.getList, Value.getDict]
  | list xs =>
    obtain ⟨ys, rfl, hys⟩ := h
    constructor <;> simp_all [Value.getInt64, Value.getUInt64, Value.getDouble, Value.getBool,
      Value.getString, Value.getBytes, Value.getList, Value.getDict]
  | dict d =>
    obtain ⟨e, rfl, he⟩ := h
    constructor <;> simp_all [Value.getInt64, Value.getUInt64, Value.getDouble, Value.getBool,
      Value.getString, Value.getBytes, Value.getList, Value.getDict]

def RoundTrips (v : WholeValue) : Prop :=
  ∀ c, (toCValue v).Same c → v.Same (fromCValue c) ∧ GettersAgree v (fromCValue c)

def ListRoundTrips (list : List WholeValue) : Prop :=
  ∀ c, Tree.SameList (vectorToList list) c → Tree.SameList list (fromCList c)

def DictRoundTrips (dict : WholeDict) : Prop :=
  ∀ c, Tree.SameDict (unorderedMapToDict dict) c → Tree.SameDict dict (fromCDict c)

theorem roundTrips_iff {v : WholeValue} (hv : v.Distinct) : RoundTrips v ↔ Portable v := by
  have hfixed := Tree.same_decode_iff (f := toCScalar) (g := fromCScalar) cStr_idem v hv
  simp only [scalar_fixed_iff, cStr_eq_self_iff] at hfixed
  rw [Portable, ← hfixed]
  exact forall₂_congr fun c _ => ⟨fun h => h.1, fun h => ⟨h, gettersAgree_of_same h⟩⟩

theorem listRoundTrips_iff_value (list : List WholeValue) : ListRoundTrips list ↔ RoundTrips (.list list) := by
  constructor
  · rintro h c ⟨ys, rfl, hys⟩
    have hsame : Tree.Same (.list list) (fromCValue (.list ys)) := ⟨_, rfl, h ys hys⟩
    exact ⟨hsame, gettersAgree_of_same hsame⟩
  · intro h c hc
    obtain ⟨ys, hys, hsame⟩ := (h (.list c) ⟨c, rfl, hc⟩).1
    obtain rfl : fromCList c = ys := Tree.list.inj hys
    exact hsame

theorem dictRoundTrips_iff_value (dict : WholeDict) : DictRoundTrips dict ↔ RoundTrips (.dict dict) := by
  constructor
  · rintro h c ⟨e, rfl, he⟩
    have hsame : Tree.Same (.dict dict) (fromCValue (.dict e)) := ⟨_, rfl, h e he⟩
    exact ⟨hsame, gettersAgree_of_same hsame⟩
  · intro h c hc
    obtain ⟨e, he, hsame⟩ := (h (.dict c) ⟨c, rfl, hc⟩).1
    obtain rfl : fromCDict c = e := Tree.dict.inj he
    exact hsame

/-- Exactly the values, lists and dictionaries without unsigned leaves and without NULs survive. -/
theorem survives_trip_iff (v : WholeValue) (list : List WholeValue) (dict : WholeDict) (hv : v.Distinct)
    (hlist : Tree.DistinctList list) (hdict : (Tree.dict dict : WholeValue).Distinct) :
    (RoundTrips v ↔ Portable v) ∧ (ListRoundTrips list ↔ PortableList list) ∧
      (DictRoundTrips dict ↔ PortableDict dict) :=
  ⟨roundTrips_iff hv, (listRoundTrips_iff_value list).trans (roundTrips_iff hlist),
    (dictRoundTrips_iff_value dict).trans (roundTrips_iff hdict)⟩

theorem survives_trip_iff_nested :
    (RoundTrips (.list [.dict [(ascii "a", .leaf .null)]]) ↔
        Portable (.list [.dict [(ascii "a", .leaf .null)]])) ∧
      (ListRoundTrips [.leaf (.uint64 1)] ↔ PortableList [.leaf (.uint64 1)]) ∧
      (DictRoundTrips [(ascii "a", .leaf .null), (ascii "b", .leaf .null)] ↔
        PortableDict [(ascii "a", .leaf .null), (ascii "b", .leaf .null)]) :=
  survives_trip_iff _ _ _ (by simp [Tree.Distinct, Tree.DistinctList, Tree.DistinctDict])
    (by simp [Tree.Distinct, Tree.DistinctList])
    (by simp [Tree.Distinct, Tree.DistinctDict, ascii])

theorem not_roundTrips_uint64_and_nul :
    ¬ RoundTrips (.leaf (.uint64 (.ofNat (2 ^ 63)))) ∧ ¬ RoundTrips (.leaf (.string [97, 0, 98])) := by
  constructor
  · intro h
    have hsame := (h _ (Tree.same_refl _)).1
    cases hsame
  · intro h
    have hsame := (h _ (Tree.same_refl _)).1
    cases hsame

section WellFormed

def CScalar.WellFormed : CScalar → Prop
  | .nullptr | .other => False
  | .bool v => v = 0 ∨ v = 1
  | .str v => ∃ s, v = some s ∧ 0 ∉ s
  | _ => True

def WellFormed (c : CValue) : Prop := c.Distinct ∧ Tree.All CScalar.WellFormed (0 ∉ ·) c

theorem cScalar_fixed_iff (v : CScalar) : toCScalar (fromCScalar v) = v ↔ v.WellFormed := by
  cases v with
  | bool v =>
    by_cases hv : v = 0
    · simp [toCScalar, fromCScalar, CScalar.WellFormed, hv]
    · simp [toCScalar, fromCScalar, CScalar.WellFormed, hv, eq_comm]
  | str v =>
    cases v with
    | none => simp [toCScalar, fromCScalar, CScalar.WellFormed]
    | some s => simp [toCScalar, fromCScalar, CScalar.WellFormed, cStr_idem, cStr_eq_self_iff]
  | _ => simp [toCScalar, fromCScalar, CScalar.WellFormed]

theorem same_toCValue {c : CValue} (hc : WellFormed c) {v : WholeValue} (hv : (fromCValue c).Same v) :
    c.Same (toCValue v) := by
  apply Tree.same_encode_of_all c hc.1 _ v hv
  simpa only [cScalar_fixed_iff, cStr_eq_self_iff] using hc.2

theorem sameList_vectorToList {list : List CValue} (hc : WellFormed (.list list)) {v : List WholeValue}
    (hv : Tree.SameList (fromCList list) v) : Tree.SameList list (vectorToList v) := by
  obtain ⟨ys, hys, hsame⟩ := same_toCValue (v := .list v) hc ⟨v, rfl, hv⟩
  obtain rfl : vectorToList v = ys := Tree.list.inj hys
  exact hsame

theorem sameDict_unorderedMapToDict {dict : CDict} (hc : WellFormed (.dict dict)) {v : WholeDict}
    (hv : Tree.SameDict (fromCDict dict) v) : Tree.SameDict dict (unorderedMapToDict v) := by
  obtain ⟨e, he, hsame⟩ := same_toCValue (v := .dict v) hc ⟨v, rfl, hv⟩
  obtain rfl : unorderedMapToDict v = e := Tree.dict.inj he
  exact hsame

end WellFormed

end XconnCpp.Values

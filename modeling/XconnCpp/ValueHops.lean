import XconnCpp.RoundTrip
import Mathlib.Logic.Relation

namespace XconnCpp.Values

open Library Relation

def Hop (v w : WholeValue) : Prop := ∃ c, (toCValue v).Same c ∧ w = fromCValue c

def ListHop (list list' : List WholeValue) : Prop :=
  ∃ c, Tree.SameList (vectorToList list) c ∧ list' = fromCList c

def DictHop (dict dict' : WholeDict) : Prop :=
  ∃ c, Tree.SameDict (unorderedMapToDict dict) c ∧ dict' = fromCDict c

section Received

variable {v w u : WholeValue} {list list' : List WholeValue} {dict dict' : WholeDict}

theorem portable_fromCValue (c : CValue) : Portable (fromCValue c) := by
  apply Tree.all_decode
  · intro l
    cases l with
    | str s => exact (cStr_eq_self_iff _).mp (cStr_idem _)
    | _ => trivial
  · exact fun k => (cStr_eq_self_iff _).mp (cStr_idem k)

theorem distinct_fromCValue (c : CValue) : (fromCValue c).Distinct := Tree.distinct_decode c

theorem Hop.received (h : Hop v w) : w.Distinct ∧ Portable w := by
  obtain ⟨c, -, rfl⟩ := h
  exact ⟨distinct_fromCValue c, portable_fromCValue c⟩

theorem Hop.same (hd : v.Distinct) (hp : Portable v) (h : Hop v w) : v.Same w := by
  obtain ⟨c, hc, rfl⟩ := h
  exact ((roundTrips_iff hd).mpr hp c hc).1

theorem same_of_hops (hd : v.Distinct) (hp : Portable v) (h : ReflTransGen Hop v w) :
    v.Same w ∧ w.Distinct ∧ Portable w := by
  induction h with
  | refl => exact ⟨Tree.same_refl v, hd, hp⟩
  | tail _ hstep ih =>
    obtain ⟨hsame, hd', hp'⟩ := ih
    exact ⟨Tree.same_trans v hsame (hstep.same hd' hp'), hstep.received⟩

theorem settled_value (h : Hop v u) (hs : ReflTransGen Hop u w) : u.Same w ∧ GettersAgree u w := by
  have hsame : u.Same w := (same_of_hops h.received.1 h.received.2 hs).1
  exact ⟨hsame, gettersAgree_of_same hsame⟩

theorem ListHop.hop (h : ListHop list list') : Hop (.list list) (.list list') := by
  obtain ⟨c, hc, rfl⟩ := h
  exact ⟨.list c, ⟨c, rfl, hc⟩, rfl⟩

theorem DictHop.hop (h : DictHop dict dict') : Hop (.dict dict) (.dict dict') := by
  obtain ⟨c, hc, rfl⟩ := h
  exact ⟨.dict c, ⟨c, rfl, hc⟩, rfl⟩

theorem sameList_of_same (h : Tree.Same (.list list) (.list list' : WholeValue)) : Tree.SameList list list' := by
  obtain ⟨ys, he, hys⟩ := h
  exact Tree.list.inj he ▸ hys

theorem sameDict_of_same (h : Tree.Same (.dict dict) (.dict dict' : WholeValue)) : Tree.SameDict dict dict' := by
  obtain ⟨e, he, hs⟩ := h
  exact Tree.dict.inj he ▸ hs

/-- The first hop may cut strings and keys, turn unsigned numbers signed and drop entries; however many
sessions pass on what has been received, it stays as it is. -/
theorem hops_settle :
    (∀ v u w : WholeValue, Hop v u → ReflTransGen Hop u w → u.Same w ∧ GettersAgree u w) ∧
    (∀ xs ys zs : List WholeValue, ListHop xs ys → ReflTransGen ListHop ys zs → Tree.SameList ys zs) ∧
    ∀ d e e' : WholeDict, DictHop d e → ReflTransGen DictHop e e' → Tree.SameDict e e' := by
  refine ⟨fun v u w h hs => settled_value h hs, ?_, ?_⟩
  · intro xs ys zs h hs
    have hlift : ReflTransGen Hop (.list ys) (.list zs) := hs.lift Tree.list fun _ _ hstep => hstep.hop
    exact sameList_of_same (settled_value h.hop hlift).1
  · intro d e e' h hs
    have hlift : ReflTransGen Hop (.dict e) (.dict e') := hs.lift Tree.dict fun _ _ hstep => hstep.hop
    exact sameDict_of_same (settled_value h.hop hlift).1

def colliding : WholeValue :=
  .dict [([97, 0, 98], .leaf (.uint64 (.ofNat (2 ^ 63)))), ([97, 0, 99], .leaf (.string [100, 0]))]

theorem hops_settle_colliding :
    ∃ u w : WholeValue, Hop colliding u ∧ ReflTransGen Hop u w ∧ ¬ colliding.Same u ∧ u.Same w ∧
      GettersAgree u w := by
  have hfirst : Hop colliding (fromCValue (toCValue colliding)) := ⟨_, Tree.same_refl _, rfl⟩
  refine ⟨_, fromCValue (toCValue (fromCValue (toCValue colliding))), hfirst, ?_, ?_, ?_⟩
  · exact .single ⟨_, Tree.same_refl _, rfl⟩
  · rintro ⟨e, he, hs⟩
    have hlength := (Tree.sameDict_keys hs).length_eq
    obtain rfl := Tree.dict.inj he
    revert hlength
    decide
  · exact hops_settle.1 colliding _ _ hfirst (.single ⟨_, Tree.same_refl _, rfl⟩)

theorem hop_congr (hkeys : (toCValue v).Distinct) (h : Hop v w) : (fromCValue (toCValue v)).Same w := by
  obtain ⟨c, hc, rfl⟩ := h
  have hcut : Tree.All (fun _ => True) (fun k => cStr k = k) (toCValue v) :=
    Tree.all_encode (fun _ => trivial) cStr_idem v
  exact Tree.same_decode_congr _ hkeys hcut hc

theorem agreed_value (hkeys : (toCValue v).Distinct) (h : Hop v u) (h' : Hop v w) :
    u.Same w ∧ GettersAgree u w := by
  have hsame : u.Same w := Tree.same_trans u (Tree.same_symm _ (hop_congr hkeys h)) (hop_congr hkeys h')
  exact ⟨hsame, gettersAgree_of_same hsame⟩

/-- All who receive a value see the same, unless two of its keys are one when they are cut at a NUL. -/
theorem receivers_agree :
    (∀ v u w : WholeValue, (toCValue v).Distinct → Hop v u → Hop v w → u.Same w ∧ GettersAgree u w) ∧
    (∀ xs ys zs : List WholeValue, Tree.DistinctList (vectorToList xs) → ListHop xs ys → ListHop xs zs →
      Tree.SameList ys zs) ∧
    ∀ d e e' : WholeDict, (Tree.dict (unorderedMapToDict d) : CValue).Distinct → DictHop d e → DictHop d e' →
      Tree.SameDict e e' := by
  refine ⟨fun v u w hkeys h h' => agreed_value hkeys h h', ?_, ?_⟩
  · exact fun xs ys zs hkeys h h' => sameList_of_same (agreed_value (v := .list xs) hkeys h.hop h'.hop).1
  · exact fun d e e' hkeys h h' => sameDict_of_same (agreed_value (v := .dict d) hkeys h.hop h'.hop).1

def cutting : WholeValue :=
  .dict [([97, 0, 98], .leaf (.uint64 (.ofNat (2 ^ 63)))), ([99, 0], .leaf (.string [100, 0]))]

def cuttingReversed : CValue :=
  .dict [([99], .leaf (.str (some [100]))), ([97], .leaf (.int (UInt64.ofNat (2 ^ 63)).toInt64))]

theorem receivers_agree_cutting :
    (fromCValue (toCValue cutting)).Same (fromCValue cuttingReversed) ∧
      GettersAgree (fromCValue (toCValue cutting)) (fromCValue cuttingReversed) := by
  have hreversed : (toCValue cutting).Same cuttingReversed :=
    ⟨_, rfl, _, _, List.Perm.swap _ _ _, rfl, _, _, List.Perm.refl _, rfl, rfl⟩
  apply receivers_agree.1 cutting
  · simp [cutting, toCDict, Tree.encodeDict, Tree.encode, Tree.Distinct, Tree.DistinctDict, cStr]
  · exact ⟨_, Tree.same_refl _, rfl⟩
  · exact ⟨_, hreversed, rfl⟩

end Received

end XconnCpp.Values

import Mathlib.Data.List.Induction
import Mathlib.Data.List.Perm.Basic
import Mathlib.Data.List.Nodup

namespace XconnCpp.Library

/-- Trees of leaves, sequences and dictionaries; a dictionary is listed in the order in which it
happens to be visited. -/
inductive Tree (K L : Type) : Type
  | leaf (l : L)
  | list (xs : List (Tree K L))
  | dict (d : List (K × Tree K L))

namespace Tree

variable {K L M α : Type}

mutual

def Same : Tree K L → Tree K L → Prop
  | .leaf l, t => t = .leaf l
  | .list xs, t => ∃ ys, t = .list ys ∧ SameList xs ys
  | .dict d, t => ∃ e, t = .dict e ∧ SameDict d e

def SameList : List (Tree K L) → List (Tree K L) → Prop
  | [], ys => ys = []
  | x :: xs, ys => ∃ y zs, ys = y :: zs ∧ Same x y ∧ SameList xs zs

def SameDict : List (K × Tree K L) → List (K × Tree K L) → Prop
  | [], e => e = []
  | (k, x) :: d, e => ∃ y e', e.Perm ((k, y) :: e') ∧ Same x y ∧ SameDict d e'

end

mutual

def Distinct : Tree K L → Prop
  | .leaf _ => True
  | .list xs => DistinctList xs
  | .dict d => (d.map Prod.fst).Nodup ∧ DistinctDict d

def DistinctList : List (Tree K L) → Prop
  | [] => True
  | x :: xs => Distinct x ∧ DistinctList xs

def DistinctDict : List (K × Tree K L) → Prop
  | [] => True
  | (_, x) :: d => Distinct x ∧ DistinctDict d

end

mutual

def All (P : L → Prop) (Q : K → Prop) : Tree K L → Prop
  | .leaf l => P l
  | .list xs => AllList P Q xs
  | .dict d => AllDict P Q d

def AllList (P : L → Prop) (Q : K → Prop) : List (Tree K L) → Prop
  | [] => True
  | x :: xs => All P Q x ∧ AllList P Q xs

def AllDict (P : L → Prop) (Q : K → Prop) : List (K × Tree K L) → Prop
  | [] => True
  | (k, x) :: d => Q k ∧ All P Q x ∧ AllDict P Q d

end

def assign [DecidableEq K] : List (K × α) → K → α → List (K × α)
  | [], k, v => [(k, v)]
  | (k', v') :: d, k, v => if k' = k then (k, v) :: d else (k', v') :: assign d k v

def collect [DecidableEq K] (d : List (K × α)) : List (K × α) := d.foldl (fun e p => assign e p.1 p.2) []

section Translations

variable (f : L → M) (n : K → K)

mutual

def encode : Tree K L → Tree K M
  | .leaf l => .leaf (f l)
  | .list xs => .list (encodeList xs)
  | .dict d => .dict (encodeDict d)

def encodeList : List (Tree K L) → List (Tree K M)
  | [] => []
  | x :: xs => encode x :: encodeList xs

def encodeDict : List (K × Tree K L) → List (K × Tree K M)
  | [] => []
  | (k, x) :: d => (n k, encode x) :: encodeDict d

end

variable [DecidableEq K]

mutual

def decode : Tree K L → Tree K M
  | .leaf l => .leaf (f l)
  | .list xs => .list (decodeList xs)
  | .dict d => .dict (collect (decodeDict d))

def decodeList : List (Tree K L) → List (Tree K M)
  | [] => []
  | x :: xs => decode x :: decodeList xs

def decodeDict : List (K × Tree K L) → List (K × Tree K M)
  | [] => []
  | (k, x) :: d => (n k, decode x) :: decodeDict d

end

end Translations

mutual

theorem same_refl : (t : Tree K L) → Same t t
  | .leaf _ => rfl
  | .list xs => ⟨xs, rfl, sameList_refl xs⟩
  | .dict d => ⟨d, rfl, sameDict_refl d⟩

theorem sameList_refl : (xs : List (Tree K L)) → SameList xs xs
  | [] => rfl
  | x :: xs => ⟨x, xs, rfl, same_refl x, sameList_refl xs⟩

theorem sameDict_refl : (d : List (K × Tree K L)) → SameDict d d
  | [] => rfl
  | (_, x) :: d => ⟨x, d, List.Perm.refl _, same_refl x, sameDict_refl d⟩

end

theorem sameDict_keys {d e : List (K × Tree K L)} (h : SameDict d e) :
    (d.map Prod.fst).Perm (e.map Prod.fst) := by
  induction d generalizing e with
  | nil => obtain rfl : e = [] := h; exact List.Perm.refl _
  | cons p d ih =>
    obtain ⟨k, x⟩ := p
    obtain ⟨y, e', hp, -, hd⟩ := h
    exact ((ih hd).cons k).trans (hp.map Prod.fst).symm

theorem sameDict_perm_left {d d' e : List (K × Tree K L)} (hp : d.Perm d') (h : SameDict d e) :
    SameDict d' e := by
  induction hp generalizing e with
  | nil => exact h
  | cons p _ ih =>
    obtain ⟨y, f, hf, hy, hd⟩ := h
    exact ⟨y, f, hf, hy, ih hd⟩
  | swap p q d =>
    obtain ⟨y, f, hf, hy, z, f', hf', hz, hd⟩ := h
    refine ⟨z, (q.1, y) :: f', ?_, hz, y, f', List.Perm.refl _, hy, hd⟩
    exact hf.trans ((hf'.cons _).trans (List.Perm.swap _ _ _))
  | trans _ _ ih ih' => exact ih' (ih h)

mutual

theorem same_trans : (t : Tree K L) → {u v : Tree K L} → Same t u → Same u v → Same t v
  | .leaf l, u, v, h, h' => by
    obtain rfl : u = .leaf l := h
    exact h'
  | .list xs, u, v, h, h' => by
    obtain ⟨ys, rfl, hys⟩ := h
    obtain ⟨zs, rfl, hzs⟩ := h'
    exact ⟨zs, rfl, sameList_trans xs hys hzs⟩
  | .dict d, u, v, h, h' => by
    obtain ⟨e, rfl, he⟩ := h
    obtain ⟨f, rfl, hf⟩ := h'
    exact ⟨f, rfl, sameDict_trans d he hf⟩

theorem sameList_trans : (xs : List (Tree K L)) → {ys zs : List (Tree K L)} → SameList xs ys →
    SameList ys zs → SameList xs zs
  | [], ys, zs, h, h' => by
    obtain rfl : ys = [] := h
    exact h'
  | x :: xs, ys, zs, h, h' => by
    obtain ⟨y, ys, rfl, hy, hys⟩ := h
    obtain ⟨z, zs, rfl, hz, hzs⟩ := h'
    exact ⟨z, zs, rfl, same_trans x hy hz, sameList_trans xs hys hzs⟩

theorem sameDict_trans : (d : List (K × Tree K L)) → {e f : List (K × Tree K L)} → SameDict d e →
    SameDict e f → SameDict d f
  | [], e, f, h, h' => by
    obtain rfl : e = [] := h
    exact h'
  | (k, x) :: d, e, f, h, h' => by
    obtain ⟨y, e', he, hy, hd⟩ := h
    obtain ⟨z, f', hf, hz, hd'⟩ := sameDict_perm_left he h'
    exact ⟨z, f', hf, same_trans x hy hz, sameDict_trans d hd hd'⟩

end

mutual

theorem same_symm : (t : Tree K L) → {u : Tree K L} → Same t u → Same u t
  | .leaf l, u, h => by
    obtain rfl : u = .leaf l := h
    rfl
  | .list xs, u, h => by
    obtain ⟨ys, rfl, hys⟩ := h
    exact ⟨xs, rfl, sameList_symm xs hys⟩
  | .dict d, u, h => by
    obtain ⟨e, rfl, he⟩ := h
    exact ⟨d, rfl, sameDict_symm d he⟩

theorem sameList_symm : (xs : List (Tree K L)) → {ys : List (Tree K L)} → SameList xs ys → SameList ys xs
  | [], ys, h => by
    obtain rfl : ys = [] := h
    rfl
  | x :: xs, ys, h => by
    obtain ⟨y, ys, rfl, hy, hys⟩ := h
    exact ⟨x, xs, rfl, same_symm x hy, sameList_symm xs hys⟩

theorem sameDict_symm : (d : List (K × Tree K L)) → {e : List (K × Tree K L)} → SameDict d e → SameDict e d
  | [], e, h => by
    obtain rfl : e = [] := h
    rfl
  | (k, x) :: d, e, h => by
    obtain ⟨y, e', he, hy, hd⟩ := h
    have hswapped : SameDict ((k, y) :: e') ((k, x) :: d) :=
      ⟨x, d, List.Perm.refl _, same_symm x hy, sameDict_symm d hd⟩
    exact sameDict_perm_left he.symm hswapped

end

section Collect

variable [DecidableEq K]

theorem assign_of_notMem {d : List (K × α)} {k : K} {v : α} (h : k ∉ d.map Prod.fst) :
    assign d k v = d ++ [(k, v)] := by
  induction d with
  | nil => rfl
  | cons p d ih =>
    simp only [List.map_cons, List.mem_cons, not_or] at h
    simp [assign, Ne.symm h.1, ih h.2]

theorem assign_keys (d : List (K × α)) (k : K) (v : α) :
    ∀ j, j ∈ (assign d k v).map Prod.fst ↔ j = k ∨ j ∈ d.map Prod.fst := by
  intro j
  induction d with
  | nil => simp [assign]
  | cons p d ih =>
    obtain ⟨k', v'⟩ := p
    simp only [assign]
    split_ifs with hk
    · subst hk
      simp
    · simp only [List.map_cons, List.mem_cons, ih]
      tauto

theorem foldl_assign_keys (d e : List (K × α)) (j : K) :
    j ∈ (d.foldl (fun e p => assign e p.1 p.2) e).map Prod.fst ↔
      j ∈ d.map Prod.fst ∨ j ∈ e.map Prod.fst := by
  induction d generalizing e with
  | nil => simp
  | cons p d ih =>
    rw [List.foldl_cons, ih, assign_keys, List.map_cons, List.mem_cons]
    tauto

theorem foldl_assign_of_nodup {d e : List (K × α)} (hd : (d.map Prod.fst).Nodup)
    (he : ∀ k ∈ d.map Prod.fst, k ∉ e.map Prod.fst) :
    d.foldl (fun e p => assign e p.1 p.2) e = e ++ d := by
  induction d generalizing e with
  | nil => simp
  | cons p d ih =>
    rw [List.map_cons, List.nodup_cons] at hd
    rw [List.foldl_cons, assign_of_notMem (he p.1 (by simp)), ih hd.2]
    · simp
    · intro k hk hke
      rw [List.map_append, List.mem_append] at hke
      rcases hke with hke | hke
      · exact he k (List.mem_cons_of_mem _ hk) hke
      · obtain rfl : k = p.1 := by simpa using hke
        exact hd.1 hk

theorem mem_collect_keys (d : List (K × α)) (j : K) :
    j ∈ (collect d).map Prod.fst ↔ j ∈ d.map Prod.fst := by
  simp [collect, foldl_assign_keys]

theorem collect_eq_nil_iff {d : List (K × α)} : collect d = [] ↔ d = [] := by
  have hkeys := mem_collect_keys d
  constructor
  · intro hnil
    rw [hnil] at hkeys
    simpa [List.eq_nil_iff_forall_not_mem] using hkeys
  · rintro rfl
    rfl

theorem lookup_assign_self [BEq K] [LawfulBEq K] (d : List (K × α)) (k : K) (v : α) :
    (assign d k v).lookup k = some v := by
  induction d with
  | nil => simp [assign]
  | cons p d ih =>
    simp only [assign]
    split_ifs with hk
    · simp
    · rw [List.lookup_cons, beq_false_of_ne (Ne.symm hk)]
      exact ih

theorem lookup_assign_of_ne [BEq K] [LawfulBEq K] {j k : K} (h : j ≠ k) (d : List (K × α)) (v : α) :
    (assign d k v).lookup j = d.lookup j := by
  induction d with
  | nil => simp [assign, List.lookup_cons, beq_false_of_ne h]
  | cons p d ih =>
    obtain ⟨k', v'⟩ := p
    simp only [assign]
    split_ifs with hk
    · subst hk
      simp [List.lookup_cons, beq_false_of_ne h]
    · simp only [List.lookup_cons, ih]

theorem lookup_collect [BEq K] [LawfulBEq K] (d : List (K × α)) (j : K) :
    (collect d).lookup j = d.reverse.lookup j := by
  induction d using List.reverseRecOn with
  | nil => rfl
  | append_singleton d p ih =>
    have hcollect : collect (d ++ [p]) = assign (collect d) p.1 p.2 := by simp [collect]
    rw [hcollect, List.reverse_append, List.reverse_singleton, List.singleton_append, List.lookup_cons]
    by_cases hj : j = p.1
    · rw [hj, lookup_assign_self]
      simp
    · rw [lookup_assign_of_ne hj, beq_false_of_ne hj]
      exact ih

theorem nodup_assign {d : List (K × α)} (h : (d.map Prod.fst).Nodup) (k : K) (v : α) :
    ((assign d k v).map Prod.fst).Nodup := by
  induction d with
  | nil => simp [assign]
  | cons p d ih =>
    rw [List.map_cons, List.nodup_cons] at h
    simp only [assign]
    split_ifs with hk
    · subst hk
      exact List.nodup_cons.mpr h
    · rw [List.map_cons, List.nodup_cons, assign_keys]
      exact ⟨fun hmem => hmem.elim hk h.1, ih h.2⟩

theorem nodup_collect (d : List (K × α)) : ((collect d).map Prod.fst).Nodup := by
  induction d using List.reverseRecOn with
  | nil => exact .nil
  | append_singleton d p ih =>
    have hcollect : collect (d ++ [p]) = assign (collect d) p.1 p.2 := by simp [collect]
    rw [hcollect]
    exact nodup_assign ih p.1 p.2

theorem mem_of_mem_assign {d : List (K × α)} {k : K} {v : α} {p : K × α} (h : p ∈ assign d k v) :
    p ∈ d ∨ p = (k, v) := by
  induction d with
  | nil => exact .inr (by simpa [assign] using h)
  | cons q d ih =>
    simp only [assign] at h
    split_ifs at h with hk
    · rcases List.mem_cons.mp h with rfl | h
      · exact .inr rfl
      · exact .inl (List.mem_cons_of_mem _ h)
    · rcases List.mem_cons.mp h with rfl | h
      · exact .inl List.mem_cons_self
      · exact (ih h).imp (List.mem_cons_of_mem _) id

theorem mem_of_mem_collect {d : List (K × α)} {p : K × α} (h : p ∈ collect d) : p ∈ d := by
  induction d using List.reverseRecOn with
  | nil => exact h
  | append_singleton d q ih =>
    have hcollect : collect (d ++ [q]) = assign (collect d) q.1 q.2 := by simp [collect]
    rw [hcollect] at h
    rcases mem_of_mem_assign h with h | rfl
    · exact List.mem_append_left _ (ih h)
    · exact List.mem_append_right _ (List.mem_singleton_self _)

theorem mem_iff_lookup_of_nodup [BEq K] [LawfulBEq K] {d : List (K × α)} (hd : (d.map Prod.fst).Nodup)
    {k : K} {v : α} : (k, v) ∈ d ↔ d.lookup k = some v := by
  induction d with
  | nil => simp
  | cons p d ih =>
    obtain ⟨k', v'⟩ := p
    rw [List.map_cons, List.nodup_cons] at hd
    rw [List.mem_cons, List.lookup_cons]
    by_cases hk : k = k'
    · subst hk
      have hnot : (k, v) ∉ d := fun hmem => hd.1 (List.mem_map.mpr ⟨_, hmem, rfl⟩)
      simp [hnot, eq_comm]
    · rw [beq_false_of_ne hk, ← ih hd.2]
      simp [hk]

theorem mem_collect_iff [BEq K] [LawfulBEq K] {d : List (K × α)} {k : K} {v : α} :
    (k, v) ∈ collect d ↔ d.reverse.lookup k = some v := by
  rw [mem_iff_lookup_of_nodup (nodup_collect d), lookup_collect]

theorem collect_of_nodup {d : List (K × α)} (hd : (d.map Prod.fst).Nodup) : collect d = d := by
  simpa [collect] using foldl_assign_of_nodup hd (e := []) (by simp)

end Collect

section RoundTrip

variable {f : L → M} {g : M → L} {n : K → K}

theorem encodeDict_keys (d : List (K × Tree K L)) :
    (encodeDict f n d).map Prod.fst = (d.map Prod.fst).map n := by
  induction d with
  | nil => rfl
  | cons p d ih => simp [encodeDict, ih]

theorem encodeDict_eq_map (d : List (K × Tree K L)) :
    encodeDict f n d = d.map fun p => (n p.1, encode f n p.2) := by
  induction d with
  | nil => rfl
  | cons p d ih => simp [encodeDict, ih]

theorem allDict_keys {P : L → Prop} {Q : K → Prop} {d : List (K × Tree K L)} (h : AllDict P Q d) :
    ∀ k ∈ d.map Prod.fst, Q k := by
  induction d with
  | nil => simp
  | cons p d ih =>
    obtain ⟨hk, -, hd⟩ := h
    simpa using ⟨hk, by simpa using ih hd⟩

theorem map_eq_self_of_fixed {ks : List K} (h : ∀ k ∈ ks, n k = k) : ks.map n = ks := by
  simpa using List.map_congr_left (g := id) h

theorem fixed_of_perm {ks js : List K} (hp : ks.Perm js) (h : ∀ k ∈ ks, n k = k) :
    ∀ k ∈ js, n k = k := fun k hk => h k (hp.mem_iff.mpr hk)

theorem eq_of_perm_cons {d e : List (K × α)} {k : K} {x y : α} (hp : d.Perm ((k, y) :: e))
    (hd : (d.map Prod.fst).Nodup) (hx : (k, x) ∈ d) : x = y :=
  congrArg Prod.snd (List.inj_on_of_nodup_map hd hx (hp.mem_iff.mpr List.mem_cons_self) rfl)

theorem sameDict_lookup {d e : List (K × Tree K L)} (h : SameDict d e) (he : (e.map Prod.fst).Nodup)
    {k : K} {x y : Tree K L} (hx : (k, x) ∈ d) (hy : (k, y) ∈ e) : Same x y := by
  induction d generalizing e with
  | nil => simp at hx
  | cons p d ih =>
    obtain ⟨j, z⟩ := p
    obtain ⟨w, e', hp, hz, hd⟩ := h
    have hnodup := (hp.map Prod.fst).nodup_iff.mp he
    rw [List.map_cons, List.nodup_cons] at hnodup
    rcases List.mem_cons.mp hx with hhead | htail
    · obtain ⟨rfl, rfl⟩ := Prod.mk.inj hhead
      obtain rfl := eq_of_perm_cons hp he hy
      exact hz
    · rcases List.mem_cons.mp (hp.mem_iff.mp hy) with hhead | hrest
      · obtain ⟨rfl, rfl⟩ := Prod.mk.inj hhead
        exact absurd ((sameDict_keys hd).mem_iff.mp (List.mem_map_of_mem htail)) hnodup.1
      · exact ih hd hnodup.2 htail hrest

variable [DecidableEq K]

theorem decodeDict_keys (d : List (K × Tree K L)) :
    (decodeDict f n d).map Prod.fst = (d.map Prod.fst).map n := by
  induction d with
  | nil => rfl
  | cons p d ih => simp [decodeDict, ih]

theorem decodeDict_eq_map (d : List (K × Tree K L)) :
    decodeDict f n d = d.map fun p => (n p.1, decode f n p.2) := by
  induction d with
  | nil => rfl
  | cons p d ih => simp [decodeDict, ih]

mutual

theorem same_decode_of_all : (t : Tree K L) → Distinct t → All (fun l => g (f l) = l) (fun k => n k = k) t →
    ∀ c, Same (encode f n t) c → Same t (decode g n c)
  | .leaf l, _, ha, c, hc => by
    obtain rfl : c = .leaf (f l) := hc
    exact congrArg Tree.leaf ha
  | .list xs, hd, ha, c, hc => by
    obtain ⟨ys, rfl, hys⟩ := hc
    exact ⟨_, rfl, sameList_decode_of_all xs hd ha ys hys⟩
  | .dict d, hd, ha, c, hc => by
    obtain ⟨e, rfl, he⟩ := hc
    have hfix := allDict_keys ha
    have hkeys := sameDict_keys he
    rw [encodeDict_keys, map_eq_self_of_fixed hfix] at hkeys
    have hnodup : ((decodeDict g n e).map Prod.fst).Nodup := by
      rw [decodeDict_keys, map_eq_self_of_fixed (fixed_of_perm hkeys hfix)]
      exact hkeys.nodup_iff.mp hd.1
    refine ⟨_, rfl, ?_⟩
    rw [collect_of_nodup hnodup]
    exact sameDict_decode_of_all d hd.2 ha e he

theorem sameList_decode_of_all : (xs : List (Tree K L)) → DistinctList xs →
    AllList (fun l => g (f l) = l) (fun k => n k = k) xs →
    ∀ ys, SameList (encodeList f n xs) ys → SameList xs (decodeList g n ys)
  | [], _, _, ys, hys => by
    obtain rfl : ys = [] := hys
    exact rfl
  | x :: xs, hd, ha, ys, hys => by
    obtain ⟨y, zs, rfl, hy, hzs⟩ := hys
    exact ⟨_, _, rfl, same_decode_of_all x hd.1 ha.1 y hy, sameList_decode_of_all xs hd.2 ha.2 zs hzs⟩

theorem sameDict_decode_of_all : (d : List (K × Tree K L)) → DistinctDict d →
    AllDict (fun l => g (f l) = l) (fun k => n k = k) d →
    ∀ e, SameDict (encodeDict f n d) e → SameDict d (decodeDict g n e)
  | [], _, _, e, he => by
    obtain rfl : e = [] := he
    exact rfl
  | (k, x) :: d, hd, ha, e, he => by
    obtain ⟨y, e', hp, hy, he'⟩ := he
    refine ⟨_, _, ?_, same_decode_of_all x hd.1 ha.2.1 y hy,
      sameDict_decode_of_all d hd.2 ha.2.2 e' he'⟩
    have hmap := hp.map fun p => (n p.1, decode g n p.2)
    simp only [List.map_cons, ha.1] at hmap
    simpa only [decodeDict_eq_map, ha.1] using hmap

end

mutual

theorem same_encode_of_all : (t : Tree K L) → Distinct t → All (fun l => g (f l) = l) (fun k => n k = k) t →
    ∀ c, Same (decode f n t) c → Same t (encode g n c)
  | .leaf l, _, ha, c, hc => by
    obtain rfl : c = .leaf (f l) := hc
    exact congrArg Tree.leaf ha
  | .list xs, hd, ha, c, hc => by
    obtain ⟨ys, rfl, hys⟩ := hc
    exact ⟨_, rfl, sameList_encode_of_all xs hd ha ys hys⟩
  | .dict d, hd, ha, c, hc => by
    obtain ⟨e, rfl, he⟩ := hc
    have hnodup : ((decodeDict f n d).map Prod.fst).Nodup := by
      rw [decodeDict_keys, map_eq_self_of_fixed (allDict_keys ha)]
      exact hd.1
    rw [collect_of_nodup hnodup] at he
    exact ⟨_, rfl, sameDict_encode_of_all d hd.2 ha e he⟩

theorem sameList_encode_of_all : (xs : List (Tree K L)) → DistinctList xs →
    AllList (fun l => g (f l) = l) (fun k => n k = k) xs →
    ∀ ys, SameList (decodeList f n xs) ys → SameList xs (encodeList g n ys)
  | [], _, _, ys, hys => by
    obtain rfl : ys = [] := hys
    exact rfl
  | x :: xs, hd, ha, ys, hys => by
    obtain ⟨y, zs, rfl, hy, hzs⟩ := hys
    exact ⟨_, _, rfl, same_encode_of_all x hd.1 ha.1 y hy, sameList_encode_of_all xs hd.2 ha.2 zs hzs⟩

theorem sameDict_encode_of_all : (d : List (K × Tree K L)) → DistinctDict d →
    AllDict (fun l => g (f l) = l) (fun k => n k = k) d →
    ∀ e, SameDict (decodeDict f n d) e → SameDict d (encodeDict g n e)
  | [], _, _, e, he => by
    obtain rfl : e = [] := he
    exact rfl
  | (k, x) :: d, hd, ha, e, he => by
    obtain ⟨y, e', hp, hy, he'⟩ := he
    refine ⟨_, _, ?_, same_encode_of_all x hd.1 ha.2.1 y hy,
      sameDict_encode_of_all d hd.2 ha.2.2 e' he'⟩
    have hmap := hp.map fun p => (n p.1, encode g n p.2)
    simp only [List.map_cons, ha.1] at hmap
    simpa only [encodeDict_eq_map, ha.1] using hmap

end

theorem keys_fixed_of_sameDict (idem : ∀ k, n (n k) = n k) {d : List (K × Tree K L)}
    (h : SameDict d (collect (decodeDict g n (encodeDict f n d)))) :
    ∀ k ∈ d.map Prod.fst, n k = k := by
  intro k hk
  have hmem := (sameDict_keys h).mem_iff.mp hk
  rw [mem_collect_keys, decodeDict_keys] at hmem
  obtain ⟨j, hj, rfl⟩ := List.mem_map.mp hmem
  rw [encodeDict_keys] at hj
  obtain ⟨i, -, rfl⟩ := List.mem_map.mp hj
  rw [idem, idem]

theorem entries_same_of_sameDict (idem : ∀ k, n (n k) = n k) {d : List (K × Tree K L)}
    (hd : (d.map Prod.fst).Nodup)
    (h : SameDict d (collect (decodeDict g n (encodeDict f n d)))) {k : K} {x : Tree K L}
    (hx : (k, x) ∈ d) : Same x (decode g n (encode f n x)) := by
  have hfix := keys_fixed_of_sameDict idem h
  have hkeys : (decodeDict g n (encodeDict f n d)).map Prod.fst = d.map Prod.fst := by
    rw [decodeDict_keys, encodeDict_keys, map_eq_self_of_fixed hfix, map_eq_self_of_fixed hfix]
  have hnodup : ((decodeDict g n (encodeDict f n d)).map Prod.fst).Nodup := hkeys ▸ hd
  rw [collect_of_nodup hnodup] at h
  refine sameDict_lookup h hnodup hx ?_
  have hk : n k = k := hfix k (List.mem_map_of_mem hx)
  rw [decodeDict_eq_map, encodeDict_eq_map]
  exact List.mem_map.mpr ⟨(n k, encode f n x), List.mem_map.mpr ⟨(k, x), hx, rfl⟩, by rw [hk, hk]⟩

mutual

theorem all_of_same_decode (idem : ∀ k, n (n k) = n k) : (t : Tree K L) → Distinct t →
    Same t (decode g n (encode f n t)) → All (fun l => g (f l) = l) (fun k => n k = k) t
  | .leaf l, _, hs => by simpa [All, decode, encode, Same] using hs
  | .list xs, hd, hs => by
    obtain ⟨ys, hy, hs⟩ := hs
    obtain rfl : decodeList g n (encodeList f n xs) = ys := Tree.list.inj hy
    exact allList_of_same_decode idem xs hd hs
  | .dict d, hd, hs => by
    obtain ⟨e, he, hs⟩ := hs
    obtain rfl : collect (decodeDict g n (encodeDict f n d)) = e := Tree.dict.inj he
    have hfix := keys_fixed_of_sameDict idem hs
    exact allDict_of_same_decode idem d hd.2 hfix
      fun k x hx => entries_same_of_sameDict idem hd.1 hs hx

theorem allList_of_same_decode (idem : ∀ k, n (n k) = n k) : (xs : List (Tree K L)) →
    DistinctList xs → SameList xs (decodeList g n (encodeList f n xs)) →
    AllList (fun l => g (f l) = l) (fun k => n k = k) xs
  | [], _, _ => trivial
  | x :: xs, hd, hs => by
    obtain ⟨y, zs, he, hx, hxs⟩ := hs
    obtain ⟨rfl, rfl⟩ := List.cons.inj he
    exact ⟨all_of_same_decode idem x hd.1 hx, allList_of_same_decode idem xs hd.2 hxs⟩

theorem allDict_of_same_decode (idem : ∀ k, n (n k) = n k) : (d : List (K × Tree K L)) →
    DistinctDict d → (∀ k ∈ d.map Prod.fst, n k = k) →
    (∀ k x, (k, x) ∈ d → Same x (decode g n (encode f n x))) →
    AllDict (fun l => g (f l) = l) (fun k => n k = k) d
  | [], _, _, _ => trivial
  | (k, x) :: d, hd, hk, hs =>
    ⟨hk k (by simp), all_of_same_decode idem x hd.1 (hs k x List.mem_cons_self),
      allDict_of_same_decode idem d hd.2 (fun j hj => hk j (List.mem_cons_of_mem _ hj))
        fun j y hy => hs j y (List.mem_cons_of_mem _ hy)⟩

end

/-- A tree survives the trip, however the dictionaries are arranged on the way, exactly when all of
its leaves and keys do. -/
theorem same_decode_iff (idem : ∀ k, n (n k) = n k) (t : Tree K L) (hd : Distinct t) :
    (∀ c, Same (encode f n t) c → Same t (decode g n c)) ↔
      All (fun l => g (f l) = l) (fun k => n k = k) t :=
  ⟨fun h => all_of_same_decode idem t hd (h _ (same_refl _)), fun h => same_decode_of_all t hd h⟩

section Arranged

mutual

theorem same_decode_congr : (t : Tree K L) → Distinct t → All (fun _ => True) (fun k => n k = k) t →
    ∀ {u : Tree K L}, Same t u → Same (decode f n t) (decode f n u)
  | .leaf l, _, _, u, h => by
    obtain rfl : u = .leaf l := h
    exact same_refl _
  | .list xs, hd, ha, u, h => by
    obtain ⟨ys, rfl, hys⟩ := h
    exact ⟨_, rfl, sameList_decode_congr xs hd ha hys⟩
  | .dict d, hd, ha, u, h => by
    obtain ⟨e, rfl, he⟩ := h
    have hkeys : ((decodeDict f n d).map Prod.fst).Nodup := by
      rw [decodeDict_keys, map_eq_self_of_fixed (allDict_keys ha)]
      exact hd.1
    have hsame := sameDict_decode_congr d hd.2 ha he
    have hkeys' : ((decodeDict f n e).map Prod.fst).Nodup := (sameDict_keys hsame).nodup_iff.mp hkeys
    refine ⟨_, rfl, ?_⟩
    rw [collect_of_nodup hkeys, collect_of_nodup hkeys']
    exact hsame

theorem sameList_decode_congr : (xs : List (Tree K L)) → DistinctList xs →
    AllList (fun _ => True) (fun k => n k = k) xs →
    ∀ {ys : List (Tree K L)}, SameList xs ys → SameList (decodeList f n xs) (decodeList f n ys)
  | [], _, _, ys, h => by
    obtain rfl : ys = [] := h
    rfl
  | x :: xs, hd, ha, ys, h => by
    obtain ⟨y, zs, rfl, hy, hzs⟩ := h
    exact ⟨_, _, rfl, same_decode_congr x hd.1 ha.1 hy, sameList_decode_congr xs hd.2 ha.2 hzs⟩

theorem sameDict_decode_congr : (d : List (K × Tree K L)) → DistinctDict d →
    AllDict (fun _ => True) (fun k => n k = k) d →
    ∀ {e : List (K × Tree K L)}, SameDict d e → SameDict (decodeDict f n d) (decodeDict f n e)
  | [], _, _, e, h => by
    obtain rfl : e = [] := h
    rfl
  | (k, x) :: d, hd, ha, e, h => by
    obtain ⟨y, e', hp, hy, he'⟩ := h
    refine ⟨_, _, ?_, same_decode_congr x hd.1 ha.2.1 hy, sameDict_decode_congr d hd.2 ha.2.2 he'⟩
    have hmap := hp.map fun p => (n p.1, decode f n p.2)
    simpa only [decodeDict_eq_map, List.map_cons] using hmap

end

end Arranged

end RoundTrip

section Translated

variable {P : M → Prop} {Q : K → Prop} {f : L → M} {n : K → K}

theorem distinctDict_iff {d : List (K × Tree K L)} : DistinctDict d ↔ ∀ p ∈ d, Distinct p.2 := by
  induction d with
  | nil => simp [DistinctDict]
  | cons p d ih => simp [DistinctDict, ih]

theorem allDict_iff {R : L → Prop} {d : List (K × Tree K L)} :
    AllDict R Q d ↔ ∀ p ∈ d, Q p.1 ∧ All R Q p.2 := by
  induction d with
  | nil => simp [AllDict]
  | cons p d ih => simp [AllDict, ih, and_assoc]

mutual

theorem all_encode (hP : ∀ l, P (f l)) (hQ : ∀ k, Q (n k)) : (t : Tree K L) → All P Q (encode f n t)
  | .leaf l => hP l
  | .list xs => allList_encode hP hQ xs
  | .dict d => allDict_encode hP hQ d

theorem allList_encode (hP : ∀ l, P (f l)) (hQ : ∀ k, Q (n k)) :
    (xs : List (Tree K L)) → AllList P Q (encodeList f n xs)
  | [] => trivial
  | x :: xs => ⟨all_encode hP hQ x, allList_encode hP hQ xs⟩

theorem allDict_encode (hP : ∀ l, P (f l)) (hQ : ∀ k, Q (n k)) :
    (d : List (K × Tree K L)) → AllDict P Q (encodeDict f n d)
  | [] => trivial
  | (k, x) :: d => ⟨hQ k, all_encode hP hQ x, allDict_encode hP hQ d⟩

end

variable [DecidableEq K]

mutual

theorem all_decode (hP : ∀ l, P (f l)) (hQ : ∀ k, Q (n k)) : (t : Tree K L) → All P Q (decode f n t)
  | .leaf l => hP l
  | .list xs => allList_decode hP hQ xs
  | .dict d => by
    have hd := allDict_decode hP hQ d
    rw [allDict_iff] at hd
    exact allDict_iff.mpr fun p hp => hd p (mem_of_mem_collect hp)

theorem allList_decode (hP : ∀ l, P (f l)) (hQ : ∀ k, Q (n k)) :
    (xs : List (Tree K L)) → AllList P Q (decodeList f n xs)
  | [] => trivial
  | x :: xs => ⟨all_decode hP hQ x, allList_decode hP hQ xs⟩

theorem allDict_decode (hP : ∀ l, P (f l)) (hQ : ∀ k, Q (n k)) :
    (d : List (K × Tree K L)) → AllDict P Q (decodeDict f n d)
  | [] => trivial
  | (k, x) :: d => ⟨hQ k, all_decode hP hQ x, allDict_decode hP hQ d⟩

end

mutual

theorem distinct_decode : (t : Tree K L) → Distinct (decode f n t)
  | .leaf _ => trivial
  | .list xs => distinctList_decode xs
  | .dict d => by
    have hd := distinctDict_decode d
    rw [distinctDict_iff] at hd
    exact ⟨nodup_collect _, distinctDict_iff.mpr fun p hp => hd p (mem_of_mem_collect hp)⟩

theorem distinctList_decode : (xs : List (Tree K L)) → DistinctList (decodeList f n xs)
  | [] => trivial
  | x :: xs => ⟨distinct_decode x, distinctList_decode xs⟩

theorem distinctDict_decode : (d : List (K × Tree K L)) → DistinctDict (decodeDict f n d)
  | [] => trivial
  | (_, x) :: d => ⟨distinct_decode x, distinctDict_decode d⟩

end

end Translated

end Tree

end XconnCpp.Library

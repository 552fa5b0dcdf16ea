import Mathlib.Data.Finmap

namespace XconnCpp.Library

abbrev Table (K V : Type) := Finmap fun _ : K => V

namespace Table

variable {K V : Type} [DecidableEq K] {t : Table K V} {j k : K} {v w : V}

/-- An entry is added unless there is one for its key. -/
def emplace (t : Table K V) (k : K) (v : V) : Table K V := if k ∈ t then t else t.insert k v

theorem mem_iff_lookup : k ∈ t ↔ ∃ v, t.lookup k = some v := Finmap.mem_iff

theorem emplace_of_mem (h : k ∈ t) : t.emplace k v = t := if_pos h

theorem emplace_of_notMem (h : k ∉ t) : t.emplace k v = t.insert k v := if_neg h

theorem lookup_emplace_of_ne (h : j ≠ k) : (t.emplace k v).lookup j = t.lookup j := by
  by_cases hk : k ∈ t
  · rw [emplace_of_mem hk]
  · rw [emplace_of_notMem hk, Finmap.lookup_insert_of_ne _ h]

theorem lookup_emplace_of_some (h : t.lookup j = some w) : (t.emplace k v).lookup j = some w := by
  by_cases hj : j = k
  · subst hj
    rw [emplace_of_mem (mem_iff_lookup.mpr ⟨w, h⟩), h]
  · rw [lookup_emplace_of_ne hj, h]

theorem lookup_emplace_self_of_none (h : t.lookup k = none) : (t.emplace k v).lookup k = some v := by
  rw [emplace_of_notMem (Finmap.lookup_eq_none.mp h), Finmap.lookup_insert]

theorem lookup_emplace_cases (h : (t.emplace k v).lookup j = some w) : t.lookup j = some w ∨ j = k ∧ w = v := by
  by_cases hj : j = k
  · subst hj
    by_cases hmem : j ∈ t
    · rw [emplace_of_mem hmem] at h
      exact .inl h
    · rw [emplace_of_notMem hmem, Finmap.lookup_insert] at h
      exact .inr ⟨rfl, (Option.some.inj h).symm⟩
  · rw [lookup_emplace_of_ne hj] at h
    exact .inl h

theorem lookup_emplace_self_iff : (t.emplace k v).lookup k = some v ↔ k ∉ t ∨ t.lookup k = some v := by
  by_cases hk : k ∈ t
  · simp [emplace_of_mem hk, hk]
  · simp [emplace_of_notMem hk, hk]

theorem mem_emplace_iff : j ∈ t.emplace k v ↔ j = k ∨ j ∈ t := by
  by_cases hk : k ∈ t
  · rw [emplace_of_mem hk]
    exact ⟨.inr, fun h => h.elim (fun h => h ▸ hk) id⟩
  · rw [emplace_of_notMem hk, Finmap.mem_insert]

theorem erase_of_none (h : t.lookup k = none) : t.erase k = t := by
  apply Finmap.ext_lookup
  intro j
  by_cases hj : j = k
  · rw [hj, h, Finmap.lookup_erase]
  · rw [Finmap.lookup_erase_ne hj]

end Table

end XconnCpp.Library

import Mathlib.Algebra.GroupWithZero.Nat
import Mathlib.Data.List.Infix

namespace XconnCpp.Library.Transition

variable {σ Λ : Type*} {step : σ → Λ → Option σ} {s s' : σ} {ls ms : List Λ}

/-- A label names the choice that is made; `none` means that it is not enabled. -/
def exec (step : σ → Λ → Option σ) : σ → List Λ → Option σ
  | s, [] => some s
  | s, l :: ls => (step s l).bind fun s' => exec step s' ls

@[simp] theorem exec_nil : exec step s [] = some s := rfl

theorem exec_cons_iff {l : Λ} :
    exec step s (l :: ls) = some s' ↔ ∃ t, step s l = some t ∧ exec step t ls = some s' := by
  simp [exec, Option.bind_eq_some_iff]

theorem exec_append_iff :
    exec step s (ls ++ ms) = some s' ↔ ∃ t, exec step s ls = some t ∧ exec step t ms = some s' := by
  induction ls generalizing s with
  | nil => simp
  | cons l ls ih =>
    simp only [List.cons_append, exec_cons_iff, ih]
    constructor
    · rintro ⟨t, ht, u, hu, hs⟩
      exact ⟨u, ⟨t, ht, hu⟩, hs⟩
    · rintro ⟨u, ⟨t, ht, hu⟩, hs⟩
      exact ⟨t, ht, u, hu, hs⟩

theorem exec_split_iff {l : Λ} : exec step s (ls ++ l :: ms) = some s' ↔
    ∃ t u, exec step s ls = some t ∧ step t l = some u ∧ exec step u ms = some s' := by
  simp only [exec_append_iff, exec_cons_iff]
  constructor
  · rintro ⟨t, ht, u, hu, hs⟩
    exact ⟨t, u, ht, hu, hs⟩
  · rintro ⟨t, u, ht, hu, hs⟩
    exact ⟨t, ht, u, hu, hs⟩

theorem exec_snoc_iff {l : Λ} :
    exec step s (ls ++ [l]) = some s' ↔ ∃ t, exec step s ls = some t ∧ step t l = some s' := by
  simp [exec_append_iff, exec_cons_iff]

def Along (step : σ → Λ → Option σ) (C : σ → Λ → Prop) (s : σ) (ls : List Λ) : Prop :=
  ∀ pre l post t, ls = pre ++ l :: post → exec step s pre = some t → C t l

def Throughout (step : σ → Λ → Option σ) (P : σ → Prop) (s : σ) (ls : List Λ) : Prop :=
  ∀ pre post t, ls = pre ++ post → exec step s pre = some t → P t

theorem Along.initial {C : σ → Λ → Prop} (hc : Along step C s (ls ++ ms)) : Along step C s ls := by
  rintro pre l post t rfl ht
  exact hc pre l (post ++ ms) t (by simp) ht

theorem Along.drop {C : σ → Λ → Prop} {t : σ} (hc : Along step C s (ls ++ ms))
    (ht : exec step s ls = some t) : Along step C t ms := by
  rintro pre l post u rfl hu
  exact hc (ls ++ pre) l post u (by simp) (exec_append_iff.mpr ⟨t, ht, hu⟩)

theorem along_cons_iff {C : σ → Λ → Prop} {l : Λ} :
    Along step C s (l :: ls) ↔ C s l ∧ ∀ t, step s l = some t → Along step C t ls := by
  constructor
  · refine fun h => ⟨h [] l ls s rfl rfl, ?_⟩
    rintro t ht pre m post u rfl hu
    exact h (l :: pre) m post u rfl (exec_cons_iff.mpr ⟨t, ht, hu⟩)
  · rintro ⟨hl, ht⟩ pre m post u hp hu
    cases pre with
    | nil =>
      obtain ⟨rfl, rfl⟩ := List.cons.inj hp
      exact Option.some.inj hu ▸ hl
    | cons a pre =>
      obtain ⟨rfl, rfl⟩ := List.cons.inj hp
      obtain ⟨t, hst, hu⟩ := exec_cons_iff.mp hu
      exact ht t hst pre m post u rfl hu

theorem along_snoc_iff {C : σ → Λ → Prop} {l : Λ} (he : exec step s ls = some s') :
    Along step C s (ls ++ [l]) ↔ Along step C s ls ∧ C s' l := by
  constructor
  · exact fun hc => ⟨hc.initial, hc ls l [] s' rfl he⟩
  · rintro ⟨hc, hl⟩ pre m post t hp ht
    rcases List.eq_nil_or_concat post with rfl | ⟨post, b, rfl⟩
    · obtain ⟨rfl, hlm⟩ := List.append_inj' hp rfl
      obtain rfl : l = m := by simpa using hlm
      rwa [Option.some.inj (ht.symm.trans he)]
    · rw [List.concat_eq_append, ← List.cons_append, ← List.append_assoc] at hp
      exact hc pre m post t (List.append_inj' hp rfl).1 ht

instance decidableAlong {C : σ → Λ → Prop} [∀ t l, Decidable (C t l)] :
    (s : σ) → (ls : List Λ) → Decidable (Along step C s ls)
  | _, [] => isTrue (by simp [Along])
  | s, l :: ls =>
    have : DecidablePred fun t => Along step C t ls := fun t => decidableAlong t ls
    decidable_of_iff (C s l ∧ ∀ t ∈ step s l, Along step C t ls) along_cons_iff.symm

theorem exec_preserves {I : σ → Prop} {C : σ → Λ → Prop}
    (hstep : ∀ t l t', I t → C t l → step t l = some t' → I t')
    (hs : I s) (hc : Along step C s ls) (he : exec step s ls = some s') : I s' := by
  induction ls using List.reverseRecOn generalizing s' with
  | nil =>
    obtain rfl : s = s' := by simpa using he
    exact hs
  | append_singleton ls l ih =>
    obtain ⟨t, ht, hl⟩ := exec_snoc_iff.mp he
    exact hstep t l s' (ih hc.initial ht) (hc ls l [] t rfl ht) hl

theorem exec_invariant {I : σ → Prop} (hstep : ∀ t l t', I t → step t l = some t' → I t')
    (hs : I s) (he : exec step s ls = some s') : I s' :=
  exec_preserves (C := fun _ _ => True) (fun t l t' ht _ => hstep t l t' ht) hs
    (fun _ _ _ _ _ _ => trivial) he

/-- Each step uses up some of the energy that there was, or that its label supplies. -/
theorem exec_energy {energy : σ → ℕ} {supply : Λ → ℕ}
    (hstep : ∀ t l t', step t l = some t' → energy t' + 1 ≤ energy t + supply l)
    (he : exec step s ls = some s') : ls.length + energy s' ≤ energy s + (ls.map supply).sum := by
  induction ls generalizing s with
  | nil =>
    obtain rfl : s = s' := by simpa using he
    simp
  | cons l ls ih =>
    obtain ⟨t, ht, he⟩ := exec_cons_iff.mp he
    have hfirst := hstep s l t ht
    have hrest := ih he
    simp only [List.length_cons, List.map_cons, List.sum_cons]
    omega

theorem throughout_of_preserves {I : σ → Prop} {C : σ → Λ → Prop}
    (hstep : ∀ t l t', I t → C t l → step t l = some t' → I t')
    (hs : I s) (hc : Along step C s ls) : Throughout step I s ls := by
  rintro pre post t rfl ht
  exact exec_preserves hstep hs hc.initial ht

theorem exec_since_iff {holds : σ → Prop} {adds removes : σ → Λ → Prop}
    (hstep : ∀ t l t', step t l = some t' → (holds t' ↔ adds t l ∨ holds t ∧ ¬ removes t l))
    (hs : ¬ holds s) (he : exec step s ls = some s') :
    holds s' ↔ ∃ pre l post t, ls = pre ++ l :: post ∧ exec step s pre = some t ∧ adds t l ∧
      ∀ mid l' rest t', post = mid ++ l' :: rest → exec step s (pre ++ l :: mid) = some t' →
        ¬ removes t' l' := by
  induction ls using List.reverseRecOn generalizing s' with
  | nil =>
    obtain rfl : s = s' := by simpa using he
    simp [hs]
  | append_singleton ls l ih =>
    obtain ⟨t, ht, hl⟩ := exec_snoc_iff.mp he
    rw [hstep t l s' hl, ih ht]
    constructor
    · rintro (hadd | ⟨⟨pre, a, post, u, rfl, hu, hadd, hkeep⟩, hnot⟩)
      · exact ⟨ls, l, [], t, rfl, ht, hadd, by simp⟩
      · refine ⟨pre, a, post ++ [l], u, by simp, hu, hadd, ?_⟩
        intro mid l' rest t' hp ht'
        rcases List.eq_nil_or_concat rest with rfl | ⟨rest, b, rfl⟩
        · obtain ⟨rfl, hll⟩ := List.append_inj' hp rfl
          obtain rfl : l = l' := by simpa using hll
          rwa [Option.some.inj (ht'.symm.trans ht)]
        · rw [List.concat_eq_append, ← List.cons_append, ← List.append_assoc] at hp
          exact hkeep mid l' rest t' (List.append_inj' hp rfl).1 ht'
    · rintro ⟨pre, a, post, u, hp, hu, hadd, hkeep⟩
      rcases List.eq_nil_or_concat post with rfl | ⟨post, b, rfl⟩
      · obtain ⟨rfl, hla⟩ := List.append_inj' hp rfl
        obtain rfl : l = a := by simpa using hla
        exact .inl ((Option.some.inj (hu.symm.trans ht)) ▸ hadd)
      · rw [List.concat_eq_append, ← List.cons_append, ← List.append_assoc] at hp
        obtain ⟨rfl, hlb⟩ := List.append_inj' hp rfl
        obtain rfl : l = b := by simpa using hlb
        refine .inr ⟨⟨pre, a, post, u, rfl, hu, hadd, ?_⟩, ?_⟩
        · intro mid l' rest t' hm
          exact hkeep mid l' (rest ++ [l]) t' (by simp [hm])
        · exact hkeep post l [] t (by simp) ht

theorem exec_prefix {pre post : List Λ} (he : exec step s (pre ++ post) = some s') :
    ∃ t, exec step s pre = some t :=
  let ⟨t, ht, _⟩ := exec_append_iff.mp he
  ⟨t, ht⟩

theorem exec_since_label_iff (holds : σ → Prop) (adds : σ → Λ → Prop) (removes : Λ → Prop)
    (hstep : ∀ t l t', step t l = some t' → (holds t' ↔ adds t l ∨ holds t ∧ ¬ removes l))
    (hs : ¬ holds s) (he : exec step s ls = some s') :
    holds s' ↔ ∃ pre l post t, ls = pre ++ l :: post ∧ exec step s pre = some t ∧ adds t l ∧
      ∀ l' ∈ post, ¬ removes l' := by
  rw [exec_since_iff hstep hs he]
  constructor
  · rintro ⟨pre, l, post, t, rfl, ht, hadd, hkeep⟩
    refine ⟨pre, l, post, t, rfl, ht, hadd, fun l' hl' => ?_⟩
    obtain ⟨mid, rest, rfl⟩ := List.append_of_mem hl'
    have hm : exec step s ((pre ++ l :: mid) ++ l' :: rest) = some s' := by simpa using he
    obtain ⟨u, hu⟩ := exec_prefix hm
    exact hkeep mid l' rest u rfl hu
  · rintro ⟨pre, l, post, t, rfl, ht, hadd, hkeep⟩
    refine ⟨pre, l, post, t, rfl, ht, hadd, fun mid l' rest u hm _ => ?_⟩
    exact hkeep l' (hm ▸ List.mem_append_right mid List.mem_cons_self)

def Since (adds removes : Λ → Prop) (ls : List Λ) : Prop :=
  ∃ pre l post, ls = pre ++ l :: post ∧ adds l ∧ ∀ l' ∈ post, ¬ removes l'

theorem since_snoc_iff {adds removes : Λ → Prop} {l : Λ} :
    Since adds removes (ls ++ [l]) ↔ adds l ∨ Since adds removes ls ∧ ¬ removes l := by
  constructor
  · rintro ⟨pre, a, post, hp, hadd, hkeep⟩
    rcases List.eq_nil_or_concat post with rfl | ⟨post, b, rfl⟩
    · obtain ⟨-, hla⟩ := List.append_inj' hp rfl
      obtain rfl : l = a := by simpa using hla
      exact .inl hadd
    · rw [List.concat_eq_append] at hp hkeep
      rw [← List.cons_append, ← List.append_assoc] at hp
      obtain ⟨rfl, hlb⟩ := List.append_inj' hp rfl
      obtain rfl : l = b := by simpa using hlb
      exact .inr ⟨⟨pre, a, post, rfl, hadd, fun l' hl' => hkeep l' (List.mem_append_left _ hl')⟩,
        hkeep l (by simp)⟩
  · rintro (hadd | ⟨⟨pre, a, post, rfl, hadd, hkeep⟩, hnot⟩)
    · exact ⟨ls, l, [], rfl, hadd, by simp⟩
    · refine ⟨pre, a, post ++ [l], by simp, hadd, fun l' hl' => ?_⟩
      rcases List.mem_append.mp hl' with hl' | hl'
      · exact hkeep l' hl'
      · obtain rfl := List.mem_singleton.mp hl'
        exact hnot

theorem exec_iff_since (I holds : σ → Prop) {adds removes : Λ → Prop}
    (hI : ∀ t l t', I t → step t l = some t' → I t')
    (hstep : ∀ t l t', I t → step t l = some t' → (holds t' ↔ adds l ∨ holds t ∧ ¬ removes l))
    (hs : I s) (hnot : ¬ holds s) (he : exec step s ls = some s') : holds s' ↔ Since adds removes ls := by
  induction ls using List.reverseRecOn generalizing s' with
  | nil =>
    obtain rfl : s = s' := by simpa using he
    simp [Since, hnot]
  | append_singleton ls l ih =>
    obtain ⟨t, ht, hl⟩ := exec_snoc_iff.mp he
    rw [hstep t l s' (exec_invariant hI hs ht) hl, ih ht, since_snoc_iff]

theorem along_of_forall {C : Λ → Prop} (h : ∀ l ∈ ls, C l) : Along step (fun _ l => C l) s ls := by
  rintro pre l post t rfl -
  exact h l (by simp)

section OnlyFirst

variable {fires : Λ → Bool} {A B : σ → Prop} {good C : σ → Λ → Prop}

theorem along_iff_countP_eq_zero
    (hstale : ∀ t l t', B t → C t l → step t l = some t' → B t')
    (hbad : ∀ t l, B t → fires l → ¬ good t l) (hother : ∀ t l, ¬ fires l → good t l)
    (hs : B s) (hc : Along step C s ls) (he : exec step s ls = some s') :
    Along step good s ls ↔ ls.countP fires = 0 := by
  induction ls generalizing s with
  | nil => simp [Along]
  | cons l ls ih =>
    obtain ⟨t, ht, he⟩ := exec_cons_iff.mp he
    obtain ⟨hl, hc⟩ := along_cons_iff.mp hc
    have hrest := ih (hstale s l t hs hl ht) (hc t ht) he
    by_cases hf : fires l
    · simp [along_cons_iff, hf, hbad s l hs hf]
    · simp [along_cons_iff, hf, hother s l hf, ht, hrest]

theorem along_iff_countP_le_one
    (hfresh : ∀ t l t', A t → C t l → step t l = some t' → if fires l then B t' else A t')
    (hstale : ∀ t l t', B t → C t l → step t l = some t' → B t')
    (hgood : ∀ t l, A t → fires l → good t l) (hbad : ∀ t l, B t → fires l → ¬ good t l)
    (hother : ∀ t l, ¬ fires l → good t l)
    (hs : A s) (hc : Along step C s ls) (he : exec step s ls = some s') :
    Along step good s ls ↔ ls.countP fires ≤ 1 := by
  induction ls generalizing s with
  | nil => simp [Along]
  | cons l ls ih =>
    obtain ⟨t, ht, he⟩ := exec_cons_iff.mp he
    obtain ⟨hl, hc⟩ := along_cons_iff.mp hc
    have hnext := hfresh s l t hs hl ht
    by_cases hf : fires l
    · rw [if_pos hf] at hnext
      have hrest := along_iff_countP_eq_zero hstale hbad hother hnext (hc t ht) he
      simp [along_cons_iff, hf, hgood s l hs hf, ht, hrest]
    · rw [if_neg hf] at hnext
      have hrest := ih hnext (hc t ht) he
      simp [along_cons_iff, hf, hother s l hf, ht, hrest]

end OnlyFirst

section Simulation

variable {τ ε : Type*} {step' : τ → ε → Option τ} {observed : σ → Λ → List ε} {c : τ}

def observe (step : σ → Λ → Option σ) (observed : σ → Λ → List ε) : σ → List Λ → List ε
  | _, [] => []
  | s, l :: ls => observed s l ++ (step s l).elim [] fun t => observe step observed t ls

theorem observe_append (he : exec step s ls = some s') :
    observe step observed s (ls ++ ms) = observe step observed s ls ++ observe step observed s' ms := by
  induction ls generalizing s with
  | nil =>
    obtain rfl : s = s' := by simpa using he
    rfl
  | cons m ls ih =>
    obtain ⟨t, ht, he⟩ := exec_cons_iff.mp he
    simp only [List.cons_append, observe, ht, Option.elim_some, ih he, List.append_assoc]

theorem observe_snoc {l : Λ} (he : exec step s ls = some s') :
    observe step observed s (ls ++ [l]) = observe step observed s ls ++ observed s' l := by
  rw [observe_append he]
  cases h : step s' l <;> simp [observe, h]

theorem exec_simulates {R : σ → τ → Prop} {C : σ → Λ → Prop}
    (hstep : ∀ t l t' c, R t c → C t l → step t l = some t' →
      ∃ c', exec step' c (observed t l) = some c' ∧ R t' c')
    (hs : R s c) (hc : Along step C s ls) (he : exec step s ls = some s') :
    ∃ c', exec step' c (observe step observed s ls) = some c' ∧ R s' c' := by
  induction ls generalizing s c with
  | nil =>
    obtain rfl : s = s' := by simpa using he
    exact ⟨c, rfl, hs⟩
  | cons l ls ih =>
    obtain ⟨t, ht, he⟩ := exec_cons_iff.mp he
    obtain ⟨hl, hrest⟩ := along_cons_iff.mp hc
    obtain ⟨c₁, h₁, hr⟩ := hstep s l t c hs hl ht
    obtain ⟨c₂, h₂, hr⟩ := ih hr (hrest t ht) he
    refine ⟨c₂, ?_, hr⟩
    simp only [observe, ht, Option.elim_some]
    exact exec_append_iff.mpr ⟨c₁, h₁, h₂⟩

theorem exec_projects {f : σ → τ}
    (hstep : ∀ t l t', step t l = some t' → f t' = f t ∨ ∃ m, step' (f t) m = some (f t'))
    (he : exec step s ls = some s') : ∃ ms, exec step' (f s) ms = some (f s') := by
  induction ls using List.reverseRecOn generalizing s' with
  | nil =>
    obtain rfl : s = s' := by simpa using he
    exact ⟨[], rfl⟩
  | append_singleton ls l ih =>
    obtain ⟨t, ht, hl⟩ := exec_snoc_iff.mp he
    obtain ⟨ms, hms⟩ := ih ht
    rcases hstep t l s' hl with hsame | ⟨m, hm⟩
    · exact ⟨ms, hsame ▸ hms⟩
    · exact ⟨ms ++ [m], exec_snoc_iff.mpr ⟨f t, hms, hm⟩⟩

theorem exec_filterMap {f : σ → τ} {label : Λ → Option ε}
    (hstep : ∀ t l t', step t l = some t' →
      (label l).elim (f t' = f t) fun m => step' (f t) m = some (f t'))
    (he : exec step s ls = some s') : exec step' (f s) (ls.filterMap label) = some (f s') := by
  induction ls using List.reverseRecOn generalizing s' with
  | nil =>
    obtain rfl : s = s' := by simpa using he
    rfl
  | append_singleton ls l ih =>
    obtain ⟨t, ht, hl⟩ := exec_snoc_iff.mp he
    have hms := ih ht
    have hlast := hstep t l s' hl
    rw [List.filterMap_append]
    cases hlabel : label l with
    | none =>
      have hsame : f s' = f t := by simpa [hlabel] using hlast
      simpa [hlabel, hsame] using hms
    | some m =>
      have hm : step' (f t) m = some (f s') := by simpa [hlabel] using hlast
      simpa [hlabel] using exec_snoc_iff.mpr ⟨f t, hms, hm⟩

end Simulation

end XconnCpp.Library.Transition

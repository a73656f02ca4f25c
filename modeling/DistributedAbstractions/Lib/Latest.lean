import Mathlib.Data.List.Infix

/-! Entries that are set under keys and used later, as a log: whether each use is of what was set last. -/

namespace Latest

variable {κ ν : Type}

inductive Entry (κ ν : Type)
  | set (k : κ) (v : ν)
  | used (k : κ) (v : ν)

def Entry.setting? [DecidableEq κ] (k : κ) : Entry κ ν → Option ν
  | .set k' v => if k' = k then some v else none
  | .used _ _ => none

/-- What was set last under `k`. -/
def last [DecidableEq κ] (k : κ) (log : List (Entry κ ν)) : Option ν := (log.filterMap (Entry.setting? k)).getLast?

/-- Whatever is used was set last under its key. -/
def Faithful [DecidableEq κ] (log : List (Entry κ ν)) : Prop :=
  ∀ pre k v, pre ++ [.used k v] <+: log → last k pre = some v

section Lemmas

variable [DecidableEq κ] {log : List (Entry κ ν)} {k k' : κ} {v : ν}

theorem last_set_self : last k (log ++ [.set k v]) = some v := by
  simp [last, Entry.setting?]

theorem last_set_ne (hne : k' ≠ k) : last k (log ++ [.set k' v]) = last k log := by
  simp [last, Entry.setting?, hne]

theorem last_used : last k (log ++ [.used k' v]) = last k log := by
  simp [last, Entry.setting?]

theorem last_eq_none (h : ∀ v, .set k v ∉ log) : last k log = none := by
  rw [last, List.getLast?_eq_none_iff, List.filterMap_eq_nil_iff]
  intro e he
  cases e with
  | used => rfl
  | set k' v =>
    apply if_neg
    rintro rfl
    exact h v he

theorem faithful_nil : Faithful ([] : List (Entry κ ν)) := by
  intro pre k v h
  rw [List.prefix_nil] at h
  cases pre <;> cases h

theorem faithful_append_set : Faithful (log ++ [.set k v]) ↔ Faithful log := by
  constructor
  · exact fun h pre k v hpre => h pre k v (hpre.trans (List.prefix_append _ _))
  · intro h pre k' v' hpre
    rcases List.prefix_concat_iff.mp hpre with heq | hpre
    · obtain ⟨-, hlast⟩ := List.append_inj' heq rfl
      cases hlast
    · exact h pre k' v' hpre

theorem faithful_append_used : Faithful (log ++ [.used k v]) ↔ Faithful log ∧ last k log = some v := by
  constructor
  · intro h
    exact ⟨fun pre k v hpre => h pre k v (hpre.trans (List.prefix_append _ _)), h log k v (List.prefix_refl _)⟩
  · rintro ⟨h, hlast⟩ pre k' v' hpre
    rcases List.prefix_concat_iff.mp hpre with heq | hpre
    · obtain ⟨rfl, hused⟩ := List.append_inj' heq rfl
      cases hused
      exact hlast
    · exact h pre k' v' hpre

end Lemmas

end Latest

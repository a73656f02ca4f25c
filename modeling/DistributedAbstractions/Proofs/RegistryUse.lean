import DistributedAbstractions.Lib.Inbox
import DistributedAbstractions.Spec.Registry

/-! When the registry can be used. `fll_free` frees the list with the last link in it and leaves `_links`
pointing there, so that from then on every use of `_links` is one of a freed list. Up to then the list has
just the links alive. -/

namespace DSA

namespace Registry

/-- `after_append_singleton` follows a sequence call by call. -/
@[simp] theorem after_append_singleton (calls : List FllCall) (c : FllCall) :
    after (calls ++ [c]) = (after calls).call c := by
  simp [after]

/-- The list is freed if and only if the last link alive was, and before that it has the links alive. -/
structure Tracks (r : Registry) (torn : Prop) : Prop where
  unmade : r.links = none → r.made = 0 ∧ r.alive = [] ∧ ¬ torn
  listed : ∀ l, r.links = some l →
    ∃ o, r.lists[l]? = some o ∧ (o.freed = true ↔ torn) ∧ (¬ torn → o.elements = r.alive)

theorem Tracks.sound_iff {r : Registry} {torn : Prop} (h : Tracks r torn) : r.Sound ↔ ¬ torn := by
  unfold Sound
  cases hl : r.links with
  | none =>
    obtain ⟨-, halive, htorn⟩ := h.unmade hl
    exact iff_of_true halive htorn
  | some l =>
    obtain ⟨o, ho, hfreed, helements⟩ := h.listed l hl
    dsimp only
    rw [ho, Option.some_inj]
    constructor
    · intro heq ht
      have := hfreed.mpr ht
      rw [heq] at this
      contradiction
    · intro ht
      have hnot : o.freed = false := Bool.eq_false_iff.mpr (mt hfreed.mp ht)
      rw [← helements ht, ← hnot]

theorem Tracks.of_listed {r : Registry} {torn : Prop} {l : ℕ} {o : ListObject} (hl : r.links = some l)
    (ho : r.lists[l]? = some o) (hfreed : o.freed = true ↔ torn) (helements : ¬ torn → o.elements = r.alive) :
    Tracks r torn := by
  refine ⟨fun hnone => ?_, fun k hk => ?_⟩
  · rw [hl] at hnone
    contradiction
  · obtain rfl : l = k := Option.some.inj (hl.symm.trans hk)
    exact ⟨o, ho, hfreed, helements⟩

theorem Tracks.listInit {r s : Registry} {torn : Prop} {listOk : Bool} {l : ℕ} (h : Tracks r torn)
    (hs : r.listInit listOk = some (l, s)) : Tracks s torn ∧ s.links = some l := by
  unfold Registry.listInit at hs
  cases hl : r.links with
  | some k =>
    rw [hl, Option.some_inj, Prod.mk.injEq] at hs
    obtain ⟨rfl, rfl⟩ := hs
    exact ⟨h, hl⟩
  | none =>
    obtain ⟨-, halive, htorn⟩ := h.unmade hl
    rw [hl] at hs
    dsimp only at hs
    split_ifs at hs
    obtain ⟨rfl, rfl⟩ := Prod.mk.inj (Option.some.inj hs)
    refine ⟨Tracks.of_listed rfl (List.getElem?_concat_length ..) ?_ fun _ => halive.symm, rfl⟩
    exact iff_of_false (by decide) htorn

theorem Tracks.fllInit {r : Registry} {torn : Prop} (h : Tracks r torn) (socketOk listOk linkOk : Bool) :
    Tracks (r.fllInit socketOk listOk linkOk) torn := by
  unfold Registry.fllInit
  cases hs : r.listInit listOk with
  | none =>
    rw [ite_self]
    exact h
  | some made =>
    obtain ⟨l, s⟩ := made
    obtain ⟨hinit, hl⟩ := h.listInit hs
    dsimp only
    split_ifs
    · exact h
    · exact hinit
    obtain ⟨o, ho, hfreed, helements⟩ := hinit.listed l hl
    refine @Tracks.of_listed _ _ l { o with elements := o.elements ++ [s.made] } hl (by simp [ho]) hfreed fun ht => ?_
    rw [helements ht]

theorem fllFree_of_unmade {r : Registry} {link : ℕ} (h : ¬ link < r.made) : r.fllFree link = r := by
  rw [fllFree, if_pos (by omega)]

theorem fllFree_of_made {r : Registry} {link l : ℕ} (h : link < r.made) (hl : r.links = some l) :
    r.fllFree link = { r with lists := r.lists.modify l (removeLink link), alive := r.alive.erase link } := by
  unfold fllFree
  rw [if_neg (by omega), hl]

theorem Tracks.fllFree {r : Registry} {torn : Prop} (h : Tracks r torn) (link : ℕ) :
    Tracks (r.fllFree link) (torn ∨ link < r.made ∧ (r.fllFree link).alive = []) := by
  by_cases hmade : link < r.made
  · cases hl : r.links with
    | none =>
      have := (h.unmade hl).1
      omega
    | some l =>
      obtain ⟨o, ho, hfreed, helements⟩ := h.listed l hl
      rw [fllFree_of_made hmade hl]
      refine @Tracks.of_listed _ _ l (removeLink link o) hl (by simp [ho]) ?_ fun ht => ?_
      · rw [removeLink, Bool.or_eq_true, hfreed, List.isEmpty_iff]
        by_cases ht : torn
        · exact iff_of_true (Or.inl ht) (Or.inl ht)
        · rw [helements ht]
          exact or_congr_right (iff_and_self.mpr fun _ => hmade)
      · rw [removeLink, helements (fun ht' => ht (Or.inl ht'))]
  · rw [fllFree_of_unmade hmade, or_iff_left (fun ht => hmade ht.1)]
    exact h

theorem tornDown_nil : ¬ TornDown [] := by
  rintro ⟨pre, link, hp, -⟩
  have := hp.length_le
  simp at this

theorem tornDown_append_singleton (calls : List FllCall) (c : FllCall) :
    TornDown (calls ++ [c]) ↔ TornDown calls ∨
      ∃ link, c = .free link ∧ link < (after calls).made ∧ ((after calls).fllFree link).alive = [] := by
  constructor
  · rintro ⟨pre, link, hp, huses, halive⟩
    rcases Machine.prefix_append_singleton_iff.mp hp with hp | ⟨rfl, rfl⟩
    · exact Or.inl ⟨pre, link, hp, huses, halive⟩
    · rw [after_append_singleton] at halive
      exact Or.inr ⟨link, rfl, huses, halive⟩
  · rintro (⟨pre, link, hp, huses, halive⟩ | ⟨link, rfl, hmade, halive⟩)
    · exact ⟨pre, link, hp.trans (List.prefix_append _ _), huses, halive⟩
    · refine ⟨calls, link, List.prefix_refl _, hmade, ?_⟩
      rw [after_append_singleton]
      exact halive

theorem tracks_after (calls : List FllCall) : Tracks (after calls) (TornDown calls) := by
  induction calls using List.reverseRecOn with
  | nil => exact ⟨fun _ => ⟨rfl, rfl, tornDown_nil⟩, fun l hl => by simp [after, start] at hl⟩
  | append_singleton calls c ih =>
    rw [tornDown_append_singleton, after_append_singleton]
    cases c with
    | init socketOk listOk linkOk =>
      have := ih.fllInit socketOk listOk linkOk
      simpa [call] using this
    | free link =>
      have := ih.fllFree link
      simpa [call] using this

theorem sound_after_iff (calls : List FllCall) : (after calls).Sound ↔ ¬ TornDown calls :=
  (tracks_after calls).sound_iff

theorem usedSoundly_iff (calls : List FllCall) :
    UsedSoundly calls ↔ ∀ pre c, pre ++ [c] <+: calls → Uses (after pre) c → ¬ TornDown pre := by
  unfold UsedSoundly
  refine forall₄_congr fun pre c _ _ => ?_
  exact sound_after_iff pre

/-- A link is made, freed, and made again: the last call puts it in the list that is freed. -/
theorem reopened_registry : ¬ ∀ calls, UsedSoundly calls := by
  intro h
  have := h [.init true true true, .free 0, .init true true true] [.init true true true, .free 0]
    (.init true true true) (List.prefix_refl _) rfl
  simp [Sound, after, start, call, fllInit, Registry.listInit, fllFree, removeLink] at this

end Registry

end DSA

import DistributedAbstractions.Lib.NetFacts
import DistributedAbstractions.Spec.FailureDetectors

/-! The periods of a failure detector, and who is alive in the one that is going on. -/

namespace DSA

open CLib Net

section Periods

variable {evs : List FdEvent} {e : Deliver} {j : ℕ} {p : ℤ}

@[simp] theorem timeouts_nil : timeouts [] = 0 := rfl

@[simp] theorem timeouts_deliver : timeouts (evs ++ [.deliver e]) = timeouts evs := by
  simp [timeouts]

@[simp] theorem timeouts_timeout : timeouts (evs ++ [.timeout]) = timeouts evs + 1 := by
  simp [timeouts]

theorem not_heardIn_nil : ¬ HeardIn [] j p := by
  rintro ⟨pre, e, hp, -⟩
  simp at hp

theorem heardIn_deliver : HeardIn (evs ++ [.deliver e]) j p ↔
    HeardIn evs j p ∨ timeouts evs + 1 = j ∧ IsImAlive e ∧ e.sender = p := by
  constructor
  · rintro ⟨pre, e', hp, hj, hia, hs⟩
    rcases Machine.prefix_append_singleton_iff.mp hp with hp | ⟨rfl, he⟩
    · exact .inl ⟨pre, e', hp, hj, hia, hs⟩
    · cases he
      exact .inr ⟨hj, hia, hs⟩
  · rintro (⟨pre, e', hp, h⟩ | h)
    · exact ⟨pre, e', hp.trans (List.prefix_append _ _), h⟩
    · exact ⟨evs, e, List.prefix_refl _, h⟩

theorem heardIn_timeout : HeardIn (evs ++ [.timeout]) j p ↔ HeardIn evs j p := by
  constructor
  · rintro ⟨pre, e, hp, h⟩
    rcases Machine.prefix_append_singleton_iff.mp hp with hp | ⟨-, he⟩
    · exact ⟨pre, e, hp, h⟩
    · cases he
  · rintro ⟨pre, e, hp, h⟩
    exact ⟨pre, e, hp.trans (List.prefix_append _ _), h⟩

theorem HeardIn.le (h : HeardIn evs j p) : j ≤ timeouts evs + 1 := by
  obtain ⟨pre, e, hp, rfl, -⟩ := h
  have hsub : pre.Sublist evs := (List.sublist_append_left _ _).trans hp.sublist
  exact Nat.succ_le_succ (hsub.count_le _)

theorem heardIn_of_prefix {pre : List FdEvent} (h : pre ++ [.timeout] <+: evs) (hj : j ≤ timeouts pre + 1) :
    HeardIn evs j p ↔ HeardIn pre j p := by
  constructor
  · rintro ⟨pre', e, hp, rfl, he⟩
    rcases List.prefix_or_prefix_of_prefix hp h with hle | hle
    · rcases Machine.prefix_append_singleton_iff.mp hle with hle | ⟨-, hlast⟩
      · exact ⟨pre', e, hle, rfl, he⟩
      · cases hlast
    · rcases Machine.prefix_append_singleton_iff.mp hle with hle | ⟨-, hlast⟩
      · have hcount : timeouts (pre ++ [.timeout]) ≤ timeouts pre' := hle.sublist.count_le _
        rw [timeouts_timeout] at hcount
        omega
      · cases hlast
  · rintro ⟨pre', e, hp, he⟩
    exact ⟨pre', e, hp.trans ((List.prefix_append _ _).trans h), he⟩

theorem exists_first_timeout (h : timeouts evs ≠ 0) :
    ∃ pre, pre ++ [.timeout] <+: evs ∧ timeouts pre = 0 := by
  induction evs using List.reverseRecOn with
  | nil => exact absurd rfl h
  | append_singleton evs e ih =>
    by_cases h0 : timeouts evs = 0
    · cases e with
      | deliver e => rw [timeouts_deliver] at h; exact absurd h0 h
      | timeout => exact ⟨evs, List.prefix_refl _, h0⟩
    · obtain ⟨pre, hp, hpre⟩ := ih h0
      exact ⟨pre, hp.trans (List.prefix_append _ _), hpre⟩

end Periods

/-- The peers heard in the period that is going on are alive; in the initial one `seeded` are. -/
def Alive (seeded : ℤ → Prop) (evs : List FdEvent) (p : ℤ) : Prop :=
  timeouts evs = 0 ∧ seeded p ∨ HeardIn evs (timeouts evs + 1) p

theorem alive_timeout {seeded : ℤ → Prop} {evs : List FdEvent} {p : ℤ} :
    ¬ Alive seeded (evs ++ [.timeout]) p := by
  rw [Alive, timeouts_timeout, heardIn_timeout]
  rintro (⟨h, -⟩ | h)
  · omega
  · have := h.le
    omega

section Callback

variable {ω : Type} {alive : List ℤ} {e : Deliver}

theorem not_heartbeat (h : IsImAlive e) : (tryParseMessage e.msg HB_CODE).isSome = false := by
  obtain ⟨body, hb⟩ := Option.isSome_iff_exists.mp h
  obtain ⟨⟨rest, hrest⟩, -⟩ := tryParseMessage_eq_some.mp hb
  rw [← hrest]
  rfl

theorem mem_fdCallback {p : ℤ} : p ∈ (fdCallback alive e : List ℤ × List (Effect CString ω)).1 ↔
    p ∈ alive ∨ IsImAlive e ∧ e.sender = p := by
  unfold fdCallback
  split_ifs with hhb hia
  · have hno : ¬ IsImAlive e := fun h => by rw [not_heartbeat h] at hhb; cases hhb
    simp [hno]
  · simp [IsImAlive, hia, eq_comm]
  · simp [IsImAlive, hia]

theorem indicate_notMem_fdCallback {o : ω} :
    .indicate o ∉ (fdCallback alive e : List ℤ × List (Effect CString ω)).2 := by
  unfold fdCallback
  split_ifs <;> simp

theorem Alive.deliver {seeded : ℤ → Prop} {evs : List FdEvent} {p : ℤ}
    (h : p ∈ alive ↔ Alive seeded evs p) :
    p ∈ (fdCallback alive e : List ℤ × List (Effect CString ω)).1 ↔
      Alive seeded (evs ++ [.deliver e]) p := by
  rw [mem_fdCallback, h, Alive, Alive, timeouts_deliver, heardIn_deliver]
  simp only [true_and, or_assoc]

end Callback

end DSA

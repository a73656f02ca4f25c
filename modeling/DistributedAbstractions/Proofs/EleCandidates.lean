import DistributedAbstractions.Spec.EventualLeader

/-! Which epochs the eventual leader elector keeps. A higher epoch removes the entry of its sender
without taking its place, so the highest one is kept only if it arrives when there is no entry. -/

namespace DSA

open CLib Net

/-- What a heartbeat with epoch `e` makes of the entry of its sender. -/
def slotStep (slot : Option ℤ) (e : ℤ) : Option ℤ :=
  match slot with
  | none => some e
  | some x => if x < e then none else some x

def slotOf (es : List ℤ) : Option ℤ := es.foldl slotStep none

/-- What a sequence of heartbeats leaves in an empty list of candidates. -/
def candidatesOf (hbs : List Heartbeat) : List Heartbeat :=
  hbs.foldl (fun candidates hb => recordHeartbeat hb candidates) []

def entriesOf (p : ℤ) (candidates : List Heartbeat) : List Heartbeat :=
  candidates.filter fun c => c.sender = p

theorem entriesOf_record_other {p : ℤ} {hb : Heartbeat} (h : hb.sender ≠ p) (candidates : List Heartbeat) :
    entriesOf p (recordHeartbeat hb candidates) = entriesOf p candidates := by
  induction candidates with
  | nil => simp [recordHeartbeat, entriesOf, h]
  | cons past rest ih =>
    unfold recordHeartbeat
    split_ifs with hs he
    · have hpast : past.sender ≠ p := fun heq => h (hs ▸ heq)
      simp [entriesOf, hpast]
    · rfl
    · simp only [entriesOf, List.filter_cons] at ih ⊢
      split_ifs <;> simp [ih]

/-- A search that meets the only entry of the sender. -/
theorem entriesOf_record_self {p : ℤ} {hb : Heartbeat} (h : hb.sender = p) {slot : Option ℤ}
    {candidates : List Heartbeat} (hslot : entriesOf p candidates = slot.toList.map (⟨p, ·⟩)) :
    entriesOf p (recordHeartbeat hb candidates) = (slotStep slot hb.epoch).toList.map (⟨p, ·⟩) := by
  induction candidates with
  | nil =>
    cases slot with
    | none =>
      obtain ⟨sender, epoch⟩ := hb
      obtain rfl : sender = p := h
      simp [recordHeartbeat, entriesOf, slotStep]
    | some x => simp [entriesOf] at hslot
  | cons past rest ih =>
    unfold recordHeartbeat
    by_cases hs : past.sender = hb.sender
    · have hp : past.sender = p := hs.trans h
      cases slot with
      | none => simp [entriesOf, hp] at hslot
      | some x =>
        simp only [entriesOf, List.filter_cons, hp, decide_true, if_true, Option.toList_some, List.map_cons,
          List.map_nil, List.cons.injEq] at hslot
        obtain ⟨rfl, hrest⟩ := hslot
        rw [if_pos hs]
        unfold slotStep
        dsimp only
        split_ifs with he
        · simpa [entriesOf] using hrest
        · simpa [entriesOf] using hrest
    · have hp : past.sender ≠ p := fun heq => hs (heq.trans h.symm)
      have hrest : entriesOf p rest = slot.toList.map (⟨p, ·⟩) := by
        simpa [entriesOf, hp] using hslot
      rw [if_neg hs]
      simpa [entriesOf, hp] using ih hrest

theorem candidatesOf_append_singleton (hbs : List Heartbeat) (hb : Heartbeat) :
    candidatesOf (hbs ++ [hb]) = recordHeartbeat hb (candidatesOf hbs) := by
  unfold candidatesOf
  rw [List.foldl_append]
  rfl

/-- Of each sender the list has at most one entry, and this depends on its own epochs alone. -/
theorem entriesOf_candidatesOf (p : ℤ) (hbs : List Heartbeat) :
    entriesOf p (candidatesOf hbs) = (slotOf (epochsFrom p hbs)).toList.map (⟨p, ·⟩) := by
  induction hbs using List.reverseRecOn with
  | nil => rfl
  | append_singleton hbs hb ih =>
    rw [candidatesOf_append_singleton]
    by_cases h : hb.sender = p
    · rw [entriesOf_record_self h ih]
      simp [epochsFrom, slotOf, h]
    · rw [entriesOf_record_other h, ih]
      simp [epochsFrom, h]

/-- The epoch of an entry arrived when there was none, and none above it has come since. -/
theorem slotOf_eq_some {es : List ℤ} {x : ℤ} (h : slotOf es = some x) :
    ∃ pre post, es = pre ++ x :: post ∧ slotOf pre = none ∧ ∀ e ∈ post, e ≤ x := by
  induction es using List.reverseRecOn with
  | nil => cases h
  | append_singleton es e ih =>
    have hstep : slotStep (slotOf es) e = some x := by simpa [slotOf] using h
    cases hs : slotOf es with
    | none =>
      rw [hs] at hstep
      exact ⟨es, [], by rw [Option.some.inj hstep], hs, fun _ he => absurd he List.not_mem_nil⟩
    | some y =>
      rw [hs] at hstep
      unfold slotStep at hstep
      dsimp only at hstep
      split_ifs at hstep with hlt
      obtain rfl := Option.some.inj hstep
      obtain ⟨pre, post, heq, hpre, hpost⟩ := ih hs
      refine ⟨pre, post ++ [e], by rw [heq]; simp, hpre, fun b hb => ?_⟩
      rcases List.mem_append.mp hb with hb | hb
      · exact hpost b hb
      · exact (List.mem_singleton.mp hb) ▸ not_lt.mp hlt

theorem slotOf_of_highest {pre post : List ℤ} {x : ℤ} (hpre : slotOf pre = none)
    (hpost : ∀ e ∈ post, e ≤ x) : slotOf (pre ++ x :: post) = some x := by
  induction post using List.reverseRecOn with
  | nil =>
    unfold slotOf at hpre ⊢
    rw [List.foldl_append, hpre]
    rfl
  | append_singleton post e ih =>
    have hx := ih fun e he => hpost e (by simp [he])
    have hle : ¬ x < e := not_lt.mpr (hpost e (by simp))
    unfold slotOf at hx ⊢
    rw [← List.cons_append, ← List.append_assoc, List.foldl_append, hx]
    simp [slotStep, hle]

/-- There is no entry exactly after whole blocks. -/
theorem slotOf_eq_none_iff {es : List ℤ} : slotOf es = none ↔ InBlocks es := by
  constructor
  · intro h
    induction hn : es.length using Nat.strong_induction_on generalizing es with
    | _ n ih =>
      rcases List.eq_nil_or_concat es with rfl | ⟨es, c, rfl⟩
      · exact .nil
      · have hstep : slotStep (slotOf es) c = none := by simpa [slotOf] using h
        cases hs : slotOf es with
        | none =>
          rw [hs] at hstep
          cases hstep
        | some a =>
          rw [hs] at hstep
          unfold slotStep at hstep
          dsimp only at hstep
          split_ifs at hstep with hlt
          obtain ⟨pre, mid, rfl, hpre, hmid⟩ := slotOf_eq_some hs
          have hshorter : pre.length < n := by
            rw [← hn, List.length_concat, List.length_append]
            omega
          rw [List.concat_eq_append]
          exact .block (ih pre.length hshorter hpre rfl) hmid hlt
  · intro h
    induction h with
    | nil => rfl
    | @block pre mid a c _ hmid hc ih =>
      have ha := slotOf_of_highest ih hmid
      unfold slotOf at ha ⊢
      rw [List.foldl_append, ha]
      simp [slotStep, hc]

theorem entry_iff {p : ℤ} {hbs : List Heartbeat} {c : Heartbeat} :
    entriesOf p (candidatesOf hbs) = [c] ↔ slotOf (epochsFrom p hbs) = some c.epoch ∧ c.sender = p := by
  rw [entriesOf_candidatesOf]
  obtain ⟨sender, epoch⟩ := c
  cases slotOf (epochsFrom p hbs) with
  | none => simp
  | some x => simp [eq_comm, and_comm]

theorem split_of_epochsFrom {p : ℤ} {hbs : List Heartbeat} {es es' : List ℤ} {x : ℤ}
    (h : epochsFrom p hbs = es ++ x :: es') :
    ∃ pre post, hbs = pre ++ ⟨p, x⟩ :: post ∧ epochsFrom p pre = es := by
  unfold epochsFrom at h
  obtain ⟨l₁, l₂, hfilter, hl₁, hl₂⟩ := List.map_eq_append_iff.mp h
  obtain ⟨hb, l₃, rfl, hx, -⟩ := List.map_eq_cons_iff.mp hl₂
  obtain ⟨pre, rest, rfl, hpre, hrest⟩ := List.filter_eq_append_iff.mp hfilter
  obtain ⟨skipped, post, rfl, hskipped, hp, -⟩ := List.filter_eq_cons_iff.mp hrest
  obtain rfl : hb = ⟨p, x⟩ := by
    obtain ⟨sender, epoch⟩ := hb
    exact congrArg₂ Heartbeat.mk (of_decide_eq_true hp) hx
  refine ⟨pre ++ skipped, post, by simp, ?_⟩
  have hnone : skipped.filter (fun hb => hb.sender = p) = [] := List.filter_eq_nil_iff.mpr hskipped
  rw [epochsFrom, List.filter_append, hnone, List.append_nil, hpre, hl₁]

theorem kept_iff_afterBlocks (hbs : List Heartbeat) :
    HighestKept hbs (candidatesOf hbs) ↔ HighestAfterBlocks hbs := by
  refine forall_congr' fun p => forall_congr' fun _ => ?_
  constructor
  · rintro ⟨c, hentry, hhighest⟩
    obtain ⟨hslot, rfl⟩ := entry_iff.mp hentry
    obtain ⟨es, es', hsplit, hnone, -⟩ := slotOf_eq_some hslot
    obtain ⟨pre, post, hhbs, hpre⟩ := split_of_epochsFrom hsplit
    exact ⟨pre, c, post, hhbs, hhighest, slotOf_eq_none_iff.mp (hpre ▸ hnone)⟩
  · rintro ⟨pre, hb, post, hhbs, hhighest, hblocks⟩
    refine ⟨hb, entry_iff.mpr ⟨?_, hhighest.1.2⟩, hhighest⟩
    have hsplit : epochsFrom p hbs = epochsFrom p pre ++ hb.epoch :: epochsFrom p post := by
      simp [hhbs, epochsFrom, hhighest.1.2]
    rw [hsplit]
    apply slotOf_of_highest (slotOf_eq_none_iff.mpr hblocks)
    intro e he
    obtain ⟨hb', hmem, rfl⟩ := List.mem_map.mp he
    obtain ⟨hpost, hp⟩ := List.mem_filter.mp hmem
    exact hhighest.2 hb' (by simp [hhbs, hpost]) (of_decide_eq_true hp)

theorem candidates_foldl (es : List Deliver) (ele : Ele) : (es.foldl eleWrapper ele).candidates =
    (heartbeatsOf es).foldl (fun candidates hb => recordHeartbeat hb candidates) ele.candidates := by
  induction es generalizing ele with
  | nil => rfl
  | cons e es ih =>
    rw [List.foldl_cons, ih]
    unfold eleWrapper heartbeatsOf
    cases h : heartbeatOf e <;> simp [h]

theorem handleTimeout_candidates (ele : Ele) : (eleHandleTimeout ele).1.candidates = [] := by
  unfold eleHandleTimeout
  dsimp only
  split_ifs <;> rfl

/-- Of the messages after a timeout the candidates keep the highest epochs if and only if these
arrive after whole blocks of their senders. -/
theorem highest_kept_iff (ele : Ele) (es : List Deliver) :
    HighestKept (heartbeatsOf es) (es.foldl eleWrapper (eleHandleTimeout ele).1).candidates ↔
      HighestAfterBlocks (heartbeatsOf es) := by
  rw [candidates_foldl, handleTimeout_candidates]
  exact kept_iff_afterBlocks _

/-- A peer that has come back with a higher epoch is not among the candidates. -/
theorem restarted_peer_forgotten : ¬ HighestKept
    (heartbeatsOf [⟨['H', 'E', ',', '1'], 2⟩, ⟨['H', 'E', ',', '2'], 2⟩])
    (([⟨['H', 'E', ',', '1'], 2⟩, ⟨['H', 'E', ',', '2'], 2⟩] : List Deliver).foldl eleWrapper
      (eleHandleTimeout (eleNew 1 2 1)).1).candidates := by
  intro h
  obtain ⟨c, hc, -⟩ := h 2 ⟨⟨2, 1⟩, by decide, rfl⟩
  have hnil : (([⟨['H', 'E', ',', '1'], 2⟩, ⟨['H', 'E', ',', '2'], 2⟩] : List Deliver).foldl eleWrapper
      (eleHandleTimeout (eleNew 1 2 1)).1).candidates = [] := by decide
  rw [hnil] at hc
  cases hc

end DSA

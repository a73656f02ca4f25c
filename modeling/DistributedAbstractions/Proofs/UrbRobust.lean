import DistributedAbstractions.Lib.Inbox
import DistributedAbstractions.Proofs.UrbLocal

/-! The uniform broadcast under any deliveries. A record keeps the beginning of an id and is looked up with
all of it, so that a long id is never found again; and the sender is not looked at before its ack is
written. -/

namespace DSA

open CLib Inbox Net

/-- What a call sends is what it relays, to all ranks. -/
theorem sends_urbCallback (u : Urb) (e : Deliver) : ∃ is : List Indication, (urbCallback u e).2 =
    (urbRelay u e).flatMap (fun f => urbBroadcastAux u (createRbDelivery f).msg f.originalId f.originalSender) ++
      is.map .indicate := by
  have hack (v : Urb) (i : ℕ) (f : Fields) : ∃ is : List Indication, (acknowledge v i e.sender f).2 = is.map .indicate := by
    unfold acknowledge
    dsimp only
    split
    · exact ⟨[], rfl⟩
    · split_ifs
      · exact ⟨[_], rfl⟩
      · exact ⟨[], rfl⟩
  unfold urbCallback urbRelay
  cases openFrame u.maxRank e.msg with
  | none => exact ⟨[], rfl⟩
  | some f =>
    dsimp only
    cases hfind : u.received.findIdx? (·.id = f.originalId) with
    | some i =>
      obtain ⟨is, his⟩ := hack u i f
      exact ⟨is, by simpa using his⟩
    | none =>
      obtain ⟨is, his⟩ := hack { u with received := u.received ++ [newSavedMessage f] } u.received.length f
      refine ⟨is, ?_⟩
      dsimp only
      rw [his]
      by_cases ho : f.originalSender ≠ u.localRank
      · simp [ho]
      · simp [ho]

def ids (u : Urb) : List CString := u.received.map (·.id)

/-- Some record has an ack in slot `i`. -/
def Acked (u : Urb) (i : ℤ) : Prop := ∃ m ∈ u.received, m.acks i = true

section Step

variable {u : Urb} {e : Deliver} {f : Fields} (hf : openFrame u.maxRank e.msg = some f)
include hf

/-- The record of a frame, found or made, gets the ack of the sender. -/
theorem urbStep_frame : ∃ pre m post m', (urbStep u e).1 = { u with received := pre ++ m' :: post } ∧
    m'.id = m.id ∧ m'.acks = Function.update m.acks (e.sender - 1) true ∧
    ((u.received = pre ++ m :: post ∧ m.id = f.originalId) ∨
      (u.received = pre ∧ post = [] ∧ m = newSavedMessage f ∧ ∀ m ∈ u.received, m.id ≠ f.originalId)) := by
  have place {f' : Fields} {pre post : List SavedMessage} {m : SavedMessage} {relay : UrbEffects}
      (hf' : openFrame u.maxRank e.msg = some f') (hp : Place u f' pre m post relay) :
      (u.received = pre ++ m :: post ∧ m.id = f.originalId) ∨
        (u.received = pre ∧ post = [] ∧ m = newSavedMessage f ∧ ∀ m ∈ u.received, m.id ≠ f.originalId) := by
    obtain rfl := Option.some.inj (hf.symm.trans hf')
    cases hp with
    | known h hm => exact .inl ⟨h, hm⟩
    | new h => exact .inr ⟨rfl, rfl, rfl, h⟩
  have hout := urbCallback_outcome u e.sender e.msg
  change ∃ pre m post m', (urbCallback u ⟨e.msg, e.sender⟩).1 = _ ∧ _
  generalize (urbCallback u ⟨e.msg, e.sender⟩).1 = u' at hout ⊢
  generalize (urbCallback u ⟨e.msg, e.sender⟩).2 = es at hout
  cases hout with
  | ignored h =>
    rw [h] at hf
    cases hf
  | @counted f' pre post m relay hf' hp => exact ⟨pre, m, post, _, rfl, rfl, rfl, place hf' hp⟩
  | @delivered f' pre post m relay hf' hp => exact ⟨pre, m, post, _, rfl, rfl, rfl, place hf' hp⟩

theorem ids_urbStep : ids (urbStep u e).1 =
    if f.originalId ∈ ids u then ids u else ids u ++ [f.originalId.take UUID_STR_LEN] := by
  obtain ⟨pre, m, post, m', hu', hid, -, ⟨hu, hm⟩ | ⟨hu, rfl, rfl, hnew⟩⟩ := urbStep_frame hf
  · have hmem : f.originalId ∈ ids u := by
      rw [ids, hu, ← hm]
      simp
    rw [if_pos hmem, hu', ids, ids, hu]
    simp [hid]
  · have hmem : f.originalId ∉ ids u := fun h => by
      obtain ⟨m, hm, hmid⟩ := List.mem_map.mp h
      exact hnew m hm hmid
    rw [if_neg hmem, hu', ids, ids, hu, List.map_append, List.map_cons, hid]
    rfl

theorem urbRelay_eq : urbRelay u e = if f.originalId ∉ ids u ∧ f.originalSender ≠ u.localRank then [f] else [] := by
  have hnone : u.received.findIdx? (·.id = f.originalId) = none ↔ f.originalId ∉ ids u := by
    simp [List.findIdx?_eq_none_iff, ids]
  simp only [urbRelay, hf, hnone]

theorem acked_urbStep (i : ℤ) : Acked (urbStep u e).1 i ↔ Acked u i ∨ i = e.sender - 1 := by
  obtain ⟨pre, m, post, m', hu', -, hacks, hm⟩ := urbStep_frame hf
  have hm' : m'.acks i = true ↔ m.acks i = true ∨ i = e.sender - 1 := by
    rw [hacks, Function.update_apply]
    by_cases hi : i = e.sender - 1 <;> simp [hi]
  have hold : Acked u i ↔ (∃ x ∈ pre, x.acks i = true) ∨ m.acks i = true ∨ ∃ x ∈ post, x.acks i = true := by
    rcases hm with ⟨hu, -⟩ | ⟨hu, rfl, rfl, -⟩
    · rw [Acked, hu]
      simp [or_and_right, exists_or]
    · rw [Acked, hu]
      simp [newSavedMessage]
  have hnew : Acked (urbStep u e).1 i ↔ (∃ x ∈ pre, x.acks i = true) ∨ m'.acks i = true ∨ ∃ x ∈ post, x.acks i = true := by
    rw [Acked, hu']
    simp [or_and_right, exists_or]
  rw [hnew, hold, hm', or_assoc, or_assoc, or_assoc, or_comm (a := i = e.sender - 1)]

end Step

/-- What the records and the relays of one process say about the deliveries it got. -/
structure UrbTraced (maxRank : ℕ) (es : List Deliver) (u : Urb) (relays : List Fields) : Prop where
  maxRank_eq : u.maxRank = maxRank
  recorded : ∀ x, x ∈ ids u ↔ ∃ e ∈ es, ∃ f, openFrame maxRank e.msg = some f ∧ f.originalId.take UUID_STR_LEN = x
  relayed : ∀ f ∈ relays, f.originalId.take UUID_STR_LEN ∈ ids u

theorem urbRobust_iff_acked {maxRank : ℕ} {u : Urb} {relays : List Fields} : UrbRobust maxRank u relays ↔
    (ids u).Nodup ∧ (relays.map (·.originalId)).Nodup ∧ ∀ i, Acked u i → 0 ≤ i ∧ i < maxRank :=
  ⟨fun h => ⟨h.one_record, h.one_relay, fun i ⟨m, hm, hi⟩ => h.slots m hm i hi⟩,
    fun ⟨h1, h2, h3⟩ => ⟨h1, h2, fun m hm i hi => h3 i ⟨m, hm, hi⟩⟩⟩

section Run

variable {maxRank : ℕ} {es : List Deliver} {u : Urb} {relays : List Fields} {e : Deliver} {f : Fields}

theorem urbStep_ignored (hf : openFrame u.maxRank e.msg = none) : urbStep u e = (u, []) := by
  simp only [urbStep, urbCallback, urbRelay, hf]

theorem maxRank_urbStep (u : Urb) (e : Deliver) : (urbStep u e).1.maxRank = u.maxRank := by
  cases hf : openFrame u.maxRank e.msg with
  | none => rw [urbStep_ignored hf]
  | some f =>
    obtain ⟨pre, m, post, m', hu', -⟩ := urbStep_frame hf
    rw [hu']

theorem UrbTraced.mem_ids_urbStep (h : UrbTraced maxRank es u relays) (hf : openFrame u.maxRank e.msg = some f)
    (x : CString) : x ∈ ids (urbStep u e).1 ↔ x ∈ ids u ∨ f.originalId.take UUID_STR_LEN = x := by
  rw [ids_urbStep hf]
  split_ifs with hmem
  · obtain ⟨e', -, f', -, htake⟩ := (h.recorded _).mp hmem
    have hself : f.originalId.take UUID_STR_LEN = f.originalId := by
      rw [← htake, List.take_take, Nat.min_self]
    rw [hself]
    exact ⟨.inl, fun hx => hx.elim id fun hx => hx ▸ hmem⟩
  · rw [List.mem_append, List.mem_singleton, eq_comm (a := x)]

theorem UrbTraced.step (h : UrbTraced maxRank es u relays) (e : Deliver) :
    UrbTraced maxRank (es ++ [e]) (urbStep u e).1 (relays ++ (urbStep u e).2) := by
  have hN := h.maxRank_eq
  cases hf : openFrame u.maxRank e.msg with
  | none =>
    rw [urbStep_ignored hf, List.append_nil]
    refine ⟨hN, fun x => (h.recorded x).trans ?_, h.relayed⟩
    simp [← hN, hf]
  | some f =>
    refine ⟨(maxRank_urbStep u e).trans hN, fun x => ?_, fun f' hf' => ?_⟩
    · rw [h.mem_ids_urbStep hf, h.recorded]
      simp [← hN, hf, or_and_right, exists_or]
    · rw [h.mem_ids_urbStep hf]
      rcases List.mem_append.mp hf' with hf' | hf'
      · exact .inl (h.relayed f' hf')
      · change f' ∈ urbRelay u e at hf'
        rw [urbRelay_eq hf] at hf'
        split_ifs at hf'
        · exact .inr (by rw [List.mem_singleton.mp hf'])
        · cases hf'

/-- An id that is too long for its record is not found, and any other one is if its beginning is there. -/
theorem UrbTraced.not_found (h : UrbTraced maxRank es u relays) (f : Fields) :
    (f.originalId ∉ ids u → f.originalId.take UUID_STR_LEN ∉ ids u) ↔
      (UUID_STR_LEN < f.originalId.length → f.originalId.take UUID_STR_LEN ∉ ids u) := by
  by_cases hlong : UUID_STR_LEN < f.originalId.length
  · have hnew : f.originalId ∉ ids u := fun hmem => by
      obtain ⟨e', -, f', -, htake⟩ := (h.recorded _).mp hmem
      have hle := List.length_take_le UUID_STR_LEN f'.originalId
      rw [htake] at hle
      omega
    exact ⟨fun hn _ => hn hnew, fun hn _ => hn hlong⟩
  · rw [List.take_of_length_le (by omega)]
    exact ⟨fun _ hl => absurd hl hlong, fun _ => id⟩

theorem UrbTraced.orderly_iff (h : UrbTraced maxRank es u relays) (hf : openFrame u.maxRank e.msg = some f) :
    UrbOrderly maxRank es e ↔ e.sender ∈ peers maxRank ∧
      (UUID_STR_LEN < f.originalId.length → f.originalId.take UUID_STR_LEN ∉ ids u) := by
  rw [h.maxRank_eq] at hf
  rw [h.recorded]
  constructor
  · intro ho
    obtain ⟨hs, hid⟩ := ho f hf
    exact ⟨hs, fun hlong ⟨e', he', f', hf', htake⟩ => hid hlong e' he' f' hf' htake⟩
  · intro ⟨hs, hid⟩ f₀ hf₀
    obtain rfl := Option.some.inj (hf.symm.trans hf₀)
    exact ⟨hs, fun hlong e' he' f' hf' htake => hid hlong ⟨e', he', f', hf', htake⟩⟩

theorem nodup_ids_urbStep (hf : openFrame u.maxRank e.msg = some f) : (ids (urbStep u e).1).Nodup ↔
    (ids u).Nodup ∧ (f.originalId ∉ ids u → f.originalId.take UUID_STR_LEN ∉ ids u) := by
  rw [ids_urbStep hf]
  split_ifs with hmem
  · exact ⟨fun h => ⟨h, fun hn => absurd hmem hn⟩, And.left⟩
  · rw [nodup_append_singleton]
    exact ⟨fun h => ⟨h.2, fun _ => h.1⟩, fun h => ⟨h.2 hmem, h.1⟩⟩

theorem UrbTraced.robust_step (h : UrbTraced maxRank es u relays) (e : Deliver) :
    UrbRobust maxRank (urbStep u e).1 (relays ++ (urbStep u e).2) ↔
      UrbRobust maxRank u relays ∧ UrbOrderly maxRank es e := by
  have hN := h.maxRank_eq
  cases hf : openFrame u.maxRank e.msg with
  | none =>
    rw [urbStep_ignored hf, List.append_nil]
    refine ⟨fun hr => ⟨hr, fun f hf' => ?_⟩, And.left⟩
    rw [← hN, hf] at hf'
    cases hf'
  | some f =>
    have hslot : e.sender ∈ peers maxRank ↔ 0 ≤ e.sender - 1 ∧ e.sender - 1 < maxRank := by
      rw [mem_peers]
      omega
    have hnew := h.not_found f
    rw [urbRobust_iff_acked, urbRobust_iff_acked, nodup_ids_urbStep hf, h.orderly_iff hf, List.map_append, hslot]
    constructor
    · rintro ⟨⟨hids, hfresh⟩, hrelays, hslots⟩
      refine ⟨⟨hids, hrelays.of_append_left, fun i hi => hslots i ((acked_urbStep hf i).mpr (.inl hi))⟩, ?_,
        hnew.mp hfresh⟩
      exact hslots _ ((acked_urbStep hf _).mpr (.inr rfl))
    · rintro ⟨⟨hids, hrelays, hslots⟩, hsender, hfresh⟩
      have hfresh := hnew.mpr hfresh
      refine ⟨⟨hids, hfresh⟩, ?_, fun i hi => ?_⟩
      · change (relays.map (·.originalId) ++ (urbRelay u e).map (·.originalId)).Nodup
        rw [urbRelay_eq hf]
        split_ifs with hrel
        · -- a relay of the same id would have left a record that begins as this one
          refine nodup_append_singleton.mpr ⟨fun hmem => ?_, hrelays⟩
          obtain ⟨f', hf', hid⟩ := List.mem_map.mp hmem
          have hold := h.relayed f' hf'
          rw [show f'.originalId = f.originalId from hid] at hold
          exact hfresh hrel.1 hold
        · rwa [List.map_nil, List.append_nil]
      · rcases (acked_urbStep hf i).mp hi with hi | rfl
        · exact hslots i hi
        · exact hsender

end Run

/-- The three properties hold after a run if and only if every delivery in it was orderly. -/
theorem urb_robust_iff (maxRank : ℕ) (p : ℤ) (es : List Deliver) :
    UrbRobust maxRank (Machine.state urbStep ⟨p, maxRank, []⟩ es) (Machine.outputs urbStep ⟨p, maxRank, []⟩ es) ↔
      ∀ pre e, pre ++ [e] <+: es → UrbOrderly maxRank pre e := by
  have hinit : UrbRobust maxRank ⟨p, maxRank, []⟩ [] :=
    ⟨List.nodup_nil, List.nodup_nil, fun m hm => (List.not_mem_nil hm).elim⟩
  have hrun := @Machine.invariant _ _ _ urbStep ⟨p, maxRank, []⟩ (fun es u relays => UrbTraced maxRank es u relays ∧
    (UrbRobust maxRank u relays ↔ ∀ pre e, pre ++ [e] <+: es → UrbOrderly maxRank pre e))
    ⟨⟨rfl, fun x => by simp [ids], fun f hf => (List.not_mem_nil hf).elim⟩,
      iff_of_true hinit fun pre e h => by simp at h⟩
    (fun es e u relays ⟨htraced, hiff⟩ =>
      ⟨htraced.step e, by rw [htraced.robust_step, hiff, forall_prefix_append_singleton]⟩) es
  exact hrun.2

/-- An id with one character more than a record has room for. -/
def longId : CString := List.replicate (UUID_STR_LEN + 1) 'a'

/-- The same frame comes twice, is recorded twice and relayed twice. -/
theorem urb_relays_again : ¬ ∀ (maxRank : ℕ) (p : ℤ) (es : List Deliver), (∀ e ∈ es, e.sender ∈ peers maxRank) →
    UrbRobust maxRank (Machine.state urbStep ⟨p, maxRank, []⟩ es) (Machine.outputs urbStep ⟨p, maxRank, []⟩ es) := by
  intro h
  have hone := (h 2 1 [⟨bcFrame ⟨2, longId, []⟩, 2⟩, ⟨bcFrame ⟨2, longId, []⟩, 2⟩] (by decide)).one_relay
  exact absurd hone (by decide +kernel)

end DSA

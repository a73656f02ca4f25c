import DistributedAbstractions.Proofs.Forwarding
import DistributedAbstractions.Spec.Urb

/-! What the history of one process of the uniform broadcast says about its table of
received messages: acks are frames heard, each entry was relayed when it was made, and
an entry with a majority of acks has been delivered. -/

namespace DSA

open CLib Net Trans

abbrev UrbProc := Proc Urb Broadcast CString Indication

theorem modify_middle {α : Type} (pre post : List α) (m : α) (g : α → α) :
    (pre ++ m :: post).modify pre.length g = pre ++ g m :: post := by
  induction pre with
  | nil => rfl
  | cons a pre ih => simp [ih]

/-- The place of a frame in the table: the entry that has its id, or a new one at the end,
for which `relay` is sent. -/
inductive Place (u : Urb) (f : Fields) : List SavedMessage → SavedMessage → List SavedMessage →
    UrbEffects → Prop
  | known {pre post : List SavedMessage} {m : SavedMessage} (h : u.received = pre ++ m :: post)
      (hm : m.id = f.originalId) : Place u f pre m post []
  | new (h : ∀ m ∈ u.received, m.id ≠ f.originalId) :
      Place u f u.received (newSavedMessage f) []
        (if f.originalSender ≠ u.localRank then
          urbBroadcastAux u (createRbDelivery f).msg f.originalId f.originalSender else [])

inductive UrbOutcome (u : Urb) (q : ℤ) (M : CString) : Urb → UrbEffects → Prop
  | ignored (h : openFrame u.maxRank M = none) : UrbOutcome u q M u []
  | counted {f : Fields} {pre post : List SavedMessage} {m : SavedMessage} {relay : UrbEffects}
      (hf : openFrame u.maxRank M = some f) (hp : Place u f pre m post relay)
      (hd : m.wasDelivered = true ∨ shouldDeliver u (m.ack q) = false) :
      UrbOutcome u q M { u with received := pre ++ m.ack q :: post } relay
  | delivered {f : Fields} {pre post : List SavedMessage} {m : SavedMessage} {relay : UrbEffects}
      (hf : openFrame u.maxRank M = some f) (hp : Place u f pre m post relay)
      (hd : shouldDeliver u (m.ack q) = true) :
      UrbOutcome u q M
        { u with received := pre ++ { m.ack q with wasDelivered := true } :: post }
        (relay ++ [.indicate ⟨f.originalId, createRbDelivery f⟩])

theorem acknowledge_eq (u : Urb) (pre post : List SavedMessage) (m : SavedMessage) (q : ℤ) (f : Fields) :
    acknowledge { u with received := pre ++ m :: post } pre.length q f =
      if !m.wasDelivered && shouldDeliver u (m.ack q) then
        ({ u with received := pre ++ { m.ack q with wasDelivered := true } :: post },
          [.indicate ⟨f.originalId, createRbDelivery f⟩])
      else ({ u with received := pre ++ m.ack q :: post }, []) := by
  have hget : (pre ++ m.ack q :: post)[pre.length]? = some (m.ack q) := by simp
  simp only [acknowledge, modify_middle, hget]
  rfl

theorem place_of_known {u : Urb} {f : Fields} {i : ℕ}
    (h : u.received.findIdx? (·.id = f.originalId) = some i) :
    ∃ pre m post, u.received = pre ++ m :: post ∧ pre.length = i ∧ m.id = f.originalId := by
  obtain ⟨hlt, hid, -⟩ := List.findIdx?_eq_some_iff_getElem.mp h
  refine ⟨u.received.take i, u.received[i], u.received.drop (i + 1), ?_, ?_, by simpa using hid⟩
  · rw [← List.drop_eq_getElem_cons hlt, List.take_append_drop]
  · rw [List.length_take, Nat.min_eq_left hlt.le]

theorem acknowledge_outcome {u : Urb} {q : ℤ} {M : CString} {f : Fields} {pre post : List SavedMessage}
    {m : SavedMessage} {relay : UrbEffects} (hf : openFrame u.maxRank M = some f)
    (hp : Place u f pre m post relay) :
    UrbOutcome u q M (acknowledge { u with received := pre ++ m :: post } pre.length q f).1
      (relay ++ (acknowledge { u with received := pre ++ m :: post } pre.length q f).2) := by
  rw [acknowledge_eq]
  by_cases hd : (!m.wasDelivered && shouldDeliver u (m.ack q)) = true
  · rw [if_pos hd]
    rw [Bool.and_eq_true] at hd
    exact .delivered hf hp hd.2
  · rw [if_neg hd, List.append_nil]
    rw [Bool.and_eq_true, Bool.not_eq_true', not_and_or, Bool.not_eq_false, Bool.not_eq_true] at hd
    exact .counted hf hp hd

theorem urbCallback_outcome (u : Urb) (q : ℤ) (M : CString) :
    UrbOutcome u q M (urbCallback u ⟨M, q⟩).1 (urbCallback u ⟨M, q⟩).2 := by
  unfold urbCallback
  dsimp only
  split
  · next h => exact .ignored h
  next f hf =>
  split
  · next i hi =>
    obtain ⟨pre, m, post, hsplit, rfl, hid⟩ := place_of_known hi
    have hout := acknowledge_outcome (q := q) hf (.known hsplit hid)
    rwa [← hsplit] at hout
  · next hnone =>
    have hnew : ∀ m ∈ u.received, m.id ≠ f.originalId := by
      simpa using List.findIdx?_eq_none_iff.mp hnone
    exact acknowledge_outcome hf (.new hnew)

theorem urbBroadcastAux_eq (u : Urb) (content id : CString) (o : ℤ) :
    urbBroadcastAux u content id o =
      (ranks u.maxRank).map (.send · (bcFrame ⟨o, id, content⟩)) := by
  rw [urbBroadcastAux, sendLoop_of_ok fun _ _ => rfl]

theorem Place.relay_eq {u : Urb} {f : Fields} {pre post : List SavedMessage} {m : SavedMessage}
    {relay : UrbEffects} (hp : Place u f pre m post relay) {M : CString}
    (hf : openFrame u.maxRank M = some f) : (∀ e ∈ relay, ∃ y, e = .send y (bcFrame f)) ∧
      (u.received = pre ++ m :: post ∨ pre = u.received ∧ post = [] ∧ m = newSavedMessage f ∧
        (f.originalSender ≠ u.localRank → ∀ y ∈ peers u.maxRank, .send y (bcFrame f) ∈ relay)) := by
  cases hp with
  | known h => exact ⟨fun e he => (List.not_mem_nil he).elim, .inl h⟩
  | new h =>
    have hframe : (⟨f.originalSender, f.originalId, (createRbDelivery f).msg⟩ : Fields) = f := by
      rw [openFrame_body hf]
    rw [urbBroadcastAux_eq, hframe]
    split_ifs with ho
    · refine ⟨fun e he => ?_, .inr ⟨rfl, rfl, rfl, fun _ y hy => List.mem_map_of_mem (mem_ranks.mpr hy)⟩⟩
      obtain ⟨y, -, rfl⟩ := List.mem_map.mp he
      exact ⟨y, rfl⟩
    · exact ⟨fun e he => (List.not_mem_nil he).elim, .inr ⟨rfl, rfl, rfl, fun h => absurd h ho⟩⟩

theorem urb_forwards {maxRank : ℕ} {guard : UrbState → Event Unit Broadcast CString → Prop}
    {evs : List (Event Unit Broadcast CString)} {s : UrbState}
    (h : Run (urbSystem maxRank) guard evs s) (p : ℤ) : Forwards some maxRank p (s.proc p) := by
  suffices H : ∃ l : UrbProc, (l.state.localRank = p ∧ l.state.maxRank = maxRank ∧
      Forwards some maxRank p l) ∧ Shadow (s.proc p) l by
    obtain ⟨l, ⟨-, -, hl⟩, hsh⟩ := H
    exact hl.shadow hsh
  refine local_invariant (R := fun p l => l.state.localRank = p ∧ l.state.maxRank = maxRank ∧
    Forwards some maxRank p l) (fun p => ⟨rfl, rfl, fun _ _ hP => by cases hP⟩) ?_ h p
  intro _ s p _ a _ _ _ _ _ ⟨hp, hN, ih⟩
  cases a.input with
  | call e =>
    refine ⟨hp, hN, ih.snoc fun d P hP => .inl ⟨e, mem_broadcasts.mpr ⟨e, by simp, rfl⟩, ?_⟩⟩
    rw [send_mem_sendLoop hP, hp]
    rfl
  | receive q M =>
    have hout := urbCallback_outcome (s.proc p).state q M
    change (urbCallback (s.proc p).state ⟨M, q⟩).1.localRank = p ∧
      (urbCallback (s.proc p).state ⟨M, q⟩).1.maxRank = maxRank ∧
      Forwards some maxRank p ⟨_, (s.proc p).inputs ++ [.receive q M],
        (s.proc p).effects ++ (urbCallback (s.proc p).state ⟨M, q⟩).2, (s.proc p).crashed⟩
    generalize (urbCallback (s.proc p).state ⟨M, q⟩).1 = u' at hout ⊢
    generalize (urbCallback (s.proc p).state ⟨M, q⟩).2 = es at hout ⊢
    have relayed {f : Fields} {pre post : List SavedMessage} {m : SavedMessage} {relay : UrbEffects}
        {d : ℤ} {P : CString} (hf : openFrame (s.proc p).state.maxRank M = some f)
        (hpl : Place (s.proc p).state f pre m post relay) (hP : .send d P ∈ relay) :
        ∃ x P' f, .receive x P' ∈ (s.proc p).inputs ++ [.receive q M] ∧
          openFrame maxRank P' = some f ∧ P = bcFrame f := by
      obtain ⟨y, hy⟩ := (hpl.relay_eq hf).1 _ hP
      cases hy
      exact ⟨q, M, f, by simp, hN ▸ hf, rfl⟩
    cases hout with
    | ignored => exact ⟨hp, hN, ih.snoc fun d P hP => by cases hP⟩
    | counted hf hpl => exact ⟨hp, hN, ih.snoc fun d P hP => .inr (relayed hf hpl hP)⟩
    | delivered hf hpl =>
      exact ⟨hp, hN, ih.snoc fun d P hP => .inr (relayed hf hpl (by simpa using hP))⟩

end DSA

import DistributedAbstractions.Lib.NetFacts
import DistributedAbstractions.Spec.Ble

/-! What the history of one peer of the leader election says about its rounds: in each
round it has left it has complained itself, and heard more than `2 * max_faulty_peers`
complaints. -/

namespace DSA

open CLib Net Trans

abbrev BleProc := Proc Ble Unit CString ByzTrust

theorem complaint_coFrame {r : ℤ} (h : (coFrame r).length + 1 < MAX_MSG_LEN) :
    complaint (coFrame r) = some r := by
  rw [coFrame] at h
  have hlen := length_of_payload h
  have hparse : tryParseMessage (payload CO_CODE (fmtInt r)) CO_CODE = some (fmtInt r) := by
    rw [payload_of_length hlen, tryParseMessage_eq_some]
    exact ⟨List.prefix_append _ _, rfl⟩
  rw [complaint, coFrame, hparse, Option.map_some, atoi_fmtInt]

def bleSends (b : Ble) : BleEffects :=
  ((ranks b.maxRank).filter (· ≠ b.localRank)).map (.send · (coFrame b.round))

theorem mem_bleSends {b : Ble} {e : Effect CString ByzTrust} : e ∈ bleSends b ↔
    ∃ y ∈ peers b.maxRank, y ≠ b.localRank ∧ e = .send y (coFrame b.round) := by
  simp only [bleSends, List.mem_map, List.mem_filter, mem_ranks, decide_eq_true_eq]
  constructor
  · rintro ⟨y, ⟨hy, hne⟩, rfl⟩
    exact ⟨y, hy, hne, rfl⟩
  · rintro ⟨y, hy, hne, rfl⟩
    exact ⟨y, ⟨hy, hne⟩, rfl⟩

/-- What a new complaint makes the peer send: nothing, or its own complaint. -/
inductive Amplified (b : Ble) : Bool → BleEffects → Prop
  | no (h : b.complains.length + 1 ≤ b.maxFaultyPeers ∨ b.complained = true) :
      Amplified b b.complained []
  | yes (h : b.maxFaultyPeers < b.complains.length + 1) : Amplified b true (bleSends b)

inductive BleOutcome (b : Ble) (q : ℤ) (P : CString) : Ble → BleEffects → Prop
  | ignored (h : complaint P = some b.round → ∃ e ∈ b.complains, e.peerRank = q) :
      BleOutcome b q P b []
  | counted {c : Bool} {es : BleEffects} (hP : complaint P = some b.round)
      (hn : ∀ e ∈ b.complains, e.peerRank ≠ q) (ha : Amplified b c es)
      (hlen : b.complains.length + 1 ≤ 2 * b.maxFaultyPeers) :
      BleOutcome b q P { b with complains := b.complains ++ [⟨q, b.round⟩], complained := c } es
  | advanced {c : Bool} {es : BleEffects} (hP : complaint P = some b.round)
      (hn : ∀ e ∈ b.complains, e.peerRank ≠ q) (ha : Amplified b c es)
      (hlen : 2 * b.maxFaultyPeers < b.complains.length + 1) :
      BleOutcome b q P { b with complains := [], round := b.round + 1, complained := false }
        (es ++ [.indicate ⟨(b.round + 1) % b.maxRank + 1⟩])

theorem bleCallback_outcome (b : Ble) (q : ℤ) (P : CString) :
    BleOutcome b q P (bleCallback b ⟨P, q⟩).1 (bleCallback b ⟨P, q⟩).2 := by
  unfold bleCallback
  dsimp only
  split
  · next hnone => exact .ignored fun h => by simp [complaint, hnone] at h
  next body hbody =>
  have hP : complaint P = some (atoi body) := by simp [complaint, hbody]
  by_cases hr : atoi body = b.round
  swap
  · rw [if_pos hr]
    exact .ignored fun h => absurd (Option.some.inj (hP.symm.trans h)) hr
  rw [if_neg (not_not.mpr hr)]
  by_cases hd : b.complains.any (·.peerRank = q) = true
  · rw [if_pos hd]
    exact .ignored fun _ => by simpa using hd
  rw [if_neg hd]
  rw [hr] at hP ⊢
  have hn : ∀ e ∈ b.complains, e.peerRank ≠ q := by simpa using hd
  by_cases ha : (decide ((b.complains ++ [(⟨q, b.round⟩ : ByzComplain)]).length > b.maxFaultyPeers) &&
      !b.complained) = true
  · rw [if_pos ha]
    rw [Bool.and_eq_true, decide_eq_true_eq, List.length_append] at ha
    by_cases hlen : b.complains.length + 1 > 2 * b.maxFaultyPeers
    · rw [if_pos (by simpa [bleComplain] using hlen)]
      exact .advanced hP hn (.yes ha.1) hlen
    · rw [if_neg (by simpa [bleComplain] using hlen)]
      exact .counted hP hn (.yes ha.1) (Nat.le_of_not_lt hlen)
  · rw [if_neg ha]
    rw [Bool.and_eq_true, decide_eq_true_eq, List.length_append, not_and_or, not_lt,
      Bool.not_eq_true', Bool.not_eq_false] at ha
    have hamp : Amplified b b.complained [] := .no ha
    by_cases hlen : b.complains.length + 1 > 2 * b.maxFaultyPeers
    · rw [if_pos (by simpa using hlen)]
      exact .advanced hP hn hamp hlen
    · rw [if_neg (by simpa using hlen)]
      exact .counted hP hn hamp (Nat.le_of_not_lt hlen)

/-- A peer reacts to a complaint only with its own for the same round, and only when the new
one is from somebody else than the ones before and goes beyond `max_faulty_peers`. -/
theorem BleOutcome.send {b b' : Ble} {q : ℤ} {P : CString} {es : BleEffects}
    (h : BleOutcome b q P b' es) {d : ℤ} {M : CString} (hM : .send d M ∈ es) :
    .send d M ∈ bleSends b ∧ complaint P = some b.round ∧ (∀ e ∈ b.complains, e.peerRank ≠ q) ∧
      b.maxFaultyPeers < b.complains.length + 1 := by
  have hamp : ∀ {c es}, Amplified b c es → .send d M ∈ es →
      .send d M ∈ bleSends b ∧ b.maxFaultyPeers < b.complains.length + 1 := by
    intro c es ha hM
    cases ha with
    | no => cases hM
    | yes hlt => exact ⟨hM, hlt⟩
  cases h with
  | ignored => cases hM
  | counted hP hn ha => exact ⟨(hamp ha hM).1, hP, hn, (hamp ha hM).2⟩
  | advanced hP hn ha =>
    have hM := (List.mem_append.mp hM).resolve_right (by simp)
    exact ⟨(hamp ha hM).1, hP, hn, (hamp ha hM).2⟩

/-- `x` is heard with a complaint for round `r`. -/
def HeardComplaint (is : List (Input Unit CString)) (x r : ℤ) : Prop :=
  ∃ P, .receive x P ∈ is ∧ complaint P = some r

/-- Peer `p` has sent its complaint for round `r` to all others. -/
def ToOthers (N : ℕ) (p : ℤ) (es : BleEffects) (r : ℤ) : Prop :=
  ∀ y ∈ peers N, y ≠ p → .send y (coFrame r) ∈ es

structure BleLocal (N f : ℕ) (p : ℤ) (l : BleProc) : Prop where
  localRank : l.state.localRank = p
  maxRank : l.state.maxRank = N
  maxFaultyPeers : l.state.maxFaultyPeers = f
  nonneg : 0 ≤ l.state.round
  few : l.state.complains.length ≤ 2 * f
  nodup : (l.state.complains.map (·.peerRank)).Nodup
  backed : ∀ e ∈ l.state.complains, HeardComplaint l.inputs e.peerRank l.state.round
  sent : ∀ d P, .send d P ∈ l.effects →
    d ≠ p ∧ ∃ r, P = coFrame r ∧ ToOthers N p l.effects r
  complained : l.state.complained = true → ToOthers N p l.effects l.state.round
  left : ∀ r, 0 ≤ r → r < l.state.round → ToOthers N p l.effects r ∧
    ∃ Q : Finset ℤ, 2 * f < Q.card ∧ ∀ x ∈ Q, HeardComplaint l.inputs x r

section Step

variable {N f : ℕ} {p : ℤ} {l : BleProc}

theorem HeardComplaint.mono {is is' : List (Input Unit CString)} (h : is <+: is') {x r : ℤ}
    (hx : HeardComplaint is x r) : HeardComplaint is' x r := by
  obtain ⟨P, hP, hr⟩ := hx
  exact ⟨P, h.subset hP, hr⟩

theorem ToOthers.mono {es es' : BleEffects} (h : es <+: es') {r : ℤ} (hr : ToOthers N p es r) :
    ToOthers N p es' r :=
  fun y hy hne => h.subset (hr y hy hne)

theorem toOthers_bleSends (h : BleLocal N f p l) (pre post : BleEffects) :
    ToOthers N p (pre ++ (bleSends l.state ++ post)) l.state.round := fun y hy hne =>
  List.mem_append_right _ (List.mem_append_left _
    (mem_bleSends.mpr ⟨y, by rwa [h.maxRank], by rwa [h.localRank], rfl⟩))

theorem sent_bleSends (h : BleLocal N f p l) (pre post : BleEffects) {d : ℤ} {P : CString}
    (hP : .send d P ∈ bleSends l.state) :
    d ≠ p ∧ ∃ r, P = coFrame r ∧ ToOthers N p (pre ++ (bleSends l.state ++ post)) r := by
  obtain ⟨y, -, hne, hy⟩ := mem_bleSends.mp hP
  cases hy
  exact ⟨by rwa [h.localRank] at hne, _, rfl, toOthers_bleSends h pre post⟩

theorem bleLocal_init : BleLocal N f p ⟨⟨[], 0, false, N, p, f⟩, [], [], false⟩ where
  localRank := rfl
  maxRank := rfl
  maxFaultyPeers := rfl
  nonneg := le_rfl
  few := Nat.zero_le _
  nodup := List.nodup_nil
  backed _ h := (List.not_mem_nil h).elim
  sent _ _ h := (List.not_mem_nil h).elim
  complained h := absurd h Bool.false_ne_true
  left _ h0 h1 := absurd h1 (not_lt.mpr h0)

theorem BleLocal.sent_append (h : BleLocal N f p l) {es : BleEffects} (hnew : ∀ d P, .send d P ∈ es →
    d ≠ p ∧ ∃ r, P = coFrame r ∧ ToOthers N p (l.effects ++ es) r) : ∀ d P, .send d P ∈ l.effects ++ es →
      d ≠ p ∧ ∃ r, P = coFrame r ∧ ToOthers N p (l.effects ++ es) r := by
  intro d P hP
  rcases List.mem_append.mp hP with hP | hP
  · obtain ⟨hne, r, hr, hall⟩ := h.sent d P hP
    exact ⟨hne, r, hr, hall.mono (List.prefix_append _ _)⟩
  · exact hnew d P hP

theorem BleLocal.left_append (h : BleLocal N f p l) (i : Input Unit CString) (es : BleEffects) :
    ∀ r, 0 ≤ r → r < l.state.round → ToOthers N p (l.effects ++ es) r ∧
      ∃ Q : Finset ℤ, 2 * f < Q.card ∧ ∀ x ∈ Q, HeardComplaint (l.inputs ++ [i]) x r := by
  intro r h0 hr
  obtain ⟨hall, Q, hQ, hheard⟩ := h.left r h0 hr
  exact ⟨hall.mono (List.prefix_append _ _), Q, hQ, fun x hx => (hheard x hx).mono (List.prefix_append _ _)⟩

theorem BleLocal.call (h : BleLocal N f p l) :
    BleLocal N f p (l.perform (bleProtocol N f) () (.call ())) := by
  change BleLocal N f p ⟨{ l.state with complained := true }, l.inputs ++ [.call ()],
    l.effects ++ bleSends l.state, l.crashed⟩
  have hnew : ToOthers N p (l.effects ++ bleSends l.state) l.state.round := by
    have hto := toOthers_bleSends h l.effects []
    rwa [List.append_nil] at hto
  refine ⟨h.localRank, h.maxRank, h.maxFaultyPeers, h.nonneg, h.few, h.nodup,
    fun e hem => (h.backed e hem).mono (List.prefix_append _ _), h.sent_append fun d P hP => ?_,
    fun _ => hnew, h.left_append _ _⟩
  obtain ⟨y, -, hne, hy⟩ := mem_bleSends.mp hP
  cases hy
  exact ⟨by rwa [h.localRank] at hne, _, rfl, hnew⟩

theorem Amplified.sent {c : Bool} {es : BleEffects} (ha : Amplified l.state c es)
    (h : BleLocal N f p l) (post : BleEffects) {d : ℤ} {P : CString} (hP : .send d P ∈ es) :
    d ≠ p ∧ ∃ r, P = coFrame r ∧ ToOthers N p (l.effects ++ (es ++ post)) r := by
  cases ha with
  | no => cases hP
  | yes => exact sent_bleSends h _ post hP

theorem Amplified.toOthers {c : Bool} {es : BleEffects} (ha : Amplified l.state c es)
    (h : BleLocal N f p l) (post : BleEffects) (hc : c = true ∨ f < l.state.complains.length + 1) :
    ToOthers N p (l.effects ++ (es ++ post)) l.state.round := by
  cases ha with
  | no hno =>
    refine (h.complained ?_).mono (List.prefix_append _ _)
    rw [h.maxFaultyPeers] at hno
    exact hc.elim id fun hlt => hno.resolve_left (by omega)
  | yes => exact toOthers_bleSends h _ post

theorem BleLocal.heard_all (h : BleLocal N f p l) {q : ℤ} {P : CString}
    (hP : complaint P = some l.state.round) (hn : ∀ e ∈ l.state.complains, e.peerRank ≠ q) :
    ((l.state.complains ++ [(⟨q, l.state.round⟩ : ByzComplain)]).map (·.peerRank)).Nodup ∧
      ∀ e ∈ l.state.complains ++ [(⟨q, l.state.round⟩ : ByzComplain)],
        HeardComplaint (l.inputs ++ [.receive q P]) e.peerRank l.state.round := by
  refine ⟨?_, fun e he => ?_⟩
  · exact nodup_map_append_singleton.mpr ⟨h.nodup, hn⟩
  · rcases List.mem_append.mp he with he | he
    · exact (h.backed e he).mono (List.prefix_append _ _)
    · rw [List.mem_singleton.mp he]
      exact ⟨P, by simp, hP⟩

theorem BleLocal.complainers (h : BleLocal N f p l) {q : ℤ} {P : CString}
    (hP : complaint P = some l.state.round) (hn : ∀ e ∈ l.state.complains, e.peerRank ≠ q) :
    ∃ Q : Finset ℤ, Q.card = l.state.complains.length + 1 ∧
      ∀ x ∈ Q, HeardComplaint (l.inputs ++ [.receive q P]) x l.state.round := by
  obtain ⟨hnodup, hheard⟩ := h.heard_all hP hn
  refine ⟨((l.state.complains ++ [(⟨q, l.state.round⟩ : ByzComplain)]).map (·.peerRank)).toFinset, ?_,
    fun x hx => ?_⟩
  · rw [List.toFinset_card_of_nodup hnodup]
    simp
  · obtain ⟨e, he, rfl⟩ := List.mem_map.mp (List.mem_toFinset.mp hx)
    exact hheard e he

theorem BleLocal.receive (h : BleLocal N f p l) (q : ℤ) (P : CString) :
    BleLocal N f p (l.perform (bleProtocol N f) () (.receive q P)) := by
  have hout := bleCallback_outcome l.state q P
  change BleLocal N f p ⟨(bleCallback l.state ⟨P, q⟩).1, l.inputs ++ [.receive q P],
    l.effects ++ (bleCallback l.state ⟨P, q⟩).2, l.crashed⟩
  generalize (bleCallback l.state ⟨P, q⟩).1 = b at hout ⊢
  generalize (bleCallback l.state ⟨P, q⟩).2 = es at hout ⊢
  cases hout with
  | ignored =>
    exact ⟨h.localRank, h.maxRank, h.maxFaultyPeers, h.nonneg, h.few, h.nodup,
      fun e he => (h.backed e he).mono (List.prefix_append _ _),
      h.sent_append fun _ _ hP => (List.not_mem_nil hP).elim,
      fun hc => (h.complained hc).mono (List.prefix_append _ _), h.left_append _ _⟩
  | counted hP hn ha hlen =>
    obtain ⟨hnodup, hheard⟩ := h.heard_all hP hn
    rw [h.maxFaultyPeers] at hlen
    have hto := fun hc => ha.toOthers h [] (.inl hc)
    have hnew := fun d P hP => ha.sent h [] (d := d) (P := P) hP
    simp only [List.append_nil] at hto hnew
    exact ⟨h.localRank, h.maxRank, h.maxFaultyPeers, h.nonneg, by simpa using hlen, hnodup, hheard,
      h.sent_append hnew, hto, h.left_append _ _⟩
  | advanced hP hn ha hlen =>
    obtain ⟨Q, hcard, hQ⟩ := h.complainers hP hn
    rw [h.maxFaultyPeers] at hlen
    refine ⟨h.localRank, h.maxRank, h.maxFaultyPeers, h.nonneg.trans (Int.le_add_one le_rfl),
      Nat.zero_le _, List.nodup_nil,
      fun e he => (List.not_mem_nil he).elim, h.sent_append fun d P hP => ?_,
      fun hc => absurd hc Bool.false_ne_true, fun r h0 hr => ?_⟩
    · exact ha.sent h _ (by simpa using hP)
    · rcases lt_or_eq_of_le (Int.lt_add_one_iff.mp hr) with hr | rfl
      · exact h.left_append _ _ r h0 hr
      · exact ⟨ha.toOthers h _ (.inr (by omega)), Q, by omega, hQ⟩

end Step

theorem ble_local {N f : ℕ} {F : Setting CString} {guard : BleState → BleEvent → Prop}
    {evs : List BleEvent} {s : BleState} (hF : F.crashes = false)
    (h : Run (system (bleProtocol N f) F) guard evs s) (p : ℤ) : BleLocal N f p (s.proc p) := by
  refine local_invariant_of_live (R := BleLocal N f) (fun _ => bleLocal_init) ?_ h (not_crashed hF h p)
  intro _ s p _ a _ _ _ _ _ ih
  cases a.input with
  | call => exact ih.call
  | receive q P => exact ih.receive q P

end DSA

import DistributedAbstractions.Lib.NetFacts
import DistributedAbstractions.Spec.SendErrors

/-! What a broadcast leaves in the outbox of the stubborn link when `sendto` fails: copies for the
ranks up to the first error, and none for those behind it. -/

namespace DSA

open CLib Net

section Reached

variable {ω : Type} {ok : ℤ → Bool} {msg : CString} {rs : List ℤ}

theorem reached_cons_of_ok {r : ℤ} (h : ok r = true) (rs : List ℤ) : reached ok (r :: rs) = r :: reached ok rs := by
  simp [reached, h]

theorem reached_cons_of_failed {r : ℤ} (h : ok r = false) (rs : List ℤ) : reached ok (r :: rs) = [r] := by
  simp [reached, h]

theorem prefix_of_reached (ok : ℤ → Bool) (rs : List ℤ) : reached ok rs <+: rs := by
  unfold reached
  nth_rewrite 3 [← @List.takeWhile_append_dropWhile _ ok rs]
  exact (List.prefix_append_right_inj _).mpr (List.take_prefix _ _)

theorem reached_eq_nil : reached ok rs = [] ↔ rs = [] := by
  cases rs with
  | nil => simp [reached]
  | cons r rs =>
    cases h : ok r with
    | true => simp [reached_cons_of_ok h]
    | false => simp [reached_cons_of_failed h]

theorem reached_eq_self : reached ok rs = rs ↔ ∀ r ∈ rs.dropLast, ok r = true := by
  induction rs with
  | nil => simp [reached]
  | cons r rs ih =>
    cases rs with
    | nil => cases h : ok r <;> simp [reached, h]
    | cons r' rs =>
      rw [List.dropLast_cons_cons, List.forall_mem_cons]
      cases h : ok r with
      | true => rw [reached_cons_of_ok h, List.cons.injEq, ih]; simp
      | false => simp [reached_cons_of_failed h]

theorem sendLoop_eq : (sendLoop ok msg rs : List (Effect CString ω) × ℤ) =
    ((reached ok rs).map (.send · msg), if rs.all ok then 0 else -1) := by
  induction rs with
  | nil => rfl
  | cons r rs ih =>
    unfold sendLoop
    cases h : ok r with
    | true => simp [ih, h, reached_cons_of_ok h]
    | false => simp [h, reached_cons_of_failed h]

end Reached

/-- A link that keeps `copy e` for a message `e`, whether or not it can be sent at once. -/
structure Keeps (w : Conditions) (send : PeerLink → Send → PeerLink × ℤ) (copy : Send → Send) : Prop where
  outbox : ∀ link e, (send link e).1.outbox = link.outbox ++ [copy e]
  sent : ∀ link e, (send link e).1.sent = link.sent ++ if w.ok e.recipient then [copy e] else []
  status : ∀ link e, (send link e).2 = if w.ok e.recipient then 0 else -1

theorem keeps_sblSend (w : Conditions) : Keeps w w.sblSend fun e => e := by
  constructor <;> intro link e <;> unfold Conditions.sblSend Conditions.fllSend <;> split_ifs <;> simp

theorem keeps_plSend (w : Conditions) : Keeps w w.plSend fun e => plSend (w.uuid e.recipient) e where
  outbox link e := (keeps_sblSend w).outbox link (plSend (w.uuid e.recipient) e)
  sent link e := (keeps_sblSend w).sent link (plSend (w.uuid e.recipient) e)
  status link e := (keeps_sblSend w).status link (plSend (w.uuid e.recipient) e)

theorem keeps_aplSend (w : Conditions) (F : Keyring) (p : ℤ) :
    Keeps w (w.aplSend F p) fun e => plSend (w.uuid e.recipient) (aplSend F p e) where
  outbox link e := (keeps_plSend w).outbox link (aplSend F p e)
  sent link e := (keeps_plSend w).sent link (aplSend F p e)
  status link e := (keeps_plSend w).status link (aplSend F p e)

section SendToRanks

variable {w : Conditions} {send : PeerLink → Send → PeerLink × ℤ} {copy : Send → Send} {failed : ℤ → ℤ}

/-- The outbox gets a copy of each packet that the loop of the network model puts on its way, and the
calls return the same. -/
theorem sendToRanks_sendLoop (hkeeps : Keeps w send copy) (hfailed : failed (-1) = -1) (p : ℤ) (msg : CString)
    (rs : List ℤ) (link : PeerLink) :
    (sendToRanks send failed msg rs link).1.outbox = link.outbox ++
        (packets p (sendLoop w.ok msg rs : List (Effect CString Unit) × ℤ).1).map (fun k => copy ⟨k.msg, k.dst⟩) ∧
      (sendToRanks send failed msg rs link).2 = (sendLoop w.ok msg rs : List (Effect CString Unit) × ℤ).2 := by
  induction rs generalizing link with
  | nil => exact ⟨(List.append_nil _).symm, rfl⟩
  | cons r rs ih =>
    have houtbox := hkeeps.outbox link ⟨msg, r⟩
    have hstatus := hkeeps.status link ⟨msg, r⟩
    unfold sendToRanks sendLoop
    cases h : w.ok r with
    | true =>
      rw [h, if_pos rfl] at hstatus
      obtain ⟨hout, hret⟩ := ih (send link ⟨msg, r⟩).1
      simp only [hstatus, ne_eq, not_true_eq_false, if_false, if_true]
      refine ⟨?_, hret⟩
      rw [hout, houtbox, List.append_assoc]
      rfl
    | false =>
      rw [h, if_neg Bool.false_ne_true] at hstatus
      simp only [hstatus, ne_eq, neg_eq_zero, one_ne_zero, not_false_eq_true, if_true, Bool.false_eq_true, if_false]
      exact ⟨houtbox, hfailed⟩

theorem sendToRanks_sent (hkeeps : Keeps w send copy) (failed : ℤ → ℤ) (msg : CString) (rs : List ℤ)
    (link : PeerLink) :
    (sendToRanks send failed msg rs link).1.sent = link.sent ++ (rs.takeWhile w.ok).map fun r => copy ⟨msg, r⟩ := by
  induction rs generalizing link with
  | nil => exact (List.append_nil _).symm
  | cons r rs ih =>
    have hsent := hkeeps.sent link ⟨msg, r⟩
    have hstatus := hkeeps.status link ⟨msg, r⟩
    unfold sendToRanks
    cases h : w.ok r with
    | true =>
      rw [h, if_pos rfl] at hsent hstatus
      simp only [hstatus, ne_eq, not_true_eq_false, if_false]
      rw [ih, hsent, List.takeWhile_cons_of_pos h, List.map_cons, List.append_assoc]
      rfl
    | false =>
      rw [h, if_neg Bool.false_ne_true] at hsent hstatus
      simp only [hstatus, ne_eq, neg_eq_zero, one_ne_zero, not_false_eq_true, if_true]
      rw [hsent, List.takeWhile_cons_of_neg (by simp [h])]
      rfl

theorem sendToRanks_outbox (hkeeps : Keeps w send copy) (hfailed : failed (-1) = -1) (msg : CString)
    (rs : List ℤ) (link : PeerLink) :
    (sendToRanks send failed msg rs link).1.outbox =
        link.outbox ++ (reached w.ok rs).map (fun r => copy ⟨msg, r⟩) ∧
      (sendToRanks send failed msg rs link).2 = if rs.all w.ok then 0 else -1 := by
  obtain ⟨houtbox, hstatus⟩ := sendToRanks_sendLoop hkeeps hfailed 0 msg rs link
  rw [houtbox, hstatus, sendLoop_eq, packets_map_send, List.map_map]
  exact ⟨rfl, rfl⟩

end SendToRanks

section Calls

variable (w : Conditions) (maxRank : ℕ) (c : BroadcastCall) (link : PeerLink)

/-- Each of the calls keeps copies for the ranks that its loop gets to, in their order. -/
theorem BroadcastCall.perform_outbox :
    (c.perform w maxRank link).1.outbox = link.outbox ++ (reached w.ok (ranks maxRank)).map (c.copy w) ∧
      (c.perform w maxRank link).2 = if (ranks maxRank).all w.ok then 0 else -1 := by
  cases c with
  | beb e => exact sendToRanks_outbox (keeps_plSend w) rfl _ _ link
  | rb content originalId originalSender => exact sendToRanks_outbox (keeps_plSend w) rfl _ _ link
  | brb F p msg code => exact sendToRanks_outbox (keeps_aplSend w F p) rfl _ _ link

theorem BroadcastCall.perform_sent :
    (c.perform w maxRank link).1.sent = link.sent ++ ((ranks maxRank).takeWhile w.ok).map (c.copy w) := by
  cases c with
  | beb e => exact sendToRanks_sent (keeps_plSend w) _ _ _ link
  | rb content originalId originalSender => exact sendToRanks_sent (keeps_plSend w) _ _ _ link
  | brb F p msg code => exact sendToRanks_sent (keeps_aplSend w F p) _ _ _ link

theorem mem_dropLast_ranks {n : ℕ} {r : ℤ} : r ∈ (ranks n).dropLast ↔ 1 ≤ r ∧ r < n := by
  cases n with
  | zero =>
    simp only [ranks, List.range_zero, List.map_nil, List.dropLast_nil, List.not_mem_nil, false_iff]
    omega
  | succ n =>
    have hlast : ranks (n + 1) = ranks n ++ [(n : ℤ) + 1] := by
      simp only [ranks, List.range_succ, List.map_append, List.map_cons, List.map_nil]
    rw [hlast, List.dropLast_concat, mem_ranks, mem_peers]
    push_cast
    omega

theorem all_or_nothing_iff : AllOrNothing w maxRank c link ↔ ∀ r : ℤ, 1 ≤ r → r < maxRank → w.ok r = true := by
  have hall : (reached w.ok (ranks maxRank) = ranks maxRank) ↔ ∀ r : ℤ, 1 ≤ r → r < maxRank → w.ok r = true := by
    simp only [reached_eq_self, mem_dropLast_ranks, and_imp]
  obtain ⟨houtbox, -⟩ := c.perform_outbox w maxRank link
  rw [← hall, AllOrNothing, houtbox, List.append_right_inj, List.append_right_eq_self]
  constructor
  · rintro (hcopies | ⟨-, hnone⟩)
    · have hlen := congrArg List.length hcopies
      rw [List.length_map, List.length_map] at hlen
      exact (prefix_of_reached w.ok _).eq_of_length hlen
    · -- a loop that keeps nothing has no ranks to go through
      have hnil := List.map_eq_nil_iff.mp hnone
      rw [hnil, reached_eq_nil.mp hnil]
  · intro hself
    exact .inl (by rw [hself])

end Calls

/-- Two peers, and nothing can be sent to the first. -/
def firstFails : Conditions := ⟨fun _ => ['i', 'd'], fun r => r ≠ 1⟩

/-- The second peer gets no copy, and the first keeps its own. -/
theorem half_a_broadcast_kept : ¬ ∀ w maxRank c link, AllOrNothing w maxRank c link := by
  intro h
  exact absurd (h firstFails 2 (.beb ⟨['h', 'i'], []⟩) ⟨[], []⟩) (by decide)

end DSA

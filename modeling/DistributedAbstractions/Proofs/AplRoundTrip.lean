import DistributedAbstractions.Proofs.RoundTrip

/-! The authenticated link from `apl_send` to the callback of the recipient. Every formatter on the way may
cut the message, which then does not verify or is not the one that was sent. -/

namespace DSA

open CLib Inbox

theorem hexVal_digitChar : ∀ n < 16, hexVal (Nat.digitChar n) = some n := by decide

theorem digitChar_stops : ∀ n < 16, Nat.digitChar n ≠ ',' ∧ Nat.digitChar n ≠ NUL := by decide

theorem hexPairs_bin2hex {bin : List ℕ} (h : ∀ b ∈ bin, b < 256) : hexPairs (sodiumBin2hex bin) = some bin := by
  induction bin with
  | nil => rfl
  | cons b bin ih =>
    have hb : b < 256 := h b (by simp)
    have hbin := ih fun b hb => h b (by simp [hb])
    simp only [sodiumBin2hex, List.flatMap_cons, List.cons_append, List.nil_append, hexPairs] at hbin ⊢
    rw [hexVal_digitChar _ (by omega), hexVal_digitChar _ (by omega), hbin]
    simp
    omega

theorem length_bin2hex (bin : List ℕ) : (sodiumBin2hex bin).length = 2 * bin.length := by
  simp [sodiumBin2hex, List.length_flatMap, Nat.mul_comm]

theorem mem_bin2hex {bin : List ℕ} (h : ∀ b ∈ bin, b < 256) {c : Char} (hc : c ∈ sodiumBin2hex bin) :
    c ≠ ',' ∧ c ≠ NUL := by
  obtain ⟨b, hb, hc⟩ := List.mem_flatMap.mp hc
  have hlt := h b hb
  simp only [List.mem_cons, List.not_mem_nil, or_false] at hc
  rcases hc with rfl | rfl
  · exact digitChar_stops _ (by omega)
  · exact digitChar_stops _ (by omega)

section

variable {verify : ℤ → List ℕ → CString → Bool} {maxRank : ℕ} {sig : List ℕ} {m : CString}
  (hlen : sig.length = crypto_sign_BYTES) (hbyte : ∀ b ∈ sig, b < 256)
include hlen hbyte

theorem aplWrapper_frame (sender : ℤ) {stale : List ℕ} (hstale : stale.length ≤ crypto_sign_BYTES) :
    aplWrapper verify maxRank stale ⟨sodiumBin2hex sig ++ ',' :: m, sender⟩ =
      if (1 ≤ sender ∧ sender ≤ maxRank) ∧ m ≠ [] ∧ verify sender sig m = true then .callback ⟨m, sender⟩
      else .returned := by
  have hcomma : strcspn (sodiumBin2hex sig ++ ',' :: m) ',' = (sodiumBin2hex sig).length :=
    strcspn_append (fun h => (mem_bin2hex hbyte h).1 rfl) m
  have hhex : (sodiumBin2hex sig).length = 128 := by
    rw [length_bin2hex, hlen]
    rfl
  have hmax : MAX_MSG_LEN = 1024 := rfl
  have hbin : sodiumHex2bin crypto_sign_BYTES (sodiumBin2hex sig) = some sig := by
    rw [sodiumHex2bin, hexPairs_bin2hex hbyte, Option.filter_some, if_pos (by simp [hlen])]
  have hwhole : sig ++ stale.drop sig.length = sig := by
    rw [List.drop_eq_nil_of_le (by omega), List.append_nil]
  have hempty : (sodiumBin2hex sig).length + DELIM_LEN ≥ (sodiumBin2hex sig ++ ',' :: m).length ↔ m = [] := by
    rw [List.length_append, List.length_cons, DELIM_LEN, ← List.length_eq_zero_iff]
    omega
  unfold aplWrapper
  dsimp only
  rw [hcomma, if_neg (by omega), List.take_left, hbin, drop_field]
  dsimp only
  rw [hwhole]
  by_cases hrank : 1 ≤ sender ∧ sender ≤ maxRank
  · rw [if_neg (by omega)]
    by_cases hm : m = []
    · rw [if_pos (hempty.mpr hm), if_neg (fun h => h.2.1 hm)]
    · rw [if_neg (mt hempty.mp hm)]
      by_cases hver : verify sender sig m = true
      · rw [if_pos hver, if_pos ⟨hrank, hm, hver⟩]
      · rw [if_neg hver, if_neg (fun h => hver h.2.2)]
  · rw [if_pos (by omega), if_neg (fun h => hrank h.1)]

theorem reading_frame {rank : ℤ} {uuid : CString} {r : Received} (hrank : IsRank rank) (huuid : IsUuid uuid)
    (hnul : NUL ∉ uuid ++ m) (hstale : r.sig.length ≤ crypto_sign_BYTES)
    (hbytes : r.bytes.take (MAX_MSG_LEN - 1) = plFrame rank uuid (sodiumBin2hex sig ++ ',' :: m)) :
    reading verify maxRank r =
      if (1 ≤ atoi (fmtInt rank ++ r.id) ∧ atoi (fmtInt rank ++ r.id) ≤ maxRank) ∧ m ≠ [] ∧
          verify (atoi (fmtInt rank ++ r.id)) sig m = true then
        .accepted (djb2 (snprintf MAX_MSG_LEN (fmtInt (atoi (fmtInt rank ++ r.id)) ++ uuid)))
          ⟨m, atoi (fmtInt rank ++ r.id)⟩
      else .rejected (djb2 (snprintf MAX_MSG_LEN (fmtInt (atoi (fmtInt rank ++ r.id)) ++ uuid))) := by
  obtain ⟨hshort, hcomma⟩ := huuid
  have h37 : UUID_STR_LEN = 37 := rfl
  have hmsg : NUL ∉ uuid ++ ',' :: (sodiumBin2hex sig ++ ',' :: m) := by
    rw [List.mem_append, not_or] at hnul
    simp only [List.mem_append, List.mem_cons, not_or]
    exact ⟨hnul.1, by decide, fun h => (mem_bin2hex hbyte h).2 rfl, by decide, hnul.2⟩
  have hid (sender : ℤ) : idLen ⟨uuid ++ ',' :: (sodiumBin2hex sig ++ ',' :: m), sender⟩ = uuid.length :=
    strcspn_append hcomma _
  have hroom : ¬ (uuid ++ ',' :: (sodiumBin2hex sig ++ ',' :: m)).length < 2 * (uuid.length + DELIM_LEN) := by
    simp only [List.length_append, List.length_cons, length_bin2hex, hlen, DELIM_LEN, crypto_sign_BYTES]
    omega
  unfold reading
  rw [consumeMsg_frame hrank hmsg hbytes]
  generalize atoi (fmtInt rank ++ r.id) = sender
  dsimp only
  rw [plHash, hid, if_neg (by omega), if_neg hroom, List.take_left, drop_field, aplWrapper_frame hlen hbyte sender hstale]
  split_ifs <;> rfl

end

/-- The frame as the receiver reads it: whatever is cut off is missing at the end of the message. -/
theorem read_aplSend {F : Keyring} {p : ℤ} {uuid : CString} (w : Socket) (outbox : List Send) (e : Send)
    (hlen : (F.sign p e.msg).length = crypto_sign_BYTES) (hp : IsRank p) (huuid : IsUuid uuid) :
    ∃ m, m <+: e.msg ∧ (m = e.msg ↔ (aplFrame F p uuid e.msg).length < MAX_MSG_LEN) ∧
      (w.aplSend F p uuid outbox e).2.bytes.take (MAX_MSG_LEN - 1) =
        plFrame p uuid (sodiumBin2hex (F.sign p e.msg) ++ ',' :: m) := by
  have hrank := hp.length_fmtInt
  have hid := huuid.1
  have h10 : FLL_ID_LEN = 10 := rfl
  have h37 : UUID_STR_LEN = 37 := rfl
  have hmax : MAX_MSG_LEN = 1024 := rfl
  have h64 : crypto_sign_BYTES = 64 := rfl
  have hhex := length_bin2hex (F.sign p e.msg)
  obtain ⟨n, hn⟩ : ∃ n, MAX_MSG_LEN - 1 = (plFrame p uuid (sodiumBin2hex (F.sign p e.msg) ++ [','])).length + n := by
    apply Nat.exists_eq_add_of_le
    simp only [plFrame, List.length_append, List.length_cons, List.length_nil]
    omega
  have hframe (m : CString) : plFrame p uuid (sodiumBin2hex (F.sign p e.msg) ++ ',' :: m) =
      plFrame p uuid (sodiumBin2hex (F.sign p e.msg) ++ [',']) ++ m := by
    simp [plFrame]
  refine ⟨e.msg.take n, List.take_prefix _ _, ?_, ?_⟩
  · rw [List.take_eq_self_iff, aplFrame, hframe, List.length_append]
    omega
  · have hcut : (w.aplSend F p uuid outbox e).2.bytes.take (MAX_MSG_LEN - 1) =
        (aplFrame F p uuid e.msg).take (MAX_MSG_LEN - 1) := by
      rw [Socket.aplSend, w.read_plSend, aplFrame]
      have h := snprintf_append (fmtInt p ++ ',' :: (uuid ++ [',']))
        (sodiumBin2hex (F.sign p e.msg) ++ ',' :: e.msg) MAX_MSG_LEN
      simpa [plFrame, aplSend, snprintf] using h
    rw [hcut, aplFrame, hframe, hn, List.take_length_add_append, ← hframe]

section

variable {F : Keyring} {p : ℤ} {uuid : CString} {outbox : List Send} {e : Send} {r : Received} {l : AplLink}

theorem apl_round_trip_iff (w : Socket) (hF : F.Lawful) (hmax : F.maxRank ≤ INT_MAX) (hp : p ∈ peers F.maxRank)
    (huuid : IsUuid uuid) (hnul : NUL ∉ uuid ++ e.msg) (hstale : r.sig.length ≤ crypto_sign_BYTES)
    (hsent : r.bytes = (w.aplSend F p uuid outbox e).2.bytes) (hrun : l.running = true)
    (hfirst : djb2 (snprintf MAX_MSG_LEN (fmtInt p ++ uuid)) ∉ l.inbox) :
    ((w.aplSend F p uuid outbox e).2.status = 0 →
        (aplConsume F.verify F.maxRank l r).delivered = l.delivered ++ [⟨e.msg, p⟩]) ↔
      w.ok = false ∨ ((aplFrame F p uuid e.msg).length < MAX_MSG_LEN ∧ e.msg ≠ [] ∧
        ∀ c ∈ r.id.head?, ¬ c.isDigit) := by
  obtain ⟨hpos, hle⟩ := mem_peers.mp hp
  have hrank : IsRank p := ⟨hpos, by omega⟩
  have hstatus : (w.aplSend F p uuid outbox e).2.status = 0 ↔ w.ok = true := by
    change (if w.ok then (0 : ℤ) else -1) = 0 ↔ w.ok = true
    cases w.ok <;> simp
  obtain ⟨m, hpre, hwhole, hbytes⟩ := read_aplSend w outbox e (hF.length_sign p e.msg) hrank huuid
  have hnul' : NUL ∉ uuid ++ m := by
    rw [List.mem_append, not_or] at hnul ⊢
    exact ⟨hnul.1, fun h => hnul.2 (hpre.subset h)⟩
  have hread := @reading_frame F.verify F.maxRank _ m (hF.length_sign p e.msg) (hF.byte p e.msg) _ _ r hrank huuid
    hnul' hstale (hsent ▸ hbytes)
  rw [hstatus, aplConsume_eq, read_delivered, List.append_cancel_left_eq, hread, ← hwhole, ← hrank.atoi_eq_iff]
  generalize atoi (fmtInt p ++ r.id) = sender
  cases w.ok with
  | false => simp
  | true =>
    simp only [forall_const, Bool.true_eq_false, false_or]
    constructor
    · intro hout
      split_ifs at hout with hok
      · unfold Receiver.output at hout
        dsimp only at hout
        split_ifs at hout
        obtain ⟨rfl, rfl⟩ := Deliver.mk.inj (List.singleton_inj.mp hout)
        exact ⟨rfl, hok.2.1, rfl⟩
      · cases hout
    · rintro ⟨rfl, hne, rfl⟩
      rw [if_pos ⟨⟨hpos, hle⟩, hne, hF.verify_sign _ _⟩, Receiver.output, if_pos ⟨hrun, hfirst⟩]

end

/-- Two peers with a checksum for a signature. -/
def checksumKeys : Keyring where
  maxRank := 2
  byz := ∅
  sign p m := List.replicate crypto_sign_BYTES ((m.foldl (fun n c => 3 * n + c.toNat) p.toNat) % 256)
  verify p sig m := sig = List.replicate crypto_sign_BYTES ((m.foldl (fun n c => 3 * n + c.toNat) p.toNat) % 256)

theorem lawful_checksumKeys : checksumKeys.Lawful where
  length_sign _ _ := List.length_replicate
  byte p m b hb := by
    rw [List.eq_of_mem_replicate hb]
    exact Nat.mod_lt _ (by decide)
  verify_sign _ _ := decide_eq_true rfl

/-- The datagram in which peer 1 sends `msg` to peer 2. -/
def checksummed (msg : CString) : Received where
  bytes := ((⟨[], true⟩ : Socket).aplSend checksumKeys 1 (List.replicate 36 'f') [] ⟨msg, 2⟩).2.bytes
  buf := []
  id := [NUL]
  sig := []

theorem bytes_checksummed (msg : CString) : (checksummed msg).bytes =
    ((⟨[], true⟩ : Socket).aplSend checksumKeys 1 (List.replicate 36 'f') [] ⟨msg, 2⟩).2.bytes := rfl

theorem apl_round_trip_hi :
    (aplConsume checksumKeys.verify 2 empty (checksummed ['h', 'i'])).delivered = [⟨['h', 'i'], 1⟩] := by
  refine (@apl_round_trip_iff checksumKeys 1 (List.replicate 36 'f') [] ⟨['h', 'i'], 2⟩ (checksummed ['h', 'i']) empty
    ⟨[], true⟩ lawful_checksumKeys (by decide) (by decide) (by decide) (by decide) (by decide) (bytes_checksummed _) rfl
    List.not_mem_nil).mpr (.inr ⟨by decide +kernel, by decide, ?_⟩) rfl
  intro c hc
  obtain rfl := Option.some.inj hc
  decide

/-- An empty message is signed and sent, and dropped by the recipient. -/
theorem apl_round_trip_fails : ¬ ∀ (w : Socket) (F : Keyring) p uuid outbox (e : Send) (r : Received) (l : AplLink),
    F.Lawful → F.maxRank ≤ INT_MAX → p ∈ peers F.maxRank → IsUuid uuid → NUL ∉ uuid ++ e.msg → e.msg.length < MAX_MSG_LEN →
    r.sig.length ≤ crypto_sign_BYTES → r.bytes = (w.aplSend F p uuid outbox e).2.bytes → l.running = true →
    djb2 (snprintf MAX_MSG_LEN (fmtInt p ++ uuid)) ∉ l.inbox → (w.aplSend F p uuid outbox e).2.status = 0 →
      (aplConsume F.verify F.maxRank l r).delivered = l.delivered ++ [⟨e.msg, p⟩] := by
  intro h
  have hempty := h ⟨[], true⟩ checksumKeys 1 (List.replicate 36 'f') [] ⟨[], 2⟩ (checksummed []) empty lawful_checksumKeys
    (by decide) (by decide) (by decide) (by decide) (by decide) (by decide) (bytes_checksummed _) rfl List.not_mem_nil rfl
  have hread := @reading_frame checksumKeys.verify checksumKeys.maxRank (checksumKeys.sign 1 []) [] List.length_replicate
    (lawful_checksumKeys.byte 1 []) 1 (List.replicate 36 'f') (checksummed []) (by decide) (by decide) (by decide)
    (by decide) (by decide +kernel)
  rw [if_neg (fun h => h.2.1 rfl)] at hread
  rw [aplConsume_eq, hread, read_delivered] at hempty
  cases hempty

end DSA

import DistributedAbstractions.Proofs.ForgedTraffic

/-! The decoder says how many bytes it has written, and the wrapper does not look: with a short signature
in a message, the check sees what the buffer held before. -/

namespace DSA

open CLib Inbox

theorem length_of_hexPairs {hex : CString} {bin : List ℕ} (h : hexPairs hex = some bin) :
    hex.length = 2 * bin.length := by
  induction hex using hexPairs.induct generalizing bin with
  | case1 =>
    cases h
    rfl
  | case2 c => cases h
  | case3 a b hex ih =>
    simp only [hexPairs, Option.bind_eq_bind, Option.bind_eq_some_iff, Option.pure_def, Option.some_inj] at h
    obtain ⟨x, -, y, -, rest, hrest, rfl⟩ := h
    rw [List.length_cons, List.length_cons, List.length_cons, ih hrest]
    omega

theorem hexPairs_isSome (hex : CString) :
    (hexPairs hex).isSome ↔ hex.length % 2 = 0 ∧ ∀ c ∈ hex, (hexVal c).isSome := by
  induction hex using hexPairs.induct with
  | case1 => simp [hexPairs]
  | case2 c => simp [hexPairs]
  | case3 a b hex ih =>
    have hpairs : (hexPairs (a :: b :: hex)).isSome ↔
        (hexVal a).isSome ∧ (hexVal b).isSome ∧ (hexPairs hex).isSome := by
      simp only [hexPairs]
      cases hexVal a with
      | none => simp
      | some x =>
        cases hexVal b with
        | none => simp
        | some y => cases hexPairs hex <;> simp
    have hlen : (a :: b :: hex).length % 2 = hex.length % 2 := by
      rw [List.length_cons, List.length_cons]
      omega
    rw [hpairs, ih, hlen, List.forall_mem_cons, List.forall_mem_cons]
    exact ⟨fun ⟨ha, hb, he, hs⟩ => ⟨he, ha, hb, hs⟩, fun ⟨he, ha, hb, hs⟩ => ⟨ha, hb, he, hs⟩⟩

theorem exists_hex2bin_iff {hex : CString} (n : ℕ) :
    (∃ bin, sodiumHex2bin crypto_sign_BYTES hex = some bin ∧ bin.length < n) ↔
      (∀ c ∈ hex, (hexVal c).isSome) ∧ hex.length % 2 = 0 ∧ hex.length < 2 * n ∧
        hex.length ≤ 2 * crypto_sign_BYTES := by
  constructor
  · rintro ⟨bin, hbin, hlt⟩
    obtain ⟨hpairs, hle⟩ := Option.filter_eq_some_iff.mp hbin
    obtain ⟨heven, hdigits⟩ := (hexPairs_isSome hex).mp (by rw [hpairs]; rfl)
    have hlen := length_of_hexPairs hpairs
    have hle' : bin.length ≤ crypto_sign_BYTES := of_decide_eq_true hle
    exact ⟨hdigits, heven, by omega, by omega⟩
  · rintro ⟨hdigits, heven, hlt, hle⟩
    obtain ⟨bin, hpairs⟩ := Option.isSome_iff_exists.mp ((hexPairs_isSome hex).mpr ⟨heven, hdigits⟩)
    have hlen := length_of_hexPairs hpairs
    refine ⟨bin, ?_, by omega⟩
    rw [sodiumHex2bin, hpairs, Option.filter_some, if_pos (decide_eq_true (by omega))]

section

variable {maxRank : ℕ} {e : Deliver} {bin : List ℕ} (hbin : sodiumHex2bin crypto_sign_BYTES (sigField e) = some bin)
  (verify : ℤ → List ℕ → CString → Bool)
include hbin

theorem aplWrapper_of_bin (sig : List ℕ) : aplWrapper verify maxRank sig e =
    if (1 ≤ e.sender ∧ e.sender ≤ maxRank) ∧ sigField e ≠ [] ∧ (sigField e).length + DELIM_LEN < e.msg.length ∧
        verify e.sender (bin ++ sig.drop bin.length) (e.msg.drop ((sigField e).length + DELIM_LEN)) = true then
      .callback ⟨e.msg.drop ((sigField e).length + DELIM_LEN), e.sender⟩
    else .returned := by
  have hfield : strcspn e.msg ',' = (sigField e).length := by
    rw [sigField, List.length_take, Nat.min_eq_left (strcspn_le _ _)]
  have hmax : MAX_MSG_LEN = 1024 := rfl
  have h64 : crypto_sign_BYTES = 64 := rfl
  have hlen : (sigField e).length ≤ 2 * crypto_sign_BYTES := by
    have h := (exists_hex2bin_iff (bin.length + 1)).mp ⟨bin, hbin, Nat.lt_succ_self _⟩
    exact h.2.2.2
  unfold aplWrapper
  dsimp only
  rw [← sigField, hbin, hfield]
  dsimp only
  by_cases hne : sigField e = []
  · rw [if_pos (.inl (by rw [hne]; rfl)), if_neg (fun h => h.2.1 hne)]
  have hpos := List.length_pos_iff.mpr hne
  rw [if_neg (by omega)]
  by_cases hrank : 1 ≤ e.sender ∧ e.sender ≤ maxRank
  · rw [if_neg (by omega)]
    by_cases hroom : (sigField e).length + DELIM_LEN < e.msg.length
    · rw [if_neg (by omega)]
      by_cases hver : verify e.sender (bin ++ sig.drop bin.length)
          (e.msg.drop ((sigField e).length + DELIM_LEN)) = true
      · rw [if_pos hver, if_pos ⟨hrank, hne, hroom, hver⟩]
      · rw [if_neg hver, if_neg (fun h => hver h.2.2.2)]
    · rw [if_pos (by omega), if_neg (fun h => hroom h.2.2.1)]
  · rw [if_pos (by omega), if_neg (fun h => hrank h.1)]

end

theorem aplWrapper_of_no_bin {verify : ℤ → List ℕ → CString → Bool} {maxRank : ℕ} {sig : List ℕ} {e : Deliver}
    (h : sodiumHex2bin crypto_sign_BYTES (sigField e) = none) : aplWrapper verify maxRank sig e = .returned := by
  unfold aplWrapper
  dsimp only
  rw [← sigField, h]
  split_ifs <;> rfl

/-- The check is a function of the whole buffer, so that one byte of it can decide. -/
theorem unstale_iff (maxRank : ℕ) (e : Deliver) :
    Unstale maxRank e ↔ ¬ ((1 ≤ e.sender ∧ e.sender ≤ maxRank) ∧ ShortSignature e) := by
  have h64 : crypto_sign_BYTES = 64 := rfl
  constructor
  · rintro h ⟨hrank, hne, hdigits, heven, hlt, hroom⟩
    obtain ⟨bin, hbin, hshort⟩ := (exists_hex2bin_iff crypto_sign_BYTES).mpr ⟨hdigits, heven, hlt, hlt.le⟩
    have hrej := h.short_rejected bin hbin hshort (fun _ _ _ => true) (List.replicate crypto_sign_BYTES 0)
      List.length_replicate
    rw [aplWrapper_of_bin hbin, if_pos ⟨hrank, hne, hroom, rfl⟩] at hrej
    cases hrej
  · intro h
    have hfull : ∀ bin, sodiumHex2bin crypto_sign_BYTES (sigField e) = some bin → bin.length < crypto_sign_BYTES →
        ∀ verify sig, aplWrapper verify maxRank sig e = .returned := by
      intro bin hbin hlt verify sig
      obtain ⟨hdigits, heven, hlen, -⟩ := (exists_hex2bin_iff crypto_sign_BYTES).mp ⟨bin, hbin, hlt⟩
      rw [aplWrapper_of_bin hbin, if_neg]
      rintro ⟨hrank, hne, hroom, -⟩
      exact h ⟨hrank, hne, hdigits, heven, hlen, hroom⟩
    refine ⟨fun verify sig sig' hsig hsig' => ?_, fun bin hbin hlt verify sig _ => hfull bin hbin hlt verify sig⟩
    cases hbin : sodiumHex2bin crypto_sign_BYTES (sigField e) with
    | none => rw [aplWrapper_of_no_bin hbin, aplWrapper_of_no_bin hbin]
    | some bin =>
      by_cases hlt : bin.length < crypto_sign_BYTES
      · rw [hfull bin hbin hlt, hfull bin hbin hlt]
      · have hdrop : sig.drop bin.length = [] := List.drop_eq_nil_of_le (by omega)
        have hdrop' : sig'.drop bin.length = [] := List.drop_eq_nil_of_le (by omega)
        rw [aplWrapper_of_bin hbin, aplWrapper_of_bin hbin, hdrop, hdrop']

/-- One byte `0xaa` stands for a signature: whether peer 1 is taken to have signed `hi` depends on what
was checked before. -/
theorem stale_signature : ¬ ∀ maxRank e, Unstale maxRank e := by
  intro h
  have hbin : sodiumHex2bin crypto_sign_BYTES (sigField ⟨['a', 'a', ',', 'h', 'i'], 1⟩) = some [0xaa] := by decide
  have hsame := (h 2 ⟨['a', 'a', ',', 'h', 'i'], 1⟩).same_decision onlyHi (List.replicate crypto_sign_BYTES 0xaa)
    (List.replicate crypto_sign_BYTES 0) List.length_replicate List.length_replicate
  rw [aplWrapper_of_bin hbin, aplWrapper_of_bin hbin, if_pos (by decide), if_neg (by decide)] at hsame
  cases hsame

end DSA

import DistributedAbstractions.Proofs.BrbLocal
import DistributedAbstractions.Spec.BrbSystem
import DistributedAbstractions.Lib.Quorum

/-! The quorum argument of the Byzantine broadcast. A body is certified when a
quorum of peers, as far as they are correct, has sent ECHO for it. In runs that count
no peer twice every READY of a correct peer is for a certified body, and at most one
body is certified. -/

namespace DSA

open CLib Net Trans

def voters (list : List ReadyEntry) (body : CString) : Finset ℤ :=
  ((list.filter (·.msg = body)).map (·.peerRank)).toFinset

theorem mem_voters {list : List ReadyEntry} {body : CString} {q : ℤ} :
    q ∈ voters list body ↔ ⟨q, body⟩ ∈ list := by
  simp only [voters, List.mem_toFinset, List.mem_map, List.mem_filter, decide_eq_true_eq]
  constructor
  · rintro ⟨⟨_, _⟩, ⟨he, rfl⟩, rfl⟩; exact he
  · exact fun h => ⟨_, ⟨h, rfl⟩, rfl⟩

theorem card_voters {list : List ReadyEntry} (h : (list.map (·.peerRank)).Nodup) (body : CString) :
    (voters list body).card = getCount list body := by
  have hn : ((list.filter (·.msg = body)).map (·.peerRank)).Nodup :=
    h.sublist (List.filter_sublist.map _)
  rw [voters, List.toFinset_card_of_nodup hn, List.length_map, getCount, List.countP_eq_length_filter]

theorem exists_entry_of_count {list : List ReadyEntry} {body : CString}
    (h : 0 < getCount list body) : ∃ q, ⟨q, body⟩ ∈ list := by
  obtain ⟨⟨q, b⟩, he, hb⟩ := List.countP_pos_iff.mp h
  obtain rfl : b = body := by simpa using hb
  exact ⟨q, he⟩

theorem seen_snoc_nodup {list : List ReadyEntry} {q : ℤ} {body : CString}
    (h : (list.map (·.peerRank)).Nodup) (hs : seen list q = false) (ho : overlooked list q = false) :
    ((list ++ [(⟨q, body⟩ : ReadyEntry)]).map (·.peerRank)).Nodup := by
  simp only [overlooked, hs, Bool.not_false, Bool.and_true, List.any_eq_false, decide_eq_true_eq] at ho
  exact nodup_map_append_singleton.mpr ⟨h, ho⟩

section

variable {ρ : Type} {ok : ρ → ℤ → Bool} {config : BrbConfig} {byz : Finset ℤ}
  {guard : BrbState → Event ρ CString CString → Prop}
  {evs : List (Event ρ CString CString)} {s s' : BrbState}

theorem SentCode.mono (hg : Grows s s') {p : ℤ} {c m : CString} (h : SentCode s p c m) :
    SentCode s' p c m := by
  obtain ⟨d, P, hP, hm⟩ := h
  exact ⟨d, P, (hg.effects p).subset hP, hm⟩

theorem sentCode_of_said {p : ℤ} {c m P : CString} (h : s.said p P = true)
    (hm : tryParseMessage P c = some m) : SentCode s p c m := by
  obtain ⟨d, hd⟩ := said_iff.mp h
  exact ⟨d, P, hd, hm⟩

theorem SentCode.mem_codeSends {p : ℤ} {c m : CString} (h : SentCode s p c m) :
    ∃ d P, .send d P ∈ codeSends c (s.proc p).effects ∧ tryParseMessage P c = some m := by
  obtain ⟨d, P, hP, hm⟩ := h
  exact ⟨d, P, DSA.mem_codeSends.mpr ⟨hP, by simp [hm]⟩, hm⟩

theorem brb_local_of_run (h : Run (brbSystem ok config byz) guard evs s) (p : ℤ) :
    BrbLocal ok config (s.proc p) := by
  obtain ⟨l, hl, hsh⟩ := brb_local h p
  exact hsh.2.2 (not_crashed rfl h p) ▸ hl

theorem OneRound.unique {l : BrbProc} {flag : Bool} {code : CString} {cause : CString → Prop}
    (h : OneRound ok l flag code cause) {d d' : ℤ} {P P' : CString}
    (hP : .send d P ∈ codeSends code l.effects) (hP' : .send d' P' ∈ codeSends code l.effects) :
    P = P' := by
  rcases h with ⟨-, hn⟩ | ⟨-, r, b, -, hs⟩
  · rw [hn] at hP; cases hP
  · rw [hs] at hP hP'
    exact (send_mem_sendLoop hP).trans (send_mem_sendLoop hP').symm

theorem SentCode.unique {p : ℤ} {code m m' : CString} {flag : Bool} {cause : CString → Prop}
    (hr : OneRound ok (s.proc p) flag code cause) (h : SentCode s p code m)
    (h' : SentCode s p code m') : m = m' := by
  obtain ⟨d, P, hP, hm⟩ := h.mem_codeSends
  obtain ⟨d', P', hP', hm'⟩ := h'.mem_codeSends
  obtain rfl := hr.unique hP hP'
  exact Option.some.inj (hm.symm.trans hm')

/-- An input under `code` of a ranked peer, with a body short enough to be passed on,
and sent under `code` if that peer is correct. -/
def Genuine (byz : Finset ℤ) (maxRank : ℕ) (s : BrbState) (q : ℤ) (code m : CString) : Prop :=
  q ∈ peers maxRank ∧ code.length + m.length + 1 < MAX_MSG_LEN ∧ (q ∉ byz → SentCode s q code m)

theorem Sourced.genuine {p q : ℤ} {P c m : CString} (hc : c ∈ codes)
    (hP : tryParseMessage P c = some m) (h : Sourced (aplSetting config.maxRank byz) s p q P) :
    Genuine byz config.maxRank s q c m := by
  have hlen := tryParseMessage_length hP
  have hpre := (tryParseMessage_eq_some.mp hP).1.length_le
  have h2 := length_of_mem_codes hc
  have hcar : P.length + 3 < MAX_MSG_LEN := length_of_carried h.carried
  have hD : DELIM_LEN = 1 := rfl
  refine ⟨mem_peers.mpr (rank_iff.mp h.rank), by omega, fun hq => ?_⟩
  exact sentCode_of_said (h.said.resolve_left hq) hP

theorem Backed.genuine {l : BrbProc} {p : ℤ} {c : CString} (hc : c ∈ codes) {list : List ReadyEntry}
    (hb : Backed l.inputs c list)
    (hin : ∀ q P, .receive q P ∈ l.inputs → Sourced (aplSetting config.maxRank byz) s p q P) {q : ℤ}
    {m : CString} (he : ⟨q, m⟩ ∈ list) : Genuine byz config.maxRank s q c m := by
  obtain ⟨P, hP, hm⟩ := hb _ he
  exact Sourced.genuine hc hm (hin _ _ hP)

theorem echos_genuine (h : Run (brbSystem ok config byz) guard evs s) {p q : ℤ} {m : CString}
    (he : ⟨q, m⟩ ∈ (s.proc p).state.echos) : Genuine byz config.maxRank s q ECHO_CODE m :=
  (brb_local_of_run h p).echo_entry.genuine echo_mem_codes (fun _ _ hq => receive_inv h hq) he

theorem readys_genuine (h : Run (brbSystem ok config byz) guard evs s) {p q : ℤ} {m : CString}
    (he : ⟨q, m⟩ ∈ (s.proc p).state.readys) : Genuine byz config.maxRank s q READY_CODE m :=
  (brb_local_of_run h p).ready_entry.genuine ready_mem_codes (fun _ _ hq => receive_inv h hq) he

theorem short_of_count {l : List ReadyEntry} {code m : CString} {k : ℕ} (hc : code ∈ codes)
    (hl : ∀ {q m}, ⟨q, m⟩ ∈ l → Genuine byz config.maxRank s q code m) (h : k < getCount l m) :
    READY_CODE.length + m.length + 1 < MAX_MSG_LEN := by
  obtain ⟨q, hq⟩ := exists_entry_of_count (Nat.zero_lt_of_lt h)
  have hlen := (hl hq).2.1
  rwa [length_of_mem_codes hc] at hlen

theorem readyCause_of_sent (h : Run (brbSystem ok config byz) guard evs s) {p : ℤ} {m : CString}
    (hm : SentCode s p READY_CODE m) : ReadyCause (s.proc p) m := by
  obtain ⟨d, P, hP, hpm⟩ := hm.mem_codeSends
  rcases (brb_local_of_run h p).ready_round with ⟨-, hn⟩ | ⟨-, r, b, hb, hs⟩
  · rw [hn] at hP; cases hP
  · rw [hs] at hP
    obtain rfl := send_mem_sendLoop hP
    have hlen : READY_CODE.length + b.length + 1 < MAX_MSG_LEN :=
      hb.elim (fun h' => short_of_count echo_mem_codes (echos_genuine h) h')
        (fun h' => short_of_count ready_mem_codes (readys_genuine h) h')
    obtain rfl : b = m := by
      rw [payload_of_length hlen, tryParseMessage_eq_some] at hpm
      exact hpm.2.symm
    exact hb

variable (hguard : ∀ s e, guard s e → ScanComplete s e)
include hguard

theorem entries_nodup (h : Run (brbSystem ok config byz) guard evs s) (p : ℤ) :
    ((s.proc p).state.echos.map (·.peerRank)).Nodup ∧
      ((s.proc p).state.readys.map (·.peerRank)).Nodup := by
  refine local_invariant_of_live (R := fun _ l => (l.state.echos.map (·.peerRank)).Nodup ∧
    (l.state.readys.map (·.peerRank)).Nodup) (fun _ => ⟨List.nodup_nil, List.nodup_nil⟩) ?_ h
    (not_crashed rfl h p)
  intro evs s p r a stop _ _ _ hok ⟨he, hr⟩
  have hscan := hguard _ _ hok
  simp only [ScanComplete] at hscan
  cases hi : a.input with
  | call m => exact ⟨he, hr⟩
  | receive q P =>
    rw [hi] at hscan
    have hout := brbCallback_outcome (ok r) (s.proc p).state q P
    change ((brbCallback (s.proc p).state (ok r) ⟨P, q⟩).1.echos.map (·.peerRank)).Nodup ∧
      ((brbCallback (s.proc p).state (ok r) ⟨P, q⟩).1.readys.map (·.peerRank)).Nodup
    generalize (brbCallback (s.proc p).state (ok r) ⟨P, q⟩).1 = b' at hout ⊢
    generalize (brbCallback (s.proc p).state (ok r) ⟨P, q⟩).2 = es at hout
    cases hout with
    | ignored => exact ⟨he, hr⟩
    | echoed => exact ⟨he, hr⟩
    | echoCounted body hP hn => exact ⟨seen_snoc_nodup he hn (hscan.1 (by simp [hP])), hr⟩
    | echoQuorum body hP hn => exact ⟨seen_snoc_nodup he hn (hscan.1 (by simp [hP])), hr⟩
    | delivered body hP hn => exact ⟨he, seen_snoc_nodup hr hn (hscan.2 (by simp [hP]))⟩
    | amplified body hP hn => exact ⟨he, seen_snoc_nodup hr hn (hscan.2 (by simp [hP]))⟩
    | readyCounted body hP hn => exact ⟨he, seen_snoc_nodup hr hn (hscan.2 (by simp [hP]))⟩

theorem ready_voters (h : Run (brbSystem ok config byz) guard evs s) {p : ℤ} {m : CString} {k : ℕ}
    (hk : k < getCount (s.proc p).state.readys m) :
    ∃ Q ⊆ peers config.maxRank, k < Q.card ∧ ∀ q ∈ Q, q ∉ byz → SentCode s q READY_CODE m := by
  refine ⟨voters (s.proc p).state.readys m, fun q hq => ?_, ?_, fun q hq => ?_⟩
  · exact (readys_genuine h (mem_voters.mp hq)).1
  · rwa [card_voters (entries_nodup hguard h p).2]
  · exact (readys_genuine h (mem_voters.mp hq)).2.2

end

/-- A quorum of peers has sent ECHO for `m`, if one believes those in `byz`. -/
def Certified (config : BrbConfig) (byz : Finset ℤ) (s : BrbState) (m : CString) : Prop :=
  ∃ Q ⊆ peers config.maxRank, quorumSize config.maxRank config.maxFaultyNodes < Q.card ∧
    ∀ q ∈ Q, q ∉ byz → SentCode s q ECHO_CODE m

section

variable {ρ : Type} {ok : ρ → ℤ → Bool} {config : BrbConfig} {byz : Finset ℤ}
  {guard : BrbState → Event ρ CString CString → Prop}
  {evs : List (Event ρ CString CString)} {s s' : BrbState}

theorem Certified.mono (hg : Grows s s') {m : CString} (h : Certified config byz s m) :
    Certified config byz s' m := by
  obtain ⟨Q, hQ, hc, hs⟩ := h
  exact ⟨Q, hQ, hc, fun q hq hb => (hs q hq hb).mono hg⟩

theorem Certified.unique (hbyz : byz.card ≤ config.maxFaultyNodes)
    (hq : config.maxRank + config.maxFaultyNodes <
      2 * (quorumSize config.maxRank config.maxFaultyNodes + 1))
    (hr : Run (brbSystem ok config byz) guard evs s) {m m' : CString}
    (h : Certified config byz s m) (h' : Certified config byz s m') : m = m' := by
  obtain ⟨Q, hQ, hc, hs⟩ := h
  obtain ⟨Q', hQ', hc', hs'⟩ := h'
  obtain ⟨x, hx, hx', hxb⟩ := Quorum.exists_good_inter hQ hQ' hbyz (by rw [card_peers]; omega)
  exact (hs x hx hxb).unique (brb_local_of_run hr x).echo_round (hs' x hx' hxb)

variable (hguard : ∀ s e, guard s e → ScanComplete s e) (hbyz : byz.card ≤ config.maxFaultyNodes)
include hguard hbyz

/-- The first READY of a correct peer for a body comes from an echo quorum, and every
later one needs an earlier one of a correct peer. -/
theorem certified_of_ready (h : Run (brbSystem ok config byz) guard evs s) {p : ℤ} {m : CString}
    (hm : SentCode s p READY_CODE m) : Certified config byz s m := by
  revert p m
  refine h.state_invariant
    (I := fun s => ∀ {p m}, SentCode s p READY_CODE m → Certified config byz s m) ?_ ?_
  · rintro p m ⟨d, P, hP, -⟩
    cases hP
  intro evs s e s' hrun ih hok hn p m hm
  have hg := grows_next hn
  have hrun' : Run (brbSystem ok config byz) guard _ s' := .snoc hrun hok hn
  by_cases hold : SentCode s p READY_CODE m
  · exact (ih hold).mono hg
  have hl := brb_local_of_run hrun' p
  rcases readyCause_of_sent hrun' hm with hc | hc
  · refine ⟨voters (s'.proc p).state.echos m, fun q hq => ?_, ?_, fun q hq => ?_⟩
    · exact (echos_genuine hrun' (mem_voters.mp hq)).1
    · rw [card_voters (entries_nodup hguard hrun' p).1, ← hl.maxRank, ← hl.maxFaultyNodes]
      exact hc
    · exact (echos_genuine hrun' (mem_voters.mp hq)).2.2
  · -- the entries `p` has counted were sent before this step
    have hin : ∀ q P, .receive q P ∈ (s'.proc p).inputs →
        Sourced (aplSetting config.maxRank byz) s p q P :=
      fun q P hP => sourced_of_next hrun hn (receive_inv hrun) hP
    have hcard : config.maxFaultyNodes < (voters (s'.proc p).state.readys m).card := by
      rw [card_voters (entries_nodup hguard hrun' p).2, ← hl.maxFaultyNodes]
      exact hc
    obtain ⟨x, hx, hxb⟩ := Quorum.exists_good hbyz hcard
    have hx' := hl.ready_entry.genuine ready_mem_codes hin (mem_voters.mp hx)
    exact (ih (hx'.2.2 hxb)).mono hg

theorem certified_of_indication (h : Run (brbSystem ok config byz) guard evs s) {p : ℤ} {d : Deliver}
    (hd : d ∈ indications (s.proc p).effects) : Certified config byz s d.msg := by
  have hl := brb_local_of_run h p
  rcases hl.indicated with ⟨-, hn⟩ | ⟨-, d', hi, hc⟩
  · rw [hn] at hd; cases hd
  · rw [hi, List.mem_singleton] at hd
    subst hd
    obtain ⟨Q, -, hQ, hs⟩ := ready_voters hguard h hc
    obtain ⟨x, hx, hxb⟩ := Quorum.exists_good (Q := Q) hbyz (by rw [hl.maxFaultyNodes] at hQ; omega)
    exact certified_of_ready hguard hbyz h (hs x hx hxb)

end

end DSA

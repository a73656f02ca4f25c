import DistributedAbstractions.Proofs.BrbLocal

/-! What the history of one peer of the Byzantine broadcast obliges it to have done:
inputs are counted, and counts above a threshold have had their effect. -/

namespace DSA

open CLib Net Trans

/-- Every peer heard under `code` has an entry. -/
def Counted (is : List (Input CString CString)) (code : CString) (list : List ReadyEntry) : Prop :=
  ∀ q P, .receive q P ∈ is → (tryParseMessage P code).isSome = true → ∃ b, ⟨q, b⟩ ∈ list

structure BrbProgress (l : BrbProc) : Prop where
  echoed : ∀ P, .receive l.state.senderRank P ∈ l.inputs →
    (tryParseMessage P SEND_CODE).isSome = true → l.state.sentEcho = true
  echo_counted : Counted l.inputs ECHO_CODE l.state.echos
  ready_counted : Counted l.inputs READY_CODE l.state.readys
  quorum : ∀ b, quorumSize l.state.maxRank l.state.maxFaultyNodes < getCount l.state.echos b →
    l.state.sentReady = true
  amplified : 0 < l.state.maxFaultyNodes → ∀ b, l.state.maxFaultyNodes < getCount l.state.readys b →
    l.state.sentReady = true
  delivered : ∀ b, 2 * l.state.maxFaultyNodes < getCount l.state.readys b → l.state.delivered = true

theorem exists_of_seen {list : List ReadyEntry} {q : ℤ} (h : seen list q = true) :
    ∃ b, ⟨q, b⟩ ∈ list := by
  simp only [seen, List.any_eq_true, decide_eq_true_eq] at h
  obtain ⟨⟨_, b⟩, he, rfl⟩ := h
  exact ⟨b, List.mem_of_mem_drop he⟩

theorem parse_other {c c' P body : CString} (hc : c ∈ codes) (hc' : c' ∈ codes) (hne : c ≠ c')
    (h : tryParseMessage P c = some body) : (tryParseMessage P c').isSome = false := by
  have hlen : c.length = c'.length := (length_of_mem_codes hc).trans (length_of_mem_codes hc').symm
  rw [tryParseMessage_eq_none hlen hne h]
  rfl

theorem other_codes_of_send {P body : CString} (h : tryParseMessage P SEND_CODE = some body) :
    (tryParseMessage P ECHO_CODE).isSome = false ∧ (tryParseMessage P READY_CODE).isSome = false :=
  ⟨parse_other send_mem_codes echo_mem_codes codes_ne.1 h,
    parse_other send_mem_codes ready_mem_codes codes_ne.2.1 h⟩

theorem other_codes_of_echo {P body : CString} (h : tryParseMessage P ECHO_CODE = some body) :
    (tryParseMessage P SEND_CODE).isSome = false ∧ (tryParseMessage P READY_CODE).isSome = false :=
  ⟨parse_other echo_mem_codes send_mem_codes codes_ne.1.symm h,
    parse_other echo_mem_codes ready_mem_codes codes_ne.2.2 h⟩

theorem other_codes_of_ready {P body : CString} (h : tryParseMessage P READY_CODE = some body) :
    (tryParseMessage P SEND_CODE).isSome = false ∧ (tryParseMessage P ECHO_CODE).isSome = false :=
  ⟨parse_other ready_mem_codes send_mem_codes codes_ne.2.1.symm h,
    parse_other ready_mem_codes echo_mem_codes codes_ne.2.2.symm h⟩

section Step

variable {is : List (Input CString CString)} {code P body : CString} {list : List ReadyEntry} {q : ℤ}

theorem Counted.call (h : Counted is code list) (m : CString) : Counted (is ++ [.call m]) code list := by
  intro q P hP
  exact h q P (by simpa using hP)

theorem Counted.receive {list' : List ReadyEntry} (h : Counted is code list) (hsub : list <+: list')
    (hnew : (tryParseMessage P code).isSome = true → ∃ b, ⟨q, b⟩ ∈ list') :
    Counted (is ++ [.receive q P]) code list' := by
  intro q' P' hP' hs
  rcases List.mem_append.mp hP' with hP' | hP'
  · obtain ⟨b, hb⟩ := h q' P' hP' hs
    exact ⟨b, hsub.subset hb⟩
  · cases List.mem_singleton.mp hP'
    exact hnew hs

theorem Counted.receive_other (h : Counted is code list)
    (hnew : (tryParseMessage P code).isSome = false) : Counted (is ++ [.receive q P]) code list :=
  h.receive (List.prefix_refl _) fun hs => by rw [hnew] at hs; cases hs

theorem Counted.receive_new (h : Counted is code list) :
    Counted (is ++ [.receive q P]) code (list ++ [⟨q, body⟩]) :=
  h.receive (List.prefix_append _ _) fun _ => ⟨body, by simp⟩

theorem count_rule {k : ℕ} {flag flag' : Bool} (h : ∀ b, k < getCount list b → flag = true)
    (hmono : flag = true → flag' = true)
    (hnew : k < getCount (list ++ [⟨q, body⟩]) body → flag' = true) :
    ∀ b, k < getCount (list ++ [⟨q, body⟩]) b → flag' = true := by
  intro b hb
  by_cases hbody : body = b
  · subst hbody; exact hnew hb
  · rw [getCount_snoc_ne hbody] at hb
    exact hmono (h b hb)

variable {ρ : Type} {ok : ρ → ℤ → Bool} {config : BrbConfig} {l : BrbProc}

theorem BrbProgress.call (h : BrbProgress l) (r : ρ) (m : CString) :
    BrbProgress (l.perform (brbProtocol ok config) r (.call m)) :=
  ⟨fun P hP => h.echoed P (by simpa [Proc.perform, brbProtocol] using hP), h.echo_counted.call m,
    h.ready_counted.call m, h.quorum, h.amplified, h.delivered⟩

theorem echoed_mono {b : Brb} (h : BrbProgress l) (hq : b.senderRank = l.state.senderRank)
    (hs : l.state.sentEcho = true → b.sentEcho = true)
    (hP : (tryParseMessage P SEND_CODE).isSome = true → q = l.state.senderRank → b.sentEcho = true) :
    ∀ P', .receive b.senderRank P' ∈ l.inputs ++ [.receive q P] →
      (tryParseMessage P' SEND_CODE).isSome = true → b.sentEcho = true := by
  intro P' hP' hsome
  rw [hq] at hP'
  rcases List.mem_append.mp hP' with hP' | hP'
  · exact hs (h.echoed P' hP' hsome)
  · obtain ⟨rfl, rfl⟩ : l.state.senderRank = q ∧ P' = P := by simpa using hP'
    exact hP hsome rfl

theorem BrbProgress.receive (h : BrbProgress l) (r : ρ) (q : ℤ) (P : CString) :
    BrbProgress (l.perform (brbProtocol ok config) r (.receive q P)) := by
  have hout := brbCallback_outcome (ok r) l.state q P
  change BrbProgress ⟨(brbCallback l.state (ok r) ⟨P, q⟩).1, l.inputs ++ [.receive q P],
    l.effects ++ (brbCallback l.state (ok r) ⟨P, q⟩).2, l.crashed⟩
  generalize (brbCallback l.state (ok r) ⟨P, q⟩).1 = b' at hout ⊢
  generalize (brbCallback l.state (ok r) ⟨P, q⟩).2 = es at hout ⊢
  have absent {b : Bool} {p : Prop} (h0 : b = false) (h1 : b = true) : p := by rw [h0] at h1; cases h1
  cases hout with
  | ignored hs he hr =>
    refine ⟨echoed_mono h rfl id fun hP hq => ?_,
      h.echo_counted.receive (List.prefix_refl _) fun hP => ?_,
      h.ready_counted.receive (List.prefix_refl _) fun hP => ?_, h.quorum, h.amplified, h.delivered⟩
    · obtain ⟨body, hb⟩ := Option.isSome_iff_exists.mp hP
      exact (hs body hb).resolve_right (not_not.mpr hq)
    · obtain ⟨body, hb⟩ := Option.isSome_iff_exists.mp hP
      exact exists_of_seen (he body hb)
    · obtain ⟨body, hb⟩ := Option.isSome_iff_exists.mp hP
      exact exists_of_seen (hr body hb)
  | echoed body hP =>
    obtain ⟨hecho, hready⟩ := other_codes_of_send hP
    exact ⟨fun _ _ _ => rfl, h.echo_counted.receive_other hecho, h.ready_counted.receive_other hready,
      h.quorum, h.amplified, h.delivered⟩
  | echoCounted body hP hn hc =>
    obtain ⟨hsend, hready⟩ := other_codes_of_echo hP
    exact ⟨echoed_mono h rfl id (absent hsend), h.echo_counted.receive_new,
      h.ready_counted.receive_other hready, count_rule h.quorum id fun hlt => hc.resolve_left hlt.not_ge,
      h.amplified, h.delivered⟩
  | echoQuorum body hP hn hc hs =>
    obtain ⟨hsend, hready⟩ := other_codes_of_echo hP
    exact ⟨echoed_mono h rfl id (absent hsend), h.echo_counted.receive_new,
      h.ready_counted.receive_other hready, fun _ _ => rfl, fun _ _ _ => rfl, h.delivered⟩
  | delivered body hP hn hc hd =>
    obtain ⟨hsend, hecho⟩ := other_codes_of_ready hP
    refine ⟨echoed_mono h rfl id (absent hsend), h.echo_counted.receive_other hecho,
      h.ready_counted.receive_new, h.quorum, fun hf => count_rule (h.amplified hf) id fun _ => ?_,
      fun _ _ => rfl⟩
    -- the count was above `max_faulty_nodes` before this READY
    apply h.amplified hf body
    have := getCount_snoc_le l.state.readys ⟨q, body⟩ body
    omega
  | amplified body hP hn hd hc hs =>
    obtain ⟨hsend, hecho⟩ := other_codes_of_ready hP
    exact ⟨echoed_mono h rfl id (absent hsend), h.echo_counted.receive_other hecho,
      h.ready_counted.receive_new, fun _ _ => rfl, fun _ _ _ => rfl,
      count_rule h.delivered id fun hlt => hd.resolve_left hlt.not_ge⟩
  | readyCounted body hP hn hd hc =>
    obtain ⟨hsend, hecho⟩ := other_codes_of_ready hP
    exact ⟨echoed_mono h rfl id (absent hsend), h.echo_counted.receive_other hecho,
      h.ready_counted.receive_new, h.quorum,
      fun hf => count_rule (h.amplified hf) id fun hlt => hc.resolve_left hlt.not_ge,
      count_rule h.delivered id fun hlt => hd.resolve_left hlt.not_ge⟩

theorem BrbProgress.perform (h : BrbProgress l) (r : ρ) (i : Input CString CString) :
    BrbProgress (l.perform (brbProtocol ok config) r i) := by
  cases i with
  | call m => exact h.call r m
  | receive q P => exact h.receive r q P

end Step

theorem brbProgress_init {config : BrbConfig} : BrbProgress ⟨brbInit config, [], [], false⟩ :=
  ⟨fun _ h => (List.not_mem_nil h).elim, fun _ _ h => (List.not_mem_nil h).elim,
    fun _ _ h => (List.not_mem_nil h).elim, fun _ h => absurd h (Nat.not_lt_zero _),
    fun _ _ h => absurd h (Nat.not_lt_zero _), fun _ h => absurd h (Nat.not_lt_zero _)⟩

theorem brb_progress {ρ : Type} {ok : ρ → ℤ → Bool} {config : BrbConfig} {F : Setting CString}
    {guard : State Brb CString CString Deliver → Event ρ CString CString → Prop}
    {evs : List (Event ρ CString CString)} {s : State Brb CString CString Deliver}
    (h : Run (system (brbProtocol ok config) F) guard evs s) {p : ℤ} (hp : (s.proc p).crashed = false) :
    BrbProgress (s.proc p) :=
  local_invariant_of_live (R := fun _ => BrbProgress) (fun _ => brbProgress_init)
    (fun _ _ _ r a _ _ _ _ _ h => h.perform r a.input) h hp

end DSA

import DistributedAbstractions.Spec.BrbSystem
import DistributedAbstractions.Lib.NetFacts

/-! What the history of one peer of the Byzantine broadcast says about its state,
whatever arrives: one ECHO round and one READY round at most, each with its cause,
and one indication at most. -/

namespace DSA

open CLib Net Trans

def codes : List CString := [SEND_CODE, ECHO_CODE, READY_CODE]

@[simp] theorem send_mem_codes : SEND_CODE ∈ codes := List.mem_cons_self
@[simp] theorem echo_mem_codes : ECHO_CODE ∈ codes := List.mem_cons_of_mem _ List.mem_cons_self
@[simp] theorem ready_mem_codes : READY_CODE ∈ codes :=
  List.mem_cons_of_mem _ (List.mem_cons_of_mem _ List.mem_cons_self)

theorem length_of_mem_codes {c : CString} (h : c ∈ codes) : c.length = 2 := by
  simp only [codes, List.mem_cons, List.not_mem_nil, or_false] at h
  rcases h with rfl | rfl | rfl <;> rfl

theorem isSome_parse_payload {c c' : CString} (hc : c ∈ codes) (hc' : c' ∈ codes) (b : CString) :
    (tryParseMessage (payload c b) c').isSome = decide (c = c') := by
  have hl := length_of_mem_codes hc
  have hl' := length_of_mem_codes hc'
  have hlen : c.length + 1 < MAX_MSG_LEN := by rw [hl]; decide
  by_cases h : c = c'
  · subst h; simp [tryParseMessage_payload_self hlen]
  · simp [tryParseMessage_payload_ne hlen (hl'.trans hl.symm) h, h]

@[simp] theorem codeSends_nil (c : CString) : codeSends c [] = [] := rfl

@[simp] theorem codeSends_append (c : CString) (es es' : BrbEffects) :
    codeSends c (es ++ es') = codeSends c es ++ codeSends c es' := List.filter_append _ _

@[simp] theorem codeSends_indicate (c : CString) (o : Deliver) : codeSends c [.indicate o] = [] := rfl

theorem mem_codeSends {c : CString} {es : BrbEffects} {d : ℤ} {P : CString} :
    .send d P ∈ codeSends c es ↔ .send d P ∈ es ∧ (tryParseMessage P c).isSome = true := by
  simp [codeSends, List.mem_filter]

@[simp] theorem codeSends_broadcastAux {c c' : CString} (hc : c ∈ codes) (hc' : c' ∈ codes) (b : Brb)
    (ok : ℤ → Bool) (body : CString) : codeSends c' (broadcastAux b ok body c).1 =
      if c = c' then (broadcastAux b ok body c).1 else [] := by
  have hp := isSome_parse_payload hc hc' body
  split_ifs with h
  · subst h
    rw [codeSends, List.filter_eq_self]
    intro e he
    obtain ⟨r, -, rfl⟩ := mem_sendLoop he
    simpa using hp
  · rw [codeSends, List.filter_eq_nil_iff]
    intro e he
    obtain ⟨r, -, rfl⟩ := mem_sendLoop he
    simp [hp, h]

@[simp] theorem indications_broadcastAux (b : Brb) (ok : ℤ → Bool) (body c : CString) :
    indications (broadcastAux b ok body c).1 = [] := indications_sendLoop

theorem getCount_append (l l' : List ReadyEntry) (body : CString) :
    getCount (l ++ l') body = getCount l body + getCount l' body := List.countP_append

theorem getCount_mono {l l' : List ReadyEntry} (h : l <+: l') (body : CString) :
    getCount l body ≤ getCount l' body := h.sublist.countP_le

theorem getCount_snoc_le (l : List ReadyEntry) (e : ReadyEntry) (body : CString) :
    getCount (l ++ [e]) body ≤ getCount l body + 1 := by
  rw [getCount_append]
  exact Nat.add_le_add_left List.countP_le_length _

theorem getCount_snoc_ne {l : List ReadyEntry} {q : ℤ} {b body : CString} (h : b ≠ body) :
    getCount (l ++ [⟨q, b⟩]) body = getCount l body := by
  rw [getCount_append]
  simp [getCount, h]

abbrev BrbProc := Proc Brb CString CString Deliver

/-- `code` was broadcast in one round if `flag` is set, and not at all otherwise. -/
def OneRound {ρ : Type} (ok : ρ → ℤ → Bool) (l : BrbProc) (flag : Bool) (code : CString)
    (cause : CString → Prop) : Prop :=
  (flag = false ∧ codeSends code l.effects = []) ∨
  (flag = true ∧ ∃ r b, cause b ∧ codeSends code l.effects = (broadcastAux l.state (ok r) b code).1)

def EchoCause (l : BrbProc) (b : CString) : Prop :=
  ∃ P, .receive l.state.senderRank P ∈ l.inputs ∧ tryParseMessage P SEND_CODE = some b

def ReadyCause (l : BrbProc) (b : CString) : Prop :=
  quorumSize l.state.maxRank l.state.maxFaultyNodes < getCount l.state.echos b ∨
    l.state.maxFaultyNodes < getCount l.state.readys b

/-- Every entry of `list` comes from a message of its peer under `code`. -/
def Backed (is : List (Input CString CString)) (code : CString) (list : List ReadyEntry) : Prop :=
  ∀ e ∈ list, ∃ P, .receive e.peerRank P ∈ is ∧ tryParseMessage P code = some e.msg

structure BrbLocal {ρ : Type} (ok : ρ → ℤ → Bool) (config : BrbConfig) (l : BrbProc) : Prop where
  maxRank : l.state.maxRank = config.maxRank
  senderRank : l.state.senderRank = config.senderRank
  maxFaultyNodes : l.state.maxFaultyNodes = config.maxFaultyNodes
  echo_entry : Backed l.inputs ECHO_CODE l.state.echos
  ready_entry : Backed l.inputs READY_CODE l.state.readys
  send_call : ∀ d P, .send d P ∈ codeSends SEND_CODE l.effects →
    ∃ m, .call m ∈ l.inputs ∧ P = payload SEND_CODE m
  echo_round : OneRound ok l l.state.sentEcho ECHO_CODE (EchoCause l)
  ready_round : OneRound ok l l.state.sentReady READY_CODE (ReadyCause l)
  indicated : (l.state.delivered = false ∧ indications l.effects = []) ∨
    (l.state.delivered = true ∧ ∃ d, indications l.effects = [d] ∧
      2 * l.state.maxFaultyNodes < getCount l.state.readys d.msg)

theorem Backed.mono {is is' : List (Input CString CString)} (h : is <+: is') {code : CString}
    {list : List ReadyEntry} (hb : Backed is code list) : Backed is' code list := by
  intro e he
  obtain ⟨P, hP, hm⟩ := hb e he
  exact ⟨P, h.subset hP, hm⟩

theorem Backed.snoc {is : List (Input CString CString)} {code P body : CString}
    {list : List ReadyEntry} {q : ℤ} (hb : Backed is code list)
    (hP : tryParseMessage P code = some body) :
    Backed (is ++ [.receive q P]) code (list ++ [⟨q, body⟩]) := by
  intro e he
  rcases List.mem_append.mp he with he | he
  · exact hb.mono (List.prefix_append _ _) e he
  · obtain rfl := List.mem_singleton.mp he
    exact ⟨P, by simp, hP⟩

section Step

variable {ρ : Type} {ok : ρ → ℤ → Bool} {config : BrbConfig} {l l' : BrbProc} {es : BrbEffects}

/-- What a step leaves of the state that rounds and indications refer to. -/
structure Extends (l l' : BrbProc) : Prop where
  inputs : l.inputs <+: l'.inputs
  maxRank : l'.state.maxRank = l.state.maxRank
  senderRank : l'.state.senderRank = l.state.senderRank
  maxFaultyNodes : l'.state.maxFaultyNodes = l.state.maxFaultyNodes
  echos : l.state.echos <+: l'.state.echos
  readys : l.state.readys <+: l'.state.readys

theorem EchoCause.mono (h : Extends l l') (b : CString) (hc : EchoCause l b) : EchoCause l' b := by
  obtain ⟨P, hP, hb⟩ := hc
  exact ⟨P, by rw [h.senderRank]; exact h.inputs.subset hP, hb⟩

theorem ReadyCause.mono (h : Extends l l') (b : CString) (hc : ReadyCause l b) : ReadyCause l' b := by
  have he := getCount_mono h.echos b
  have hr := getCount_mono h.readys b
  rw [ReadyCause, h.maxRank, h.maxFaultyNodes]
  exact hc.imp (fun h => by omega) (fun h => by omega)

theorem OneRound.frame {flag : Bool} {code : CString} {cause cause' : CString → Prop}
    (h : OneRound ok l flag code cause) (hx : Extends l l') (hc : ∀ b, cause b → cause' b)
    (he : l'.effects = l.effects ++ es) (hes : codeSends code es = []) :
    OneRound ok l' flag code cause' := by
  have heff : codeSends code l'.effects = codeSends code l.effects := by
    rw [he, codeSends_append, hes, List.append_nil]
  rcases h with ⟨h0, hn⟩ | ⟨h1, r, b, hb, hs⟩
  · exact .inl ⟨h0, heff.trans hn⟩
  · exact .inr ⟨h1, r, b, hc b hb, by rw [heff, hs, broadcastAux, broadcastAux, hx.maxRank]⟩

theorem OneRound.fire {flag : Bool} {code : CString} {cause cause' : CString → Prop} {r : ρ}
    {b : CString} (h : OneRound ok l flag code cause) (hx : Extends l l') (hf : flag = false)
    (hcause : cause' b) (he : l'.effects = l.effects ++ (broadcastAux l.state (ok r) b code).1)
    (hes : codeSends code (broadcastAux l.state (ok r) b code).1 =
      (broadcastAux l.state (ok r) b code).1) : OneRound ok l' true code cause' := by
  rcases h with ⟨-, hn⟩ | ⟨h1, -⟩
  · exact .inr ⟨rfl, r, b, hcause,
      by rw [he, codeSends_append, hn, List.nil_append, hes, broadcastAux, broadcastAux, hx.maxRank]⟩
  · rw [hf] at h1; cases h1

theorem send_call_frame (h : BrbLocal ok config l) (hi : l.inputs <+: l'.inputs)
    (he : l'.effects = l.effects ++ es) (hes : codeSends SEND_CODE es = []) :
    ∀ d P, .send d P ∈ codeSends SEND_CODE l'.effects →
      ∃ m, .call m ∈ l'.inputs ∧ P = payload SEND_CODE m := by
  intro d P hP
  rw [he, codeSends_append, hes, List.append_nil] at hP
  obtain ⟨m, hm, rfl⟩ := h.send_call d P hP
  exact ⟨m, hi.subset hm, rfl⟩

theorem indicated_frame (h : BrbLocal ok config l) (hx : Extends l l')
    (hd : l'.state.delivered = l.state.delivered) (he : l'.effects = l.effects ++ es)
    (hes : indications es = []) :
    (l'.state.delivered = false ∧ indications l'.effects = []) ∨
    (l'.state.delivered = true ∧ ∃ d, indications l'.effects = [d] ∧
      2 * l'.state.maxFaultyNodes < getCount l'.state.readys d.msg) := by
  have hi : indications l'.effects = indications l.effects := by
    rw [he, indications_append, hes, List.append_nil]
  rw [hi, hd, hx.maxFaultyNodes]
  rcases h.indicated with h | ⟨h1, d, hd, hc⟩
  · exact .inl h
  · exact .inr ⟨h1, d, hd, hc.trans_le (getCount_mono hx.readys d.msg)⟩

theorem BrbLocal.call (h : BrbLocal ok config l) (r : ρ) (m : CString) :
    BrbLocal ok config (l.perform (brbProtocol ok config) r (.call m)) := by
  have hx : Extends l (l.perform (brbProtocol ok config) r (.call m)) :=
    ⟨List.prefix_append _ _, rfl, rfl, rfl, List.prefix_refl _, List.prefix_refl _⟩
  have he : (l.perform (brbProtocol ok config) r (.call m)).effects =
      l.effects ++ (broadcastAux l.state (ok r) m SEND_CODE).1 := rfl
  refine ⟨h.maxRank, h.senderRank, h.maxFaultyNodes, h.echo_entry.mono hx.inputs,
    h.ready_entry.mono hx.inputs, fun d P hP => ?_,
    h.echo_round.frame hx (EchoCause.mono hx) he (by simp),
    h.ready_round.frame hx (ReadyCause.mono hx) he (by simp), indicated_frame h hx rfl he (by simp)⟩
  rw [he, codeSends_append, List.mem_append] at hP
  rcases hP with hP | hP
  · obtain ⟨m', hm', rfl⟩ := h.send_call d P hP
    exact ⟨m', hx.inputs.subset hm', rfl⟩
  · exact ⟨m, by simp [Proc.perform], send_mem_sendLoop (mem_codeSends.mp hP).1⟩

theorem BrbLocal.count (h : BrbLocal ok config l) {i : Input CString CString} {echos readys : List ReadyEntry}
    (hechos : l.state.echos <+: echos) (hreadys : l.state.readys <+: readys)
    (hecho : Backed (l.inputs ++ [i]) ECHO_CODE echos) (hready : Backed (l.inputs ++ [i]) READY_CODE readys) :
    BrbLocal ok config
      ⟨{ l.state with echos := echos, readys := readys }, l.inputs ++ [i], l.effects, l.crashed⟩ := by
  have hi : l.inputs <+: l.inputs ++ [i] := List.prefix_append _ _
  have hx : Extends l
      ⟨{ l.state with echos := echos, readys := readys }, l.inputs ++ [i], l.effects, l.crashed⟩ :=
    ⟨hi, rfl, rfl, rfl, hechos, hreadys⟩
  have he : l.effects = l.effects ++ [] := (List.append_nil _).symm
  exact ⟨h.maxRank, h.senderRank, h.maxFaultyNodes, hecho, hready, send_call_frame h hi he rfl,
    h.echo_round.frame hx (EchoCause.mono hx) he rfl, h.ready_round.frame hx (ReadyCause.mono hx) he rfl,
    indicated_frame h hx rfl he rfl⟩

theorem BrbLocal.echo (h : BrbLocal ok config l) (r : ρ) {body : CString} (hs : l.state.sentEcho = false)
    (hcause : EchoCause l body) : BrbLocal ok config ⟨{ l.state with sentEcho := true }, l.inputs,
      l.effects ++ (broadcastAux l.state (ok r) body ECHO_CODE).1, l.crashed⟩ := by
  have hx : Extends l ⟨{ l.state with sentEcho := true }, l.inputs,
      l.effects ++ (broadcastAux l.state (ok r) body ECHO_CODE).1, l.crashed⟩ :=
    ⟨List.prefix_refl _, rfl, rfl, rfl, List.prefix_refl _, List.prefix_refl _⟩
  exact ⟨h.maxRank, h.senderRank, h.maxFaultyNodes, h.echo_entry, h.ready_entry,
    send_call_frame h hx.inputs rfl (by simp), h.echo_round.fire hx hs hcause rfl (by simp),
    h.ready_round.frame hx (ReadyCause.mono hx) rfl (by simp), indicated_frame h hx rfl rfl (by simp)⟩

theorem BrbLocal.ready (h : BrbLocal ok config l) (r : ρ) {body : CString} (hs : l.state.sentReady = false)
    (hcause : ReadyCause l body) : BrbLocal ok config ⟨{ l.state with sentReady := true }, l.inputs,
      l.effects ++ (broadcastAux l.state (ok r) body READY_CODE).1, l.crashed⟩ := by
  have hx : Extends l ⟨{ l.state with sentReady := true }, l.inputs,
      l.effects ++ (broadcastAux l.state (ok r) body READY_CODE).1, l.crashed⟩ :=
    ⟨List.prefix_refl _, rfl, rfl, rfl, List.prefix_refl _, List.prefix_refl _⟩
  exact ⟨h.maxRank, h.senderRank, h.maxFaultyNodes, h.echo_entry, h.ready_entry,
    send_call_frame h hx.inputs rfl (by simp), h.echo_round.frame hx (EchoCause.mono hx) rfl (by simp),
    h.ready_round.fire hx hs hcause rfl (by simp), indicated_frame h hx rfl rfl (by simp)⟩

theorem BrbLocal.deliver (h : BrbLocal ok config l) {d : Deliver} (hd : l.state.delivered = false)
    (hc : 2 * l.state.maxFaultyNodes < getCount l.state.readys d.msg) :
    BrbLocal ok config
      ⟨{ l.state with delivered := true }, l.inputs, l.effects ++ [.indicate d], l.crashed⟩ := by
  have hx : Extends l
      ⟨{ l.state with delivered := true }, l.inputs, l.effects ++ [.indicate d], l.crashed⟩ :=
    ⟨List.prefix_refl _, rfl, rfl, rfl, List.prefix_refl _, List.prefix_refl _⟩
  have hnone : indications l.effects = [] := by
    rcases h.indicated with ⟨-, h0⟩ | ⟨h1, -⟩
    · exact h0
    · rw [hd] at h1; cases h1
  refine ⟨h.maxRank, h.senderRank, h.maxFaultyNodes, h.echo_entry, h.ready_entry,
    send_call_frame h hx.inputs rfl rfl, h.echo_round.frame hx (EchoCause.mono hx) rfl rfl,
    h.ready_round.frame hx (ReadyCause.mono hx) rfl rfl, .inr ⟨rfl, d, ?_, hc⟩⟩
  rw [indications_append, hnone]
  rfl

/-- A message is counted first. What is sent or indicated then has its cause in what has been counted. -/
theorem BrbLocal.receive (h : BrbLocal ok config l) (r : ρ) (q : ℤ) (P : CString) :
    BrbLocal ok config (l.perform (brbProtocol ok config) r (.receive q P)) := by
  have hout := brbCallback_outcome (ok r) l.state q P
  change BrbLocal ok config ⟨(brbCallback l.state (ok r) ⟨P, q⟩).1, l.inputs ++ [.receive q P],
    l.effects ++ (brbCallback l.state (ok r) ⟨P, q⟩).2, l.crashed⟩
  generalize (brbCallback l.state (ok r) ⟨P, q⟩).1 = b' at hout ⊢
  generalize (brbCallback l.state (ok r) ⟨P, q⟩).2 = es at hout ⊢
  have hi : l.inputs <+: l.inputs ++ [.receive q P] := List.prefix_append _ _
  have hsame := h.count (List.prefix_refl _) (List.prefix_refl _) (h.echo_entry.mono hi) (h.ready_entry.mono hi)
  have hecho : ∀ body, tryParseMessage P ECHO_CODE = some body → BrbLocal ok config
      ⟨{ l.state with echos := l.state.echos ++ [⟨q, body⟩] }, l.inputs ++ [.receive q P],
        l.effects, l.crashed⟩ := fun body hP =>
    h.count (List.prefix_append _ _) (List.prefix_refl _) (h.echo_entry.snoc hP) (h.ready_entry.mono hi)
  have hready : ∀ body, tryParseMessage P READY_CODE = some body → BrbLocal ok config
      ⟨{ l.state with readys := l.state.readys ++ [⟨q, body⟩] }, l.inputs ++ [.receive q P],
        l.effects, l.crashed⟩ := fun body hP =>
    h.count (List.prefix_refl _) (List.prefix_append _ _) (h.echo_entry.mono hi) (h.ready_entry.snoc hP)
  cases hout with
  | ignored =>
    rw [List.append_nil]
    exact hsame
  | echoed body hP hs hq => exact hsame.echo r hs ⟨P, by simp [← hq], hP⟩
  | echoCounted body hP =>
    rw [List.append_nil]
    exact hecho body hP
  | echoQuorum body hP hn hc hs => exact (hecho body hP).ready r hs (.inl hc)
  | delivered body hP hn hc hd => exact (hready body hP).deliver hd hc
  | amplified body hP hn hd hc hs => exact (hready body hP).ready r hs (.inr hc)
  | readyCounted body hP =>
    rw [List.append_nil]
    exact hready body hP

theorem brbLocal_init : BrbLocal ok config ⟨brbInit config, [], [], false⟩ :=
  ⟨rfl, rfl, rfl, fun _ h => (List.not_mem_nil h).elim, fun _ h => (List.not_mem_nil h).elim,
    fun _ _ h => (List.not_mem_nil h).elim, .inl ⟨rfl, rfl⟩, .inl ⟨rfl, rfl⟩, .inl ⟨rfl, rfl⟩⟩

theorem BrbLocal.perform (h : BrbLocal ok config l) (r : ρ) (i : Input CString CString) :
    BrbLocal ok config (l.perform (brbProtocol ok config) r i) := by
  cases i with
  | call m => exact h.call r m
  | receive q P => exact h.receive r q P

end Step

theorem brb_local {ρ : Type} {ok : ρ → ℤ → Bool} {config : BrbConfig} {F : Setting CString}
    {guard : State Brb CString CString Deliver → Event ρ CString CString → Prop}
    {evs : List (Event ρ CString CString)} {s : State Brb CString CString Deliver}
    (h : Run (system (brbProtocol ok config) F) guard evs s) (p : ℤ) :
    ∃ l, BrbLocal ok config l ∧ Shadow (s.proc p) l :=
  local_invariant (R := fun _ => BrbLocal ok config) (fun _ => brbLocal_init)
    (fun _ _ _ r a _ _ _ _ _ h => h.perform r a.input) h p

end DSA

import DistributedAbstractions.Lib.Simulation
import DistributedAbstractions.Lib.Hosting
import DistributedAbstractions.Proofs.AuthRuns
import DistributedAbstractions.Proofs.BrbSafety
import DistributedAbstractions.Proofs.StackRefinement
import DistributedAbstractions.Spec.AuthStack

/-! What an adversary can do to a protocol over authenticated links, although all datagrams go through its
hands: bring it messages of the peers of `byz`, and those that the others have signed. -/

namespace DSA

open CLib Inbox Net Trans

variable {F : Keyring} {x : Received} {p q : ℤ}

/-- The message of a datagram that bears it fits what an adversary can write. -/
theorem Bears.forges {id m : CString} (h : Bears F x p id m) (q : ℤ) : aplForges ⟨p, q, m⟩ = true := by
  obtain ⟨rank, sep, hex, bin, post, hbuf, -⟩ := h
  have hle : x.buffer.length ≤ MAX_MSG_LEN := List.length_take_le _ _
  rw [hbuf] at hle
  have hD : DELIM_LEN = 1 := rfl
  simp only [List.length_append, List.length_cons] at hle
  refine decide_eq_true ?_
  dsimp only
  omega

theorem sender_of_callback {verify : ℤ → List ℕ → CString → Bool} {maxRank : ℕ} {sig : List ℕ} {e e' : Deliver}
    (h : aplWrapper verify maxRank sig e = .callback e') : e'.sender ∈ peers maxRank := by
  rw [(aplWrapper_callback h).1]
  by_contra hrank
  rw [mem_peers] at hrank
  unfold aplWrapper at h
  dsimp only at h
  rw [if_pos (show e.sender < 1 ∨ e.sender > maxRank by omega)] at h
  split_ifs at h

theorem sender_of_accepted {k : Hash} {e : Deliver} (h : reading F.verify F.maxRank x = .accepted k e) :
    e.sender ∈ peers F.maxRank := by
  unfold reading at h
  split at h
  · cases h
  · cases h
  split_ifs at h
  split at h
  · next e' he' =>
    obtain ⟨-, rfl⟩ := Reading.accepted.inj h
    exact sender_of_callback he'
  · cases h

section Stack

variable {ρ σ ι ω : Type} {P : Protocol ρ σ ι CString ω} {w : Socket}
  {ok : State σ ι CString ω → Event ρ ι CString → Prop} {s s' : AuthStack σ ι ω}

theorem raised_eq : s.raised F q x = ((s.link q).output (reading F.verify F.maxRank x)).head? := by
  rw [AuthStack.raised, aplConsume_eq, read_delivered, List.drop_left]

theorem bears_of_raised {e : Deliver} (h : s.raised F q x = some e) :
    (∃ id, Bears F x e.sender id e.msg) ∧ e.sender ∈ peers F.maxRank := by
  have hout : e ∈ (s.link q).output (reading F.verify F.maxRank x) := List.mem_of_mem_head? (raised_eq ▸ h)
  obtain ⟨k, hk⟩ : ∃ k, reading F.verify F.maxRank x = .accepted k e := by
    unfold Receiver.output at hout
    split at hout
    · next k e' hread =>
      split_ifs at hout with hnew
      · rw [List.mem_singleton.mp hout]
        exact ⟨k, hread⟩
      · cases hout
    · cases hout
  obtain ⟨id, hb, -⟩ := reading_accepted hk
  exact ⟨⟨id, hb⟩, sender_of_accepted hk⟩

/-- Whatever a process has signed, its protocol has sent. -/
def Signed (s : AuthStack σ ι ω) : Prop := ∀ c ∈ s.sent, .send c.dst c.msg ∈ (s.proc c.src).effects

theorem signed_handle (h : Signed s) {r : ρ} {i : Input ι CString} {ids : List CString}
    (hids : ids.length = (packets p (s.effects P p r i)).length) : Signed (s.handle F P w p r i ids) := by
  have hgrows : ∀ q, (s.proc q).effects <+: ((s.handle F P w p r i ids).proc q).effects := by
    intro q
    by_cases hq : q = p
    · subst hq
      simp [AuthStack.handle, Proc.perform]
    · simp [AuthStack.handle, hq]
  intro c hc
  rcases List.mem_append.mp hc with hc | hc
  · exact (hgrows _).subset (h c hc)
  · have hmem : c.packet ∈ packets p (s.effects P p r i) := by
      rw [← plCalls_packet hids]
      exact List.mem_map_of_mem hc
    obtain ⟨hsrc, hsend⟩ := mem_packets.mp hmem
    rw [show c.src = p from hsrc]
    simpa [AuthStack.handle, Proc.perform] using .inr hsend

/-- `t` has the same processes as `s`. -/
structure AuthShows (s : AuthStack σ ι ω) (t : State σ ι CString ω) : Prop where
  proc_eq : t.proc = s.proc
  signed : Signed s
  uncrashed : ∀ p, (s.proc p).crashed = false

theorem act_none_update {t : State σ ι CString ω} {r : ρ} {a : Arrival ι CString} (h : (t.proc p).crashed = false) :
    (t.act P p r a none).proc = Function.update t.proc p ((t.proc p).perform P r a.input) := by
  funext q
  by_cases hq : q = p
  · subst hq
    rw [Function.update_self, act_none_proc P t q r a h]
  · rw [Function.update_of_ne hq, act_proc_ne P t p r a none hq]

theorem AuthShows.handle {t : State σ ι CString ω} (h : AuthShows s t) {r : ρ} {a : Arrival ι CString}
    {ids : List CString} (hids : ids.length = (packets p (s.effects P p r a.input)).length) :
    AuthShows (s.handle F P w p r a.input ids) (t.act P p r a none) := by
  refine ⟨?_, signed_handle h.signed hids, fun q => ?_⟩
  · rw [act_none_update (by rw [h.proc_eq]; exact h.uncrashed p), h.proc_eq]
    rfl
  · by_cases hq : q = p
    · subst hq
      simpa [AuthStack.handle, Proc.perform] using h.uncrashed q
    · simpa [AuthStack.handle, hq] using h.uncrashed q

theorem AuthShows.live {t : State σ ι CString ω} (h : AuthShows s t) (hp : s.up F p = true) :
    (aplSetting F.maxRank F.byz).live t p = true := by
  rw [AuthStack.up, Bool.and_eq_true, Keyring.correct, Bool.and_eq_true, decide_eq_true_eq] at hp
  refine live_iff.mpr ⟨correct_iff.mpr ⟨rank_iff.mpr (mem_peers.mp hp.1.1), by simpa [aplSetting] using hp.1.2⟩, ?_⟩
  rw [h.proc_eq]
  exact h.uncrashed p

theorem AuthShows.admits {t : State σ ι CString ω} (h : AuthShows s t) (hforged : Unforged F s.signing (.arrive q x))
    {e : Deliver} (he : s.raised F q x = some e) :
    (aplSetting F.maxRank F.byz).admits t q (.forge e.sender e.msg : Arrival ι CString) = true := by
  obtain ⟨⟨id, hb⟩, hrank⟩ := bears_of_raised he
  have hforges := hb.forges q
  have hfrom : e.sender ∈ F.byz ∨ t.said e.sender e.msg = true := by
    by_cases hbyz : e.sender ∈ F.byz
    · exact .inl hbyz
    · have hcorrect : F.correct e.sender = true := by
        rw [Keyring.correct, decide_eq_true hrank, decide_eq_false hbyz]
        rfl
      obtain ⟨sig, hoff, hver⟩ := hb.offers
      obtain ⟨c, hc, hsrc, hmsg⟩ := hforged e.sender sig e.msg hcorrect hoff hver
      refine .inr (said_iff.mpr ⟨c.dst, ?_⟩)
      rw [h.proc_eq, ← hsrc, ← hmsg]
      exact h.signed c hc
  have hrank' := rank_iff (F := aplSetting F.maxRank F.byz).mpr (mem_peers.mp hrank)
  rw [Setting.admits, hrank', Bool.true_and, Bool.and_eq_true]
  refine ⟨?_, hforges⟩
  rw [Bool.or_eq_true]
  exact hfrom.imp (fun hbyz => decide_eq_true hbyz) fun hsaid => hsaid

theorem auth_simulation (hproc : ByProc ok) :
    Simulation (authSystem F P w) (AuthFair F P ok) (system P (aplSetting F.maxRank F.byz)) ok AuthShows := by
  refine .of_step ⟨rfl, fun _ hc => (List.not_mem_nil hc).elim, fun _ => rfl⟩ fun evs s e s' evs' t _ _ hs hok hn => ?_
  have hview : ∀ e, ok s.view e → ok t e := fun e => hproc _ _ e hs.proc_eq.symm
  cases e with
  | call p r i ids =>
    obtain ⟨hp, hs'⟩ := Option.ite_none_right_eq_some.mp hn
    obtain rfl := Option.some.inj hs'
    exact .inr ⟨_, _, hview _ hok.1, next_of_admits (hs.live hp) rfl (.inl rfl), hs.handle (a := .call i) hok.2⟩
  | arrive q x r ids =>
    obtain ⟨hp, hs'⟩ := Option.ite_none_right_eq_some.mp hn
    obtain rfl := Option.some.inj hs'
    obtain ⟨hforged, hok⟩ := hok
    have hconsume : AuthShows (s.consume F q x) t := ⟨hs.proc_eq, hs.signed, hs.uncrashed⟩
    unfold AuthStack.arrive
    cases he : s.raised F q x with
    | none => exact .inl hconsume
    | some e =>
      obtain ⟨hguard, hids⟩ := hok e he
      exact .inr ⟨_, _, hview _ hguard, next_of_admits (hs.live hp) (hs.admits hforged he) (.inl rfl),
        hconsume.handle (a := .forge e.sender e.msg) hids⟩
  | timeout p =>
    obtain ⟨-, hs'⟩ := Option.ite_none_right_eq_some.mp hn
    obtain rfl := Option.some.inj hs'
    exact .inl ⟨hs.proc_eq, hs.signed, hs.uncrashed⟩

/-- All that an adversary can make of the network, it can do by bringing what it or others have signed. -/
theorem auth_stack_refines (hproc : ByProc ok) {evs : List (AuthEvent ρ ι)}
    (h : Run (authSystem F P w) (AuthFair F P ok) evs s) :
    ∃ evs' t, Run (system P (aplSetting F.maxRank F.byz)) ok evs' t ∧ t.proc = s.proc := by
  obtain ⟨evs', t, ht, hs⟩ := (auth_simulation hproc).run h
  exact ⟨evs', t, ht, hs.proc_eq⟩

end Stack

section Brb

variable {config : BrbConfig} {w : Socket} {evs : List (AuthEvent (ℤ → Bool) CString)}
  {s : AuthStack Brb CString Deliver}

theorem byProc_scanComplete :
    ByProc (ScanComplete : BrbState → Event (ℤ → Bool) CString CString → Prop) := by
  intro t t' e hproc h
  match e with
  | .crash p => trivial
  | .act p r (.call i) stop => trivial
  | .act p r (.deliver q m) stop =>
    change _ ∧ _ at h ⊢
    rwa [← hproc]
  | .act p r (.forge q m) stop =>
    change _ ∧ _ at h ⊢
    rwa [← hproc]

theorem brb_stack_safe (hF : F.maxRank = config.maxRank) (hf : 3 * config.maxFaultyNodes < config.maxRank)
    (hbyz : F.byz.card ≤ config.maxFaultyNodes) (hq : config.maxRank + config.maxFaultyNodes ≤
      toFloat (config.maxRank + config.maxFaultyNodes) + 1)
    (h : Run (authSystem F (brbProtocol id config) w) (AuthFair F (brbProtocol id config) ScanComplete) evs s) :
    BrbStackSafe config F.byz s := by
  obtain ⟨evs', t, ht, hs⟩ := (auth_simulation byProc_scanComplete).run h
  rw [hF] at ht
  have hcert : ∀ {p d}, d ∈ indications (s.proc p).effects → Certified config F.byz t d.msg := fun hd =>
    certified_of_indication (fun _ _ h => h) hbyz ht (hs.proc_eq ▸ hd)
  refine ⟨fun p _ q _ d hd d' hd' => ?_, fun p _ => ?_, fun hsnd p _ d hd => ?_⟩
  · exact (hcert hd).unique hbyz (quorum_intersects hq) ht (hcert hd')
  · rw [← hs.proc_eq]
    rcases (brb_local_of_run ht p).indicated with ⟨-, hi⟩ | ⟨-, d, hi, -⟩ <;> simp [hi]
  · obtain ⟨x, -, hx⟩ := (hcert hd).exists_echo hf hbyz
    rw [← hs.proc_eq]
    exact call_of_echoCause ht hsnd (echoCause_of_sent ht hx)

section Witness

/-- The steps with the link as a receiver of what it reads. -/
def readNext {ρ σ ι ω : Type} (F : Keyring) (P : Protocol ρ σ ι CString ω) (w : Socket) (s : AuthStack σ ι ω) :
    AuthEvent ρ ι → Option (AuthStack σ ι ω)
  | .arrive q x r ids =>
    let y := reading F.verify F.maxRank x
    let s₁ := { s with link := Function.update s.link q ((s.link q).read y) }
    if s.up F q then
      some (match ((s.link q).output y).head? with
        | none => s₁
        | some e => s₁.handle F P w q r (.receive e.sender e.msg) ids)
    else none
  | e => authNext F P w s e

theorem authSystem_eq {ρ σ ι ω : Type} (F : Keyring) (P : Protocol ρ σ ι CString ω) (w : Socket) :
    authSystem F P w = ⟨(authSystem F P w).init, readNext F P w⟩ := by
  have hnext : ∀ (s : AuthStack σ ι ω) (e : AuthEvent ρ ι), authNext F P w s e = readNext F P w s e := by
    intro s e
    cases e with
    | arrive q x r ids =>
      rewrite [authNext, readNext, AuthStack.arrive, raised_eq, AuthStack.consume, aplConsume_eq]
      rfl
    | _ => rfl
  exact congrArg _ (funext fun s => funext (hnext s))

/-- What the correct ones of four peers sign when peer 1 broadcasts `a`. -/
def signedByThree : List (ℤ × CString) :=
  (1, payload SEND_CODE ['a']) ::
    [1, 2, 3].flatMap fun p => [(p, payload ECHO_CODE ['a']), (p, payload READY_CODE ['a'])]

def quadSignature (p : ℤ) : List ℕ := List.replicate crypto_sign_BYTES (0xa0 + p.toNat)

/-- Peer 4 is not correct, and signs anything. -/
def quadKeys : Keyring where
  maxRank := 4
  byz := {4}
  sign p _ := quadSignature p
  verify p sig m := decide (sig = quadSignature p ∧ (p = 4 ∨ (p, m) ∈ signedByThree))

def quadConfig : BrbConfig := ⟨1, 1, 4⟩

def quadId (c : Char) (q : ℤ) : CString := fmtInt q ++ List.replicate (UUID_STR_LEN - 2) c

/-- The datagram of `p` to `q` for `msg`, under an id of `c`s. -/
def quadArrives (p q : ℤ) (msg : CString) (c : Char) (ids : List CString) : AuthEvent (ℤ → Bool) CString :=
  .arrive q ⟨(plainSocket.datagram p (PlCall.signed quadKeys ⟨p, q, msg, quadId c q⟩)).bytes, [], [], []⟩
    (fun _ => true) ids

/-- `q` gets `msg` from the three in turn, and answers the last one. -/
def quadGets (q : ℤ) (msg : CString) (c : Char) (ids : List CString) : List (AuthEvent (ℤ → Bool) CString) :=
  [quadArrives 2 q msg c [], quadArrives 3 q msg c [], quadArrives 1 q msg c ids]

/-- Peer 1 broadcasts `a`. Peer 4 says something else to peer 2, which delivers `a`. -/
def quadBroadcast : List (AuthEvent (ℤ → Bool) CString) :=
  .call 1 (fun _ => true) ['a'] ((ranks 4).map (quadId 's')) ::
    ([1, 2, 3].map fun q => quadArrives 1 q (payload SEND_CODE ['a']) 's' ((ranks 4).map (quadId 'e'))) ++
    [.timeout 1, quadArrives 4 2 (payload ECHO_CODE ['b']) 'e' []] ++
    [1, 2, 3].flatMap (fun q => quadGets q (payload ECHO_CODE ['a']) 'e' ((ranks 4).map (quadId 'r'))) ++
    quadGets 2 (payload READY_CODE ['a']) 'r' []

/-- Of what the three sign only what they have sent is in the buffer of a datagram. -/
def QuadFair (s : AuthStack Brb CString Deliver) : AuthEvent (ℤ → Bool) CString → Prop
  | .call p r i ids => ScanComplete s.view (.act p r (.call i) none) ∧
      ids.length = (packets p (s.effects (brbProtocol id quadConfig) p r (.call i))).length
  | .arrive q x r ids =>
    (∀ pm ∈ signedByThree, pm.2 ++ [NUL] <:+: x.buffer → ∃ c ∈ s.sent, c.src = pm.1 ∧ c.msg = pm.2) ∧
      ∀ e ∈ ((s.link q).output (reading quadKeys.verify quadKeys.maxRank x)).head?,
        ScanComplete s.view (.act q r (.forge e.sender e.msg) none) ∧
        ids.length = (packets q (s.effects (brbProtocol id quadConfig) q r (.receive e.sender e.msg))).length
  | .timeout _ => True

instance (s : AuthStack Brb CString Deliver) : (e : AuthEvent (ℤ → Bool) CString) → Decidable (QuadFair s e)
  | .call _ _ _ _ => inferInstanceAs (Decidable (_ ∧ _))
  | .arrive _ _ _ _ => inferInstanceAs (Decidable (_ ∧ _))
  | .timeout _ => isTrue trivial

theorem Offers.infix {sig : List ℕ} {m : CString} (h : Offers x sig m) : m ++ [NUL] <:+: x.buffer := by
  obtain ⟨pre, hex, bin, post, hbuf, -⟩ := h
  exact ⟨pre ++ (hex ++ [',']), post, by simp [hbuf]⟩

theorem QuadFair.auth {s : AuthStack Brb CString Deliver} {e : AuthEvent (ℤ → Bool) CString} (h : QuadFair s e) :
    AuthFair quadKeys (brbProtocol id quadConfig) ScanComplete s e := by
  cases e with
  | call p r i ids => exact h
  | timeout p => trivial
  | arrive q x r ids =>
    obtain ⟨hsent, hraised⟩ := h
    refine ⟨fun p sig m hp hoff hver => ?_, raised_eq ▸ hraised⟩
    obtain ⟨-, rfl | hm⟩ := of_decide_eq_true hver
    · cases hp
    · exact hsent (p, m) hm hoff.infix

theorem exists_quadBroadcast : ∃ s, Run (authSystem quadKeys (brbProtocol id quadConfig) plainSocket)
    (AuthFair quadKeys (brbProtocol id quadConfig) ScanComplete) quadBroadcast s ∧
    indications (s.proc 2).effects = [⟨['a'], 1⟩] := by
  obtain ⟨s, h, hs⟩ : ∃ s, Run (authSystem quadKeys (brbProtocol id quadConfig) plainSocket) QuadFair quadBroadcast s ∧
      indications (s.proc 2).effects = [⟨['a'], 1⟩] := by
    rw [authSystem_eq]
    exact exists_run_of_exec (fun s : AuthStack Brb CString Deliver => indications (s.proc 2).effects)
      (by decide +kernel)
  exact ⟨s, h.weaken fun _ _ hok => hok.auth, hs⟩

end Witness

theorem quadBroadcast_refined : ∃ s : AuthStack Brb CString Deliver, indications (s.proc 2).effects = [⟨['a'], 1⟩] ∧
    ∃ evs' t, Run (system (brbProtocol id quadConfig) (aplSetting 4 {4})) ScanComplete evs' t ∧ t.proc = s.proc := by
  obtain ⟨s, h, hs⟩ := exists_quadBroadcast
  exact ⟨s, hs, auth_stack_refines byProc_scanComplete h⟩

theorem quadBroadcast_safe : ∃ s, Run (authSystem quadKeys (brbProtocol id quadConfig) plainSocket)
      (AuthFair quadKeys (brbProtocol id quadConfig) ScanComplete) quadBroadcast s ∧
    indications (s.proc 2).effects = [⟨['a'], 1⟩] ∧ BrbStackSafe quadConfig {4} s := by
  obtain ⟨s, h, hs⟩ := exists_quadBroadcast
  exact ⟨s, h, hs, brb_stack_safe (F := quadKeys) rfl (by decide) (by decide) (by decide) h⟩

end Brb

end DSA

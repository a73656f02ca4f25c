import DistributedAbstractions.Proofs.ForgedTraffic
import DistributedAbstractions.Spec.AuthLink

/-! What the authenticated link guarantees against an adversary: its signatures cover the message
alone, so that a message goes back to its sender, but neither to the recipient nor to the id that
it was sent to and under. -/

namespace DSA

open CLib Inbox Trans

theorem eq_cstr_append {mem : List Char} (h : NUL ∈ mem) : ∃ post, mem = cstr mem ++ NUL :: post := by
  obtain ⟨c, rest, hc, hmem⟩ := exists_takeWhile_split (strlen_lt h)
  obtain rfl : c = NUL := by simpa using hc
  exact ⟨rest, hmem⟩

section Parsing

variable {r : Received} {e e' : Deliver}

theorem consumeMsg_split (h : consumeMsg r = .callback e) : ∃ rank sep post,
    r.buffer = rank ++ sep :: (e.msg ++ NUL :: post) ∧ (sep = ',' ∨ sep = NUL) ∧ ',' ∉ rank ∧
      NUL ∉ rank ∧ e.sender = atoi (rank ++ r.id) := by
  unfold consumeMsg at h
  dsimp only at h
  rw [← Received.buffer] at h
  split_ifs at h with _ _ hnul
  obtain rfl := Handled.callback.inj h
  -- the rank ends at the first comma or NUL
  have hrank : (cstr r.buffer).takeWhile (· != ',') =
      r.buffer.takeWhile fun c => c != ',' && decide (c ≠ NUL) := by
    rw [cstr, List.takeWhile_takeWhile]
    congr 1
    funext c
    by_cases hc : c = ',' <;> simp [hc]
  have hmem : ∀ c ∈ r.buffer.takeWhile fun c => c != ',' && decide (c ≠ NUL), c ≠ ',' ∧ c ≠ NUL :=
    fun c hc => by simpa using List.mem_takeWhile_imp hc
  rw [strcspn, hrank] at hnul ⊢
  have hlt : (r.buffer.takeWhile fun c => c != ',' && decide (c ≠ NUL)).length < r.buffer.length := by
    have hpos := List.length_pos_of_mem hnul
    rw [List.length_drop] at hpos
    omega
  obtain ⟨sep, rest, hsep, hbuf⟩ := exists_takeWhile_split hlt
  generalize (r.buffer.takeWhile fun c => c != ',' && decide (c ≠ NUL)) = rank at hbuf hmem hnul ⊢
  have hrest : r.buffer.drop (rank.length + DELIM_LEN) = rest := by
    rw [hbuf]
    simp [DELIM_LEN]
  rw [hrest] at hnul ⊢
  obtain ⟨post, hpost⟩ := eq_cstr_append hnul
  refine ⟨rank, sep, post, hpost ▸ hbuf, ?_, fun h => (hmem _ h).1 rfl, fun h => (hmem _ h).2 rfl, ?_⟩
  · simpa [imp_iff_not_or] using hsep
  · rw [hbuf, List.take_left]

theorem idLen_split (h : e.msg.drop (idLen e + DELIM_LEN) ≠ []) :
    e.msg = e.msg.take (idLen e) ++ ',' :: e.msg.drop (idLen e + DELIM_LEN) ∧
      ',' ∉ e.msg.take (idLen e) := by
  have hpos := List.length_pos_iff.mpr h
  rw [List.length_drop, DELIM_LEN] at hpos
  exact ⟨take_strcspn_append (by rw [← idLen]; omega), notMem_take_strcspn _ _⟩

theorem aplWrapper_callback {verify : ℤ → List ℕ → CString → Bool} {maxRank : ℕ} {sig : List ℕ}
    (h : aplWrapper verify maxRank sig e = .callback e') : e'.sender = e.sender ∧
      ∃ hex bin, e.msg = hex ++ ',' :: e'.msg ∧ ',' ∉ hex ∧
        sodiumHex2bin crypto_sign_BYTES hex = some bin ∧
        verify e.sender (bin ++ sig.drop bin.length) e'.msg = true := by
  unfold aplWrapper at h
  dsimp only at h
  split_ifs at h with hhex hrank hoff
  · split at h <;> cases h
  split at h
  · cases h
  next bin hbin =>
  split_ifs at h with hver
  obtain rfl := Handled.callback.inj h
  refine ⟨rfl, _, bin, take_strcspn_append ?_, notMem_take_strcspn _ _, hbin, hver⟩
  rw [DELIM_LEN] at hoff
  omega

theorem reading_accepted {F : Keyring} {k : Hash}
    (h : reading F.verify F.maxRank r = .accepted k e) : ∃ id, Bears F r e.sender id e.msg ∧
      k = djb2 (snprintf MAX_MSG_LEN (fmtInt e.sender ++ id)) := by
  unfold reading at h
  split at h
  · cases h
  · cases h
  next e₀ he₀ =>
  split_ifs at h
  split at h
  · next e₁ he₁ =>
    obtain ⟨rfl, rfl⟩ := Reading.accepted.inj h
    obtain ⟨rank, sep, post, hbuf, hsep, hcomma, hnul, hsender⟩ := consumeMsg_split he₀
    obtain ⟨hs, hex, bin, hmsg, hhex, hbin, hver⟩ := aplWrapper_callback he₁
    dsimp only at hs hmsg hver
    obtain ⟨hid, hidc⟩ := idLen_split (e := e₀) (by rw [hmsg]; simp)
    rw [hmsg] at hid
    refine ⟨e₀.msg.take (idLen e₀), ⟨rank, sep, hex, bin, post, ?_, hsep, hcomma, hnul, hidc, hhex, ?_, hbin,
      hs ▸ hver⟩, by rw [hs]; rfl⟩
    · rw [hbuf]
      conv_lhs => rw [hid]
      simp
    · rw [hs, hsender]
  · cases h

theorem Bears.offers {F : Keyring} {p : ℤ} {id m : CString} (h : Bears F r p id m) :
    ∃ sig, Offers r sig m ∧ F.verify p sig m = true := by
  obtain ⟨rank, sep, hex, bin, post, hbuf, -, -, -, -, -, -, hbin, hver⟩ := h
  refine ⟨_, ⟨rank ++ sep :: (id ++ [',']), hex, bin, post, ?_, hbin, rfl⟩, hver⟩
  rw [hbuf]
  simp

end Parsing

section Runs

variable {F : Keyring} {evs : List AplEvent} {s : AplState} {ok : AplState → AplEvent → Prop}

/-- What the guard says about a datagram when it arrives still holds with more calls. -/
theorem received_of_run {G : List PlCall → ℤ → Received → Prop}
    (hmono : ∀ calls c q r, G calls q r → G (calls ++ [c]) q r)
    (hok : ∀ s q r, ok s (.arrive q r) → G s.calls q r) (h : Run (aplSystem F) ok evs s) :
    ∀ q, ∀ r ∈ s.received q, G s.calls q r := by
  refine h.state_invariant (I := fun s => ∀ q, ∀ r ∈ s.received q, G s.calls q r)
    (fun _ _ hr => (List.not_mem_nil hr).elim) ?_
  intro evs s e s' _ ih hok' hn
  cases e with
  | send c =>
    obtain ⟨-, hs⟩ := Option.ite_none_right_eq_some.mp hn
    obtain rfl := Option.some.inj hs
    exact fun q r hr => hmono _ _ _ _ (ih q r hr)
  | timeout p =>
    obtain ⟨-, hs⟩ := Option.ite_none_right_eq_some.mp hn
    obtain rfl := Option.some.inj hs
    exact ih
  | arrive p r =>
    obtain ⟨-, hs⟩ := Option.ite_none_right_eq_some.mp hn
    obtain rfl := Option.some.inj hs
    intro q r' hr'
    simp only [Function.update_apply] at hr'
    split_ifs at hr' with hq
    · rcases List.mem_append.mp hr' with hr' | hr'
      · exact ih q r' (hq ▸ hr')
      · rw [List.mem_singleton.mp hr', hq]
        exact hok s p r hok'
    · exact ih q r' hr'

/-- The deliveries have datagrams that bear them, under different hashes of sender and id. -/
theorem delivered_of_received (s : AplState) (q : ℤ) : ∃ l : List (Hash × Deliver),
    (s.link F q).delivered = l.map Prod.snd ∧ (l.map Prod.fst).Nodup ∧ ∀ x ∈ l,
      ∃ r ∈ s.received q, ∃ id, Bears F r x.2.sender id x.2.msg ∧
        x.1 = djb2 (snprintf MAX_MSG_LEN (fmtInt x.2.sender ++ id)) := by
  obtain ⟨l, hdel, hnodup, hl⟩ := exists_keyed ((s.received q).map (reading F.verify F.maxRank))
  refine ⟨l, by rw [AplState.link, aplRun_eq, hdel], hnodup, fun x hx => ?_⟩
  obtain ⟨r, hr, hread⟩ := List.mem_map.mp (hl x hx).1
  exact ⟨r, hr, reading_accepted hread⟩

/-- What is known of a message with a good signature in a run without forgeries. -/
theorem signed_of_bears (h : Run (aplSystem F) ok evs s) (hok : ∀ s e, ok s e → Unforged F s e) {q p : ℤ}
    {r : Received} (hr : r ∈ s.received q) (hp : F.correct p = true) {id m : CString}
    (hb : Bears F r p id m) : ∃ c ∈ s.calls, c.src = p ∧ c.msg = m := by
  obtain ⟨sig, hoff, hver⟩ := hb.offers
  refine received_of_run (G := fun calls _ r => ∀ p sig m, F.correct p = true → Offers r sig m →
    F.verify p sig m = true → ∃ c ∈ calls, c.src = p ∧ c.msg = m) ?_ (fun s q r h => hok s _ h) h
    q r hr p sig m hp hoff hver
  intro calls c _ r hold p sig m hp hoff hver
  obtain ⟨c', hc', hcall⟩ := hold p sig m hp hoff hver
  exact ⟨c', List.mem_append_left _ hc', hcall⟩

theorem apl_origin (h : Run (aplSystem F) (Unforged F) evs s) {q p : ℤ} {m : CString}
    (hp : F.correct p = true) (hd : ⟨m, p⟩ ∈ (s.link F q).delivered) :
    ∃ c ∈ s.calls, c.src = p ∧ c.msg = m := by
  obtain ⟨l, hdel, -, hl⟩ := delivered_of_received (F := F) s q
  rw [hdel] at hd
  obtain ⟨⟨k, e⟩, hx, rfl⟩ := List.mem_map.mp hd
  obtain ⟨r, hr, id, hb, -⟩ := hl _ hx
  exact signed_of_bears h (fun _ _ h => h) hr hp hb

/-- Each delivery of `m` from `p` is recorded under the id of a call of its own. -/
theorem apl_unrepeated (h : Run (aplSystem F) (fun s e => Unforged F s e ∧ Unaltered F s e) evs s) :
    Unrepeated F s := by
  intro q p m hp
  obtain ⟨l, hdel, hnodup, hl⟩ := delivered_of_received (F := F) s q
  have hcall : ∀ r ∈ s.received q, ∀ id, Bears F r p id m →
      ∃ c ∈ s.calls, c.src = p ∧ c.dst = q ∧ c.msg = m ∧ c.uuid = id := by
    refine received_of_run (G := fun calls q r => ∀ id, Bears F r p id m →
      ∃ c ∈ calls, c.src = p ∧ c.dst = q ∧ c.msg = m ∧ c.uuid = id) ?_ (fun s q r hok id hb => ?_) h q
    · intro calls c q r hold id hb
      obtain ⟨c', hc', hcall⟩ := hold id hb
      exact ⟨c', List.mem_append_left _ hc', hcall⟩
    · obtain ⟨sig, hoff, hver⟩ := hb.offers
      exact hok.2 p id m hp hb (hok.1 p sig m hp hoff hver)
  have hcount : (s.link F q).delivered.count ⟨m, p⟩ = (l.filter (·.2 = ⟨m, p⟩)).length := by
    rw [hdel, List.count, List.countP_map, List.countP_eq_length_filter]
    simp only [Function.comp_def, beq_eq_decide]
  have hkeys : (l.filter (·.2 = ⟨m, p⟩)).map Prod.fst ⊆
      (s.calls.filter fun c => c.src = p ∧ c.dst = q ∧ c.msg = m).map
        fun c => djb2 (snprintf MAX_MSG_LEN (fmtInt p ++ c.uuid)) := by
    intro k hk
    obtain ⟨⟨k, e⟩, hx, rfl⟩ := List.mem_map.mp hk
    obtain ⟨hx, he⟩ := List.mem_filter.mp hx
    obtain rfl : e = ⟨m, p⟩ := of_decide_eq_true he
    obtain ⟨r, hr, id, hb, hkey⟩ := hl _ hx
    obtain ⟨c, hc, hsrc, hdst, hmsg, rfl⟩ := hcall r hr id hb
    exact List.mem_map.mpr ⟨c, List.mem_filter.mpr ⟨hc, decide_eq_true ⟨hsrc, hdst, hmsg⟩⟩, hkey.symm⟩
  have hsub : ((l.filter (·.2 = ⟨m, p⟩)).map Prod.fst).Nodup := hnodup.sublist (List.filter_sublist.map _)
  calc (s.link F q).delivered.count ⟨m, p⟩
      = ((l.filter (·.2 = ⟨m, p⟩)).map Prod.fst).length := by rw [hcount, List.length_map]
    _ ≤ _ := (List.subperm_of_subset hsub hkeys).length_le
    _ = _ := by rw [List.length_map, List.countP_eq_length_filter]

end Runs

/-- Peer 1 signs `hi`, with 64 times the byte `0xaa`. -/
def hiKeys (maxRank : ℕ) : Keyring := ⟨maxRank, ∅, fun _ _ => List.replicate crypto_sign_BYTES 0xaa, onlyHi⟩

theorem link_hiKeys (maxRank : ℕ) (s : AplState) (q : ℤ) :
    s.link (hiKeys maxRank) q = run ((s.received q).map (reading onlyHi maxRank)) :=
  aplRun_eq onlyHi maxRank _

/-- The call of peer 1 that sends `hi` to `q`. -/
def sendHi (q : ℤ) : PlCall := ⟨1, q, ['h', 'i'], List.replicate (UUID_STR_LEN - 1) 'f'⟩

/-- Datagrams arrive only when peer 1 has signed `hi`. -/
def AfterHi (s : AplState) : AplEvent → Prop
  | .arrive _ _ => ∃ c ∈ s.calls, c.src = 1 ∧ c.msg = ['h', 'i']
  | _ => True

instance (s : AplState) : (e : AplEvent) → Decidable (AfterHi s e)
  | .send _ => isTrue trivial
  | .timeout _ => isTrue trivial
  | .arrive _ _ => inferInstanceAs (Decidable (∃ c ∈ s.calls, _ ∧ _))

theorem unforged_of_afterHi {maxRank : ℕ} {s : AplState} {e : AplEvent} (h : AfterHi s e) :
    Unforged (hiKeys maxRank) s e := by
  cases e with
  | arrive q r =>
    intro p sig m _ _ hver
    obtain ⟨⟨rfl, -⟩, rfl⟩ : (p = 1 ∧ sig = List.replicate crypto_sign_BYTES 0xaa) ∧ m = ['h', 'i'] := by
      simpa [hiKeys, onlyHi] using hver
    exact h
  | _ => trivial

theorem apl_origin_of_hi : ∃ s, Run (aplSystem (hiKeys 2)) (Unforged (hiKeys 2))
      [.send (sendHi 2), .timeout 1, .arrive 2 (signedHi 'a')] s ∧
    ⟨['h', 'i'], 1⟩ ∈ (s.link (hiKeys 2) 2).delivered ∧ ∃ c ∈ s.calls, c.src = 1 ∧ c.msg = ['h', 'i'] := by
  obtain ⟨s, hrun, hs⟩ : ∃ s, Run (aplSystem (hiKeys 2)) AfterHi
      [.send (sendHi 2), .timeout 1, .arrive 2 (signedHi 'a')] s ∧
      (run ((s.received 2).map (reading onlyHi 2))).delivered = [⟨['h', 'i'], 1⟩] :=
    exists_run_of_exec (fun s : AplState => (run ((s.received 2).map (reading onlyHi 2))).delivered)
      (by decide +kernel)
  have hrun' := hrun.weaken fun _ _ h => (unforged_of_afterHi h : Unforged (hiKeys 2) _ _)
  have hd : ⟨['h', 'i'], 1⟩ ∈ (s.link (hiKeys 2) 2).delivered := by
    rw [link_hiKeys, hs]
    simp
  exact ⟨s, hrun', hd, apl_origin hrun' (by decide) hd⟩

/-- What peer 1 sends to 3 reaches 2. -/
theorem apl_redirects : ¬ ∀ F evs s, Run (aplSystem F) (Unforged F) evs s → Authentic F s := by
  intro H
  obtain ⟨s, hrun, hs⟩ : ∃ s, Run (aplSystem (hiKeys 3)) AfterHi
      [.send (sendHi 3), .arrive 2 (signedHi 'a')] s ∧
      ((run ((s.received 2).map (reading onlyHi 3))).delivered, s.calls) = ([⟨['h', 'i'], 1⟩], [sendHi 3]) :=
    exists_run_of_exec (fun s : AplState => ((run ((s.received 2).map (reading onlyHi 3))).delivered, s.calls))
      (by decide +kernel)
  obtain ⟨hdel, hcalls⟩ := Prod.mk.inj hs
  obtain ⟨c, hc, -, hdst, -⟩ := H _ _ s (hrun.weaken fun _ _ => unforged_of_afterHi) 2 1 ['h', 'i'] (by decide)
    (by rw [link_hiKeys, hdel]; simp)
  rw [hcalls, List.mem_singleton] at hc
  rw [hc] at hdst
  exact absurd hdst (by decide)

/-- The fields in front of the signature can be read in one way only. -/
theorem bears_signedHi {maxRank : ℕ} {p : ℤ} {id m : CString} (h : Bears (hiKeys maxRank) (signedHi 'a') p id m) :
    p = 1 ∧ id = (sendHi 2).uuid ∧ m = ['h', 'i'] := by
  obtain ⟨rank, sep, hex, bin, post, hbuf, hsep, hcomma, hnul, hid, -, -, -, hver⟩ := h
  obtain ⟨⟨rfl, -⟩, rfl⟩ : (p = 1 ∧ _ = List.replicate crypto_sign_BYTES 0xaa) ∧ m = ['h', 'i'] := by
    simpa [hiKeys, onlyHi] using hver
  refine ⟨rfl, ?_, rfl⟩
  obtain ⟨rest, hrest⟩ : ∃ rest, (signedHi 'a').buffer = ['1'] ++ ',' :: ((sendHi 2).uuid ++ ',' :: rest) :=
    ⟨(signedHi 'a').buffer.drop (UUID_STR_LEN + 2), by decide +kernel⟩
  rw [hrest] at hbuf
  have hstop : ∀ c ∈ rank, ¬ (c = ',' ∨ c = NUL) := by
    rintro c hc (rfl | rfl)
    · exact hcomma hc
    · exact hnul hc
  have hone : ∀ c ∈ ['1'], ¬ (c = ',' ∨ c = NUL) := by simp [NUL]
  have huuid : ∀ c ∈ (sendHi 2).uuid, c ≠ ',' := fun c hc => by
    rw [List.eq_of_mem_replicate hc]
    decide
  obtain ⟨-, -, htail⟩ := append_cons_inj hone (.inl rfl) hstop hsep hbuf
  exact (append_cons_inj huuid rfl (fun c hc hs => hid (hs ▸ hc)) rfl htail).1.symm

/-- Only copies of the datagram of a call arrive, where they should. -/
def CopiesOfHi (s : AplState) : AplEvent → Prop
  | .arrive q r => r = signedHi 'a' ∧ sendHi q ∈ s.calls
  | _ => True

deriving instance DecidableEq for Received

instance (s : AplState) : (e : AplEvent) → Decidable (CopiesOfHi s e)
  | .send _ => isTrue trivial
  | .timeout _ => isTrue trivial
  | .arrive _ _ => inferInstanceAs (Decidable (_ ∧ _))

theorem unaltered_of_copiesOfHi {maxRank : ℕ} {s : AplState} {e : AplEvent} (h : CopiesOfHi s e) :
    Unforged (hiKeys maxRank) s e ∧ Unaltered (hiKeys maxRank) s e := by
  cases e with
  | arrive q r =>
    obtain ⟨rfl, hc⟩ := h
    refine ⟨unforged_of_afterHi ⟨_, hc, rfl, rfl⟩, fun p id m _ hb _ => ?_⟩
    obtain ⟨rfl, rfl, rfl⟩ := bears_signedHi hb
    exact ⟨_, hc, rfl, rfl, rfl, rfl⟩
  | _ => exact ⟨trivial, trivial⟩

theorem apl_unrepeated_hi : ∃ s, Run (aplSystem (hiKeys 2))
      (fun s e => Unforged (hiKeys 2) s e ∧ Unaltered (hiKeys 2) s e)
      [.send (sendHi 2), .arrive 2 (signedHi 'a'), .timeout 1, .arrive 2 (signedHi 'a')] s ∧
    (s.link (hiKeys 2) 2).delivered = [⟨['h', 'i'], 1⟩] ∧ Unrepeated (hiKeys 2) s := by
  obtain ⟨s, hrun, hs⟩ : ∃ s, Run (aplSystem (hiKeys 2)) CopiesOfHi
      [.send (sendHi 2), .arrive 2 (signedHi 'a'), .timeout 1, .arrive 2 (signedHi 'a')] s ∧
      (run ((s.received 2).map (reading onlyHi 2))).delivered = [⟨['h', 'i'], 1⟩] :=
    exists_run_of_exec (fun s : AplState => (run ((s.received 2).map (reading onlyHi 2))).delivered)
      (by decide +kernel)
  have hrun' := hrun.weaken fun _ _ h => (unaltered_of_copiesOfHi h : Unforged (hiKeys 2) _ _ ∧ Unaltered (hiKeys 2) _ _)
  exact ⟨s, hrun', by rw [link_hiKeys, hs], apl_unrepeated hrun'⟩

/-- The datagram of peer 1 with another id. -/
def renumberedHi : Received where
  bytes := ['1', ','] ++ List.replicate (UUID_STR_LEN - 1) 'e' ++ ',' ::
    List.replicate (SIG_HEX_LEN - 1) 'a' ++ [',', 'h', 'i']
  buf := []
  id := [NUL]
  sig := []

/-- One message of peer 1 is delivered twice. -/
theorem apl_repeats : ¬ ∀ F evs s, Run (aplSystem F) (Unforged F) evs s → Unrepeated F s := by
  intro H
  obtain ⟨s, hrun, hs⟩ : ∃ s, Run (aplSystem (hiKeys 2)) AfterHi
      [.send (sendHi 2), .arrive 2 (signedHi 'a'), .arrive 2 renumberedHi] s ∧
      ((run ((s.received 2).map (reading onlyHi 2))).delivered, s.calls) =
        ([⟨['h', 'i'], 1⟩, ⟨['h', 'i'], 1⟩], [sendHi 2]) :=
    exists_run_of_exec (fun s : AplState => ((run ((s.received 2).map (reading onlyHi 2))).delivered, s.calls))
      (by decide +kernel)
  obtain ⟨hdel, hcalls⟩ := Prod.mk.inj hs
  have hle := H _ _ s (hrun.weaken fun _ _ => unforged_of_afterHi) 2 1 ['h', 'i'] (by decide)
  rw [link_hiKeys, hdel, hcalls] at hle
  exact absurd hle (by decide)

end DSA

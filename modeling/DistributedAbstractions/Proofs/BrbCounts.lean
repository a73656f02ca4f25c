import DistributedAbstractions.Lib.Inbox
import DistributedAbstractions.Proofs.BrbCertificates

/-! Whom the two lists of one peer of the Byzantine broadcast count. The scans leave out index 0, so that
the peer that was the first to send is counted again the next time it does. -/

namespace DSA

open CLib Inbox Net

/-- What a scan and the append behind it do to a list. -/
def collect (list : List ReadyEntry) (e : ReadyEntry) : List ReadyEntry :=
  if seen list e.peerRank then list else list ++ [e]

/-- The same with a scan of the whole list. -/
def collectAll (list : List ReadyEntry) (e : ReadyEntry) : List ReadyEntry :=
  if list.any (·.peerRank = e.peerRank) then list else list ++ [e]

theorem collect_of_unseen {l : List ReadyEntry} {e : ReadyEntry} (h : seen l e.peerRank = false) :
    collect l e = l ++ [e] := by
  rw [collect, h]
  rfl

theorem collect_of_seen {l : List ReadyEntry} {e : ReadyEntry} (h : seen l e.peerRank = true) :
    collect l e = l := by
  rw [collect, if_pos h]

theorem foldl_collect_cons (e : ReadyEntry) (xs l : List ReadyEntry) :
    xs.foldl collect (e :: l) = e :: xs.foldl collectAll l := by
  induction xs generalizing l with
  | nil => rfl
  | cons x xs ih =>
    have hstep : collect (e :: l) x = e :: collectAll l x := by
      unfold collect collectAll
      rw [show seen (e :: l) x.peerRank = l.any (·.peerRank = x.peerRank) from rfl]
      split_ifs
      · rfl
      · rfl
    rw [List.foldl_cons, hstep, ih, List.foldl_cons]

theorem foldl_collectAll (xs : List ReadyEntry) : ((xs.foldl collectAll []).map (·.peerRank)).Nodup ∧
    (∀ q, q ∈ (xs.foldl collectAll []).map (·.peerRank) ↔ q ∈ xs.map (·.peerRank)) ∧
    (xs.foldl collectAll []).Sublist xs := by
  induction xs using List.reverseRecOn with
  | nil => exact ⟨List.nodup_nil, fun q => Iff.rfl, List.Sublist.refl _⟩
  | append_singleton xs x ih =>
    obtain ⟨hnodup, hmem, hsub⟩ := ih
    rw [List.foldl_append, List.foldl_cons, List.foldl_nil]
    have hany : (xs.foldl collectAll []).any (·.peerRank = x.peerRank) = true ↔
        x.peerRank ∈ (xs.foldl collectAll []).map (·.peerRank) := by
      simp [List.any_eq_true]
    rw [collectAll]
    split_ifs with h
    · refine ⟨hnodup, fun q => ?_, hsub.trans (List.sublist_append_left _ _)⟩
      have hx := (hmem _).mp (hany.mp h)
      rw [hmem, List.map_append, List.mem_append, List.map_singleton, List.mem_singleton]
      exact ⟨.inl, fun hq => hq.elim id fun hq => hq ▸ hx⟩
    · refine ⟨?_, fun q => ?_, hsub.append (List.Sublist.refl _)⟩
      · rw [List.map_append, List.map_singleton, nodup_append_singleton]
        exact ⟨mt hany.mpr h, hnodup⟩
      · rw [List.map_append, List.map_append, List.mem_append, List.mem_append, ← hmem]

/-- The peers in a list are distinct if the first of them has one entry to collect. -/
theorem nodup_collect_iff (xs : List ReadyEntry) : ((xs.foldl collect []).map (·.peerRank)).Nodup ↔
    ∀ e rest, xs = e :: rest → ∀ e' ∈ rest, e'.peerRank ≠ e.peerRank := by
  cases xs with
  | nil => exact iff_of_true List.nodup_nil fun e rest h => by cases h
  | cons e xs =>
    obtain ⟨hnodup, hmem, -⟩ := foldl_collectAll xs
    have hstart : (e :: xs).foldl collect [] = e :: xs.foldl collectAll [] := foldl_collect_cons e xs []
    rw [hstart, List.map_cons, List.nodup_cons, hmem]
    constructor
    · rintro ⟨hnew, -⟩ _ _ heq e' he' hpeer
      obtain ⟨rfl, rfl⟩ := List.cons.inj heq
      exact hnew (hpeer ▸ List.mem_map_of_mem he')
    · intro h
      refine ⟨fun hin => ?_, hnodup⟩
      obtain ⟨e', he', hpeer⟩ := List.mem_map.mp hin
      exact h e xs rfl e' he' hpeer

theorem sublist_collect (xs : List ReadyEntry) : (xs.foldl collect []).Sublist xs := by
  cases xs with
  | nil => exact List.Sublist.refl _
  | cons e xs =>
    have hstart : (e :: xs).foldl collect [] = e :: xs.foldl collectAll [] := foldl_collect_cons e xs []
    rw [hstart]
    exact (foldl_collectAll xs).2.2.cons_cons e

theorem foldl_codeEntries (ok : ℤ → Bool) (P : CString) (q : ℤ) (c : CString) (l : List ReadyEntry) :
    (codeEntries c [(ok, ⟨P, q⟩)]).foldl collect l =
      (tryParseMessage P c).elim l fun body => collect l ⟨q, body⟩ := by
  rw [codeEntries, List.filterMap_cons]
  cases tryParseMessage P c <;> rfl

theorem lists_brbStep (b : Brb) (x : (ℤ → Bool) × Deliver) :
    (brbStep b x).1.echos = (codeEntries ECHO_CODE [x]).foldl collect b.echos ∧
      (brbStep b x).1.readys = (codeEntries READY_CODE [x]).foldl collect b.readys := by
  obtain ⟨ok, P, q⟩ := x
  rw [foldl_codeEntries, foldl_codeEntries]
  have hout := brbCallback_outcome ok b q P
  change (brbCallback b ok ⟨P, q⟩).1.echos = _ ∧ (brbCallback b ok ⟨P, q⟩).1.readys = _
  generalize (brbCallback b ok ⟨P, q⟩).1 = b' at hout ⊢
  generalize (brbCallback b ok ⟨P, q⟩).2 = effects at hout
  cases hout with
  | ignored hs he hr =>
    constructor
    · cases hP : tryParseMessage P ECHO_CODE with
      | none => rfl
      | some body => exact (collect_of_seen (he body hP)).symm
    · cases hP : tryParseMessage P READY_CODE with
      | none => rfl
      | some body => exact (collect_of_seen (hr body hP)).symm
  | echoed body hP =>
    rw [tryParseMessage_eq_none (by decide) codes_ne.1 hP, tryParseMessage_eq_none (by decide) codes_ne.2.1 hP]
    exact ⟨rfl, rfl⟩
  | echoCounted body hP hn | echoQuorum body hP hn =>
    rw [hP, tryParseMessage_eq_none (by decide) codes_ne.2.2 hP]
    exact ⟨(collect_of_unseen hn).symm, rfl⟩
  | delivered body hP hn | amplified body hP hn | readyCounted body hP hn =>
    rw [hP, tryParseMessage_eq_none (by decide) codes_ne.2.2.symm hP]
    exact ⟨rfl, (collect_of_unseen hn).symm⟩

section Run

variable (config : BrbConfig) (es : List ((ℤ → Bool) × Deliver))

theorem lists_of_run : (Machine.state brbStep (brbInit config) es).echos = (codeEntries ECHO_CODE es).foldl collect [] ∧
    (Machine.state brbStep (brbInit config) es).readys = (codeEntries READY_CODE es).foldl collect [] := by
  refine @Machine.invariant _ _ _ brbStep (brbInit config) (fun es b _ =>
    b.echos = (codeEntries ECHO_CODE es).foldl collect [] ∧ b.readys = (codeEntries READY_CODE es).foldl collect [])
    ⟨rfl, rfl⟩ (fun es x b _ ⟨hechos, hreadys⟩ => ?_) es
  have hsnoc (c : CString) : codeEntries c (es ++ [x]) = codeEntries c es ++ codeEntries c [x] :=
    List.filterMap_append
  obtain ⟨hechos', hreadys'⟩ := lists_brbStep b x
  rw [hechos', hreadys', hsnoc, hsnoc, List.foldl_append, List.foldl_append, hechos, hreadys]
  exact ⟨rfl, rfl⟩

/-- Where no peer has two entries, each one that counts for a body is another peer that has sent it. -/
theorem getCount_le_card {code : CString} {l : List ReadyEntry} (hsub : l.Sublist (codeEntries code es))
    (hnodup : (l.map (·.peerRank)).Nodup) (body : CString) : getCount l body ≤ (sendersOf code es body).card := by
  rw [← card_voters hnodup]
  apply Finset.card_le_card
  intro q hq
  change q ∈ voters (codeEntries code es) body
  exact mem_voters.mpr (hsub.subset (mem_voters.mp hq))

/-- Peers are counted once if and only if the first sender of an ECHO and that of a READY send no other. -/
theorem counts_once_iff : CountsOnce es (Machine.state brbStep (brbInit config) es) ↔
    FirstOnce ECHO_CODE es ∧ FirstOnce READY_CODE es := by
  obtain ⟨hechos, hreadys⟩ := lists_of_run config es
  constructor
  · intro h
    exact ⟨(nodup_collect_iff _).mp (hechos ▸ h.echo_peers), (nodup_collect_iff _).mp (hreadys ▸ h.ready_peers)⟩
  · intro ⟨hecho, hready⟩
    have hechoPeers := (nodup_collect_iff _).mpr hecho
    have hreadyPeers := (nodup_collect_iff _).mpr hready
    rw [← hechos] at hechoPeers
    rw [← hreadys] at hreadyPeers
    exact ⟨hechoPeers, hreadyPeers, getCount_le_card es (hechos ▸ sublist_collect _) hechoPeers,
      getCount_le_card es (hreadys ▸ sublist_collect _) hreadyPeers⟩

end Run

/-- One peer sends the same ECHO twice. -/
theorem first_counted_twice : ¬ ∀ config es, CountsOnce es (Machine.state brbStep (brbInit config) es) := by
  intro h
  have hcount := (h ⟨1, 1, 4⟩ [(fun _ => true, ⟨payload ECHO_CODE ['a'], 4⟩),
    (fun _ => true, ⟨payload ECHO_CODE ['a'], 4⟩)]).echo_count ['a']
  exact absurd hcount (by decide +kernel)

end DSA

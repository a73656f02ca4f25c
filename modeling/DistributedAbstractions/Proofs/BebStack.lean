import DistributedAbstractions.Proofs.StackDelivery

/-! Best-effort broadcast over its stack: a request is sent to everybody once, and what arrives is delivered
once. -/

namespace DSA

open CLib Filter Inbox Net Trans

abbrev BebProc := Proc Beb CString CString Deliver

def heardOf : Input CString CString → Option Deliver
  | .call _ => none
  | .receive sender msg => some ⟨msg.take MAX_MSG_LEN, sender⟩

theorem take_eq_iff {m m' : CString} (hm : m.length < MAX_MSG_LEN) : m'.take MAX_MSG_LEN = m ↔ m' = m := by
  constructor
  · intro h
    have hlen := congrArg List.length h
    rw [List.length_take] at hlen
    rw [← h, List.take_of_length_le (by omega)]
  · rintro rfl
    exact List.take_of_length_le hm.le

theorem count_map_take {m : CString} (hm : m.length < MAX_MSG_LEN) (ms : List CString) :
    (ms.map (·.take MAX_MSG_LEN)).count m = ms.count m := by
  induction ms with
  | nil => rfl
  | cons m' ms ih => simp [List.count_cons, ih, take_eq_iff hm]

theorem count_heardOf {m : CString} (hm : m.length < MAX_MSG_LEN) (p : ℤ) (is : List (Input CString CString)) :
    (is.filterMap heardOf).count ⟨m, p⟩ = is.count (.receive p m) := by
  induction is with
  | nil => rfl
  | cons i is ih =>
    cases i with
    | call m' =>
      rw [List.filterMap_cons_none rfl, ih, List.count_cons_of_ne (by simp)]
    | receive q m' =>
      rw [List.filterMap_cons_some (show heardOf (.receive q m') = some _ from rfl), List.count_cons,
        List.count_cons, ih]
      simp [take_eq_iff hm, and_comm]

section Local

variable {n : ℕ}

theorem count_sendLoop (msg m : CString) (q : ℤ) :
    ((sendLoop (fun _ => true) msg (ranks n) : List (Effect CString Deliver) × ℤ).1).count (.send q m) =
      [msg].count m * (ranks n).count q := by
  rw [sendLoop_of_ok fun _ _ => rfl]
  by_cases hm : msg = m
  · subst hm
    have hinj : Function.Injective fun r => (Effect.send r msg : Effect CString Deliver) :=
      fun r r' h => (Effect.send.inj h).1
    rw [List.count_singleton_self, Nat.one_mul]
    exact List.count_map_of_injective (ranks n) _ hinj q
  · rw [List.count_singleton, if_neg (by simpa using hm), Nat.zero_mul]
    refine List.count_eq_zero.mpr fun hmem => hm ?_
    obtain ⟨r, -, hr⟩ := List.mem_map.mp hmem
    exact (Effect.send.inj hr).2

/-- The history of a process follows from its inputs. -/
structure BebLocal (n : ℕ) (l : BebProc) : Prop where
  maxRank_eq : l.state.maxRank = n
  sends : ∀ q m, l.effects.count (.send q m) =
    ((calls l.inputs).map (·.take MAX_MSG_LEN)).count m * (ranks n).count q
  delivers : indications l.effects = l.inputs.filterMap heardOf

theorem BebLocal.perform {l : BebProc} (h : BebLocal n l) (i : Input CString CString) :
    BebLocal n (l.perform (bebProtocol n) () i) := by
  cases i with
  | call msg =>
    refine ⟨h.maxRank_eq, fun q m => ?_, ?_⟩
    · simp only [Proc.perform, bebProtocol, bebBroadcastTo, h.maxRank_eq, List.count_append, h.sends,
        count_sendLoop]
      simp [calls, Input.call?, List.count_append, Nat.add_mul]
    · simp [Proc.perform, bebProtocol, bebBroadcastTo, h.delivers, heardOf]
  | receive q' msg =>
    have hcalls : calls (l.inputs ++ [.receive q' msg]) = calls l.inputs := by
      rw [calls, List.filterMap_append, List.filterMap_cons_none rfl, List.filterMap_nil, List.append_nil, calls]
    refine ⟨h.maxRank_eq, fun q m => ?_, ?_⟩
    · simp [Proc.perform, bebProtocol, hcalls, h.sends, List.count_append]
    · simp [Proc.perform, bebProtocol, h.delivers, heardOf]

theorem beb_local {ok : State Beb CString CString Deliver → Event Unit CString CString → Prop}
    {evs : List (Event Unit CString CString)} {t : State Beb CString CString Deliver}
    (h : Run (system (bebProtocol n) (crashSetting n)) ok evs t) (p : ℤ) :
    ∃ l, BebLocal n l ∧ Shadow (t.proc p) l :=
  local_invariant (R := fun _ => BebLocal n) (fun _ => ⟨rfl, fun _ _ => by simp [calls], rfl⟩)
    (fun _ _ _ _ _ _ _ _ _ _ ih => ih.perform _) h p

end Local

section Path

variable {w : Socket} {n : ℕ} {A : Finset ℤ} {π : Path (bebStack w n) (BebStackFair n)} (hn : n ≤ INT_MAX)
include hn

theorem path_beb (i : ℕ) : ∃ evs t, Run (system (bebProtocol n) (crashSetting n)) (fun _ _ => True) evs t ∧
    t.proc = (π.state i).proc := by
  obtain ⟨evs, hr⟩ := π.exists_run i
  obtain ⟨evs', t, ht, hshow⟩ := (stack_simulation hn fun _ _ _ _ h => h).run hr
  exact ⟨evs', t, ht, hshow.proc_eq⟩

/-- What is delivered has come through the link, and so it fits. -/
theorem beb_count_le (j : ℕ) (p q : ℤ) (m : CString) :
    (indications ((π.state j).proc q).effects).count ⟨m, p⟩ ≤
      (calls ((π.state j).proc p).inputs).count m := by
  obtain ⟨evs, t, ht, hproc⟩ := path_beb (π := π) hn j
  rw [← hproc]
  obtain ⟨l, hl, hin, heff, -⟩ := beb_local ht q
  have hle : (indications (t.proc q).effects).count ⟨m, p⟩ ≤ ((t.proc q).inputs.filterMap heardOf).count ⟨m, p⟩ := by
    rw [hin, ← hl.delivers]
    exact (heff.sublist.filterMap _).count_le _
  by_cases hm : m.length < MAX_MSG_LEN
  · obtain ⟨l', hl', hin', heff', -⟩ := beb_local ht p
    have hsent : (t.proc p).effects.count (.send q m) ≤ (calls (t.proc p).inputs).count m := by
      refine (heff'.sublist.count_le _).trans ?_
      rw [hl'.sends, count_map_take hm, hin']
      have hone := List.nodup_iff_count_le_one.mp (ranks_nodup n) q
      exact (Nat.mul_le_mul_left _ hone).trans (Nat.mul_one _).le
    rw [count_heardOf hm] at hle
    exact (hle.trans (count_inputs_le rfl rfl ht q p m)).trans hsent
  · have hnone : ((t.proc q).inputs.filterMap heardOf).count ⟨m, p⟩ = 0 := by
      refine List.count_eq_zero.mpr fun hmem => hm ?_
      obtain ⟨i, hi, hheard⟩ := List.mem_filterMap.mp hmem
      cases i with
      | call m' => cases hheard
      | receive x m' =>
        have hcar := (receive_inv ht hi).carried.resolve_right (by simp [crashSetting])
        obtain ⟨rfl, -⟩ := (Deliver.mk.injEq ..).mp (Option.some.inj hheard)
        have hlen := plCarries_length hcar
        simp only at hlen
        rw [List.length_take]
        omega
    omega

variable (hlive : StackLive A π)
include hlive

theorem beb_count_ge {p q : ℤ} (hp : p ∈ A) (hq : q ∈ A) (m : CString) (i : ℕ) : ∀ᶠ j in atTop,
    (calls ((π.state i).proc p).inputs).count m ≤
      (indications ((π.state j).proc q).effects).count ⟨m, p⟩ := by
  have hlocal : ∀ i, ∀ p ∈ A, BebLocal n ((π.state i).proc p) := fun i p hp => by
    obtain ⟨evs, t, ht, hproc⟩ := path_beb (π := π) hn i
    obtain ⟨l, hl, hsh⟩ := beb_local ht p
    rw [hproc] at hsh
    exact hsh.2.2 (hlive.up i p hp) ▸ hl
  have hone : (ranks n).count q = 1 :=
    List.count_eq_one_of_mem (ranks_nodup n) (mem_ranks.mpr (hlive.ranks hq))
  by_cases hm : m.length < MAX_MSG_LEN
  · filter_upwards [count_received hn hlive (fun _ _ _ _ h => h) hp hq m i] with j hj
    rw [(hlocal j q hq).delivers, count_heardOf hm]
    rwa [(hlocal i p hp).sends, count_map_take hm, hone, Nat.mul_one] at hj
  · -- what is too long cannot have been asked for
    have hnone : (calls ((π.state i).proc p).inputs).count m = 0 := by
      refine List.count_eq_zero.mpr fun hcall => hm ?_
      have hsent := (hlocal i p hp).sends q (m.take MAX_MSG_LEN)
      rw [hone, Nat.mul_one] at hsent
      have hpos := List.count_pos_iff.mpr (List.mem_map_of_mem (f := (·.take MAX_MSG_LEN)) hcall)
      have hmade := (path_history (π := π) hn i).made ⟨p, q, m.take MAX_MSG_LEN⟩
      simp only [count_packets, hsent] at hmade
      rw [← hmade] at hpos
      obtain ⟨c, hc, hk⟩ := List.mem_map.mp (List.count_pos_iff.mp hpos)
      have hlen := plCarries_length (k := c.packet) (decide_eq_true ((path_traffic (π := π) hn i).sound c hc).frame)
      rw [hk] at hlen
      simp only [List.length_take] at hlen
      omega
    filter_upwards with j
    omega

theorem beb_correct : BebCorrect A π :=
  ⟨fun _ hp _ hq m i => beb_count_ge hn hlive hp hq m i, fun p q m j => beb_count_le hn j p q m⟩

end Path

/-- A message that is long enough for the link. -/
def longText (c : Char) : CString := uuidOf c ++ [c]

def textArrives (p q : ℤ) (c id : Char) : StackEvent Unit CString :=
  .arrive q (PlCall.copy plainSocket ⟨p, q, longText c, uuidOf id⟩) () [] none

/-- Process 1 of three crashes when process 2 is the last to whom it has sent its message, and process 2 has one
for everybody. -/
def twoTexts : List (StackEvent Unit CString) :=
  [.call 1 () (longText 'x') [uuidOf 'a', uuidOf 'b'] (some 2), textArrives 1 2 'x' 'b',
    .call 2 () (longText 'y') [uuidOf 'c', uuidOf 'd', uuidOf 'e'] none, textArrives 2 2 'y' 'd', .timeout 2 none,
    textArrives 2 3 'y' 'e']

theorem twoTexts_correct : ∃ π : Path (bebStack plainSocket 3) (BebStackFair 3),
    (indications ((π.state 6).proc 2).effects, indications ((π.state 6).proc 3).effects) =
        ([⟨longText 'x', 1⟩, ⟨longText 'y', 2⟩], [⟨longText 'y', 2⟩]) ∧
      BebCorrect {2, 3} π := by
  obtain ⟨s, hrun, hs⟩ : ∃ s, Run (bebStack plainSocket 3) (BebStackFair 3) twoTexts s ∧
      ((indications (s.proc 2).effects, indications (s.proc 3).effects), decide (Arrived plainSocket 3 {2, 3} s)) =
        (([⟨longText 'x', 1⟩, ⟨longText 'y', 2⟩], [⟨longText 'y', 2⟩]), true) :=
    exists_run_of_exec (fun s : BebStack => ((indications (s.proc 2).effects, indications (s.proc 3).effects),
      decide (Arrived plainSocket 3 {2, 3} s))) (by decide +kernel)
  obtain ⟨hind, harrived⟩ := Prod.mk.inj hs
  obtain ⟨π, hlast, hlive⟩ := exists_live_path (by decide) (by decide) hrun (of_decide_eq_true harrived)
  change π.state 6 = s at hlast
  refine ⟨π, ?_, beb_correct (by decide) hlive⟩
  rw [hlast, hind]

end DSA

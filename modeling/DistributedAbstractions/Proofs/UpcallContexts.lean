import DistributedAbstractions.Spec.Upcalls

/-! Every layer calls what was registered last with the context registered with it, except that a uniform
reliable broadcast passes itself. -/

namespace DSA.Upcalls

open CLib Memory Net

/-- The object stays of its type, and it passes itself only if it is a uniform reliable broadcast. -/
def Keeps (c : Component) (out : Component × List Upcall) : Prop :=
  out.1.kind = c.kind ∧ ∀ u ∈ out.2, (u.passes = .self ↔ c.kind = .urb)

section Bodies

variable {c c' : Component} {p : Payload} {out : Component × List Upcall}

theorem keeps_nil (hkind : c'.kind = c.kind) : Keeps c (c', []) := ⟨hkind, fun _ hu => absurd hu List.not_mem_nil⟩

theorem keeps_stored (hkind : c'.kind = c.kind) (hc : decide (c.kind = .urb) = false) {us : List Upcall}
    (hus : ∀ u ∈ us, u.passes = .stored) : Keeps c (c', us) := by
  refine ⟨hkind, fun u hu => iff_of_false ?_ (of_decide_eq_false hc)⟩
  rw [hus u hu]
  decide

theorem keeps_one (hkind : c'.kind = c.kind) (hc : decide (c.kind = .urb) = false) (payload : Payload) :
    Keeps c (c', [.stored payload]) := by
  refine keeps_stored hkind hc fun u hu => ?_
  rw [List.mem_singleton.mp hu]
  rfl

theorem keeps_map {α : Type} (hkind : c'.kind = c.kind) (hc : decide (c.kind = .urb) = false) {f : α → Upcall}
    (hf : ∀ x, (f x).passes = .stored) (xs : List α) : Keeps c (c', xs.map f) := by
  refine keeps_stored hkind hc fun u hu => ?_
  obtain ⟨x, -, rfl⟩ := List.mem_map.mp hu
  exact hf x

theorem keeps_sblWrapper (h : sblWrapper c p = some out) : Keeps c out := by
  unfold sblWrapper at h
  split at h
  · cases h
    exact keeps_one rfl rfl _
  · cases h

theorem keeps_plWrapper (h : plWrapper c p = some out) : Keeps c out := by
  unfold plWrapper at h
  split at h
  · split at h
    · cases h
    · cases h
      exact keeps_nil rfl
    · cases h
      exact keeps_one rfl rfl _
  · cases h

theorem keeps_lplWrapper (h : lplWrapper c p = some out) : Keeps c out := by
  unfold lplWrapper at h
  split at h
  · dsimp only at h
    split at h
    · cases h
      exact keeps_map rfl rfl (fun _ => rfl) _
    · cases h
  · cases h

theorem keeps_aplWrapper {answers : Answers} (h : aplWrapper answers c p = some out) : Keeps c out := by
  unfold aplWrapper at h
  split at h
  · split at h
    · cases h
    · cases h
      exact keeps_nil rfl
    · cases h
      exact keeps_one rfl rfl _
  · cases h

theorem keeps_bebWrapper (h : bebWrapper c p = some out) : Keeps c out := by
  unfold bebWrapper at h
  split at h
  · cases h
    exact keeps_one rfl rfl _
  · cases h

theorem keeps_onDeliveryWrapper (h : onDeliveryWrapper c p = some out) : Keeps c out := by
  unfold onDeliveryWrapper at h
  split at h
  · cases h
    exact keeps_map rfl rfl (fun _ => rfl) _
  · cases h

theorem keeps_onCrashed (h : onCrashed c p = some out) : Keeps c out := by
  unfold onCrashed at h
  split at h
  · cases h
    exact keeps_nil rfl
  · cases h

theorem keeps_urbCallback (h : urbCallback c p = some out) : Keeps c out := by
  unfold urbCallback at h
  split at h
  · cases h
    refine ⟨rfl, fun u hu => iff_of_true ?_ rfl⟩
    obtain ⟨i, -, rfl⟩ := List.mem_map.mp hu
    rfl
  · cases h

theorem keeps_brbCallback {answers : Answers} (h : brbCallback answers c p = some out) : Keeps c out := by
  unfold brbCallback at h
  split at h
  · cases h
    exact keeps_map rfl rfl (fun _ => rfl) _
  · cases h

theorem keeps_pfdCallback (h : pfdCallback c p = some out) : Keeps c out := by
  unfold pfdCallback at h
  split at h
  · cases h
    exact keeps_nil rfl
  · cases h

theorem keeps_epfdCallback (h : epfdCallback c p = some out) : Keeps c out := by
  unfold epfdCallback at h
  split at h
  · cases h
    exact keeps_nil rfl
  · cases h

theorem keeps_mleCallbackOnCrash (h : mleCallbackOnCrash c p = some out) : Keeps c out := by
  unfold mleCallbackOnCrash at h
  split at h
  · cases h
    exact keeps_map rfl rfl (fun _ => rfl) _
  · cases h

theorem keeps_eleWrapper (h : eleWrapper c p = some out) : Keeps c out := by
  unfold eleWrapper at h
  split at h
  · cases h
    exact keeps_nil rfl
  · cases h

theorem keeps_bleCallback (h : bleCallback c p = some out) : Keeps c out := by
  unfold bleCallback at h
  split at h
  · cases h
    exact keeps_map rfl rfl (fun _ => rfl) _
  · cases h

theorem Wrapper.keeps {answers : Answers} (w : Wrapper) (h : w.body answers c p = some out) : Keeps c out := by
  cases w with
  | sbl => exact keeps_sblWrapper h
  | pl => exact keeps_plWrapper h
  | lpl => exact keeps_lplWrapper h
  | apl => exact keeps_aplWrapper h
  | beb => exact keeps_bebWrapper h
  | onDelivery => exact keeps_onDeliveryWrapper h
  | onCrashed => exact keeps_onCrashed h
  | urb => exact keeps_urbCallback h
  | brb => exact keeps_brbCallback h
  | pfd => exact keeps_pfdCallback h
  | epfd => exact keeps_epfdCallback h
  | mle => exact keeps_mleCallbackOnCrash h
  | ele => exact keeps_eleWrapper h
  | ble => exact keeps_bleCallback h

theorem keeps_handleTimeout : Keeps c (handleTimeout c) := by
  unfold handleTimeout
  split
  · exact keeps_map rfl rfl (fun _ => rfl) _
  · refine keeps_map rfl rfl (fun e => ?_) _
    cases e <;> rfl
  · exact keeps_map rfl rfl (fun _ => rfl) _
  · exact keeps_nil rfl

theorem keeps_start : Keeps c (c, start c) := by
  unfold start
  split
  · exact keeps_one rfl rfl _
  · exact keeps_one rfl rfl _
  · exact keeps_one rfl rfl _
  · exact keeps_nil rfl

theorem keeps_complain : Keeps c (complain c, []) := by
  apply keeps_nil
  cases c <;> rfl

end Bodies

section Outcomes

variable {s : Stacks}

/-- What a handler makes of the objects. -/
inductive Visits (s : Stacks) : Stacks → Prop
  | same : Visits s s
  | halted : Visits s s.halt
  | updated {a : ℕ} {o : Object} {out : Component × List Upcall} (ho : s.heap.load a = some o)
      (hkeeps : Keeps o.component out) : Visits s (s.update a o out)

theorem Visits.log {s' : Stacks} (h : Visits s s') : s'.log = s.log := by
  induction h with
  | same => rfl
  | halted => rfl
  | updated => rfl

theorem visits_enter (answers : Answers) (cb : Callback) (payload : Payload) :
    Visits s (s.enter answers cb payload) := by
  unfold Stacks.enter
  split
  · exact .same
  next w _ =>
  dsimp only
  generalize hentered : (do
    let a ← cb.ctx
    let o ← s.heap.load a
    let out ← w.body answers o.component payload
    some (s.update a o out)) = entered
  cases entered with
  | none => exact .halted
  | some s' =>
    obtain ⟨a, -, hentered⟩ := Option.bind_eq_some_iff.mp hentered
    obtain ⟨o, ho, hentered⟩ := Option.bind_eq_some_iff.mp hentered
    obtain ⟨out, hout, hentered⟩ := Option.bind_eq_some_iff.mp hentered
    cases hentered
    exact .updated ho (w.keeps hout)

theorem visits_consume (a : ℕ) (r : Received) : Visits s (s.consume a r) := by
  unfold Stacks.consume
  split
  · next slots ho =>
    split
    · exact .halted
    · exact .same
    · exact .updated ho (keeps_one rfl rfl _)
  · exact .same

/-- An object that handles something other than a callback. -/
theorem visits_elim (a : ℕ) {f : Object → Component × List Upcall} (hf : ∀ o, Keeps o.component (f o)) :
    Visits s ((s.heap.load a).elim s fun o => s.update a o (f o)) := by
  cases ho : s.heap.load a with
  | none => exact .same
  | some o => exact .updated ho (hf o)

/-- The call of `cb` that `r` asks for. -/
def Raise.call (r : Raise) (cb : Callback) : Callback := ⟨cb.fn, Stacks.passed r.source cb r.upcall.passes⟩

def called (s : Stacks) (rest : List Raise) (r : Raise) (cb : Callback) : Stacks :=
  { s with pending := rest, log := s.log ++ [.used (r.source, r.upcall.slot) (r.call cb)] }

inductive CallOutcome (s : Stacks) : Stacks → Prop
  | idle (h : s.pending = []) : CallOutcome s s
  | missing {r : Raise} {rest : List Raise} (hpending : s.pending = r :: rest)
      (hslot : ∀ o, s.heap.load r.source = some o → o.slots r.upcall.slot = none) : CallOutcome s s.halt
  | made {r : Raise} {rest : List Raise} {o : Object} {cb : Callback} {s' : Stacks} (hpending : s.pending = r :: rest)
      (ho : s.heap.load r.source = some o) (hslot : o.slots r.upcall.slot = some cb)
      (hvisits : Visits (called s rest r cb) s') : CallOutcome s s'

theorem callNext_outcome (answers : Answers) : CallOutcome s (s.callNext answers) := by
  unfold Stacks.callNext
  split
  · next hnil => exact .idle hnil
  next r rest hpending =>
  cases hslot : (s.heap.load r.source).bind fun o => o.slots r.upcall.slot with
  | none => exact .missing hpending fun o ho => by rwa [ho, Option.bind_some] at hslot
  | some cb =>
    obtain ⟨o, ho, hcb⟩ := Option.bind_eq_some_iff.mp hslot
    exact .made hpending ho hcb (visits_enter answers _ _)

inductive StepOutcome (s : Stacks) : StackEvent → Stacks → Prop
  | stopped {ev : StackEvent} (h : s.running = false) : StepOutcome s ev s
  | built (i : Init) : StepOutcome s (.init i) (i.perform s).1
  | registered (a : ℕ) (slot : Slot) (cb : Callback) :
      StepOutcome s (.setCallback a slot cb) (s.setCallback a slot cb)
  | called {answers : Answers} {s' : Stacks} (hrunning : s.running = true) (h : CallOutcome s s') :
      StepOutcome s (.call answers) s'
  | visited {ev : StackEvent} {s' : Stacks} (hrunning : s.running = true) (hev : ∀ answers, ev ≠ .call answers)
      (h : Visits s s') : StepOutcome s ev s'

theorem step_outcome (s : Stacks) (ev : StackEvent) : StepOutcome s ev (s.step ev) := by
  unfold Stacks.step
  split
  · next hstopped => exact .stopped (by simpa using hstopped)
  next hrunning =>
  have hrunning : s.running = true := by simpa using hrunning
  cases ev with
  | init i => exact .built i
  | setCallback a slot cb => exact .registered a slot cb
  | call answers => exact .called hrunning (callNext_outcome answers)
  | consume a r =>
    refine .visited hrunning nofun ?_
    dsimp only
    split
    · exact visits_consume a r
    · exact .same
  | timeout a =>
    refine .visited hrunning nofun ?_
    dsimp only
    split
    · exact visits_elim a fun _ => keeps_handleTimeout
    · exact .same
  | start a =>
    refine .visited hrunning nofun ?_
    dsimp only
    split
    · exact visits_elim a fun _ => keeps_start
    · exact .same
  | complain a =>
    refine .visited hrunning nofun ?_
    exact visits_elim a fun _ => keeps_complain

end Outcomes

/-- What is stored in the slots was registered last. -/
structure Wired (s : Stacks) : Prop where
  known : ∀ a slot cb, .set (a, slot) cb ∈ s.log → a < s.heap.length
  slots : ∀ a o slot, s.heap.load a = some o → o.slots slot = Latest.last (a, slot) s.log
  pending : ∀ r ∈ s.pending, ∃ o, s.heap.load r.source = some o ∧
    (r.upcall.passes = .self ↔ o.component.kind = .urb)
  halted : s.running = false → s.pending = []

theorem wired_empty : Wired empty where
  known _ _ _ h := absurd h List.not_mem_nil
  slots a _ _ h := absurd (Heap.lt_of_load h) (Nat.not_lt_zero a)
  pending _ h := absurd h List.not_mem_nil
  halted _ := rfl

section Primitives

variable {s : Stacks}

theorem Wired.calloc (h : Wired s) (c : Component) : Wired (s.calloc c).1 := by
  refine ⟨fun a slot cb hset => ?_, fun a o slot ha => ?_, fun r hr => ?_, h.halted⟩
  · have hlt := h.known a slot cb hset
    change a < (s.heap.alloc _).length
    rw [Heap.length_alloc]
    omega
  · have hlt := Heap.lt_of_load ha
    change a < (s.heap.alloc _).length at hlt
    rw [Heap.length_alloc] at hlt
    rcases Nat.lt_or_eq_of_le (Nat.le_of_lt_succ hlt) with hlt | rfl
    · exact h.slots a o slot ((Heap.load_alloc hlt).symm.trans ha)
    · obtain rfl := Option.some.inj (Heap.load_alloc_self.symm.trans ha)
      exact (Latest.last_eq_none fun cb hset => absurd (h.known _ slot cb hset) (Nat.lt_irrefl _)).symm
  · obtain ⟨o, ho, hpasses⟩ := h.pending r hr
    exact ⟨o, Heap.load_alloc_of_load ho, hpasses⟩

theorem Wired.setCallback (h : Wired s) (a : ℕ) (slot : Slot) (cb : Callback) :
    Wired (s.setCallback a slot cb) := by
  unfold Stacks.setCallback
  split
  · exact h
  next o ho =>
  have hlt := Heap.lt_of_load ho
  refine ⟨fun a' slot' cb' hset => ?_, fun a' o' slot' ha' => ?_, fun r hr => ?_, h.halted⟩
  · rw [List.length_set]
    rcases List.mem_append.mp hset with hset | hset
    · exact h.known a' slot' cb' hset
    · cases List.mem_singleton.mp hset
      exact hlt
  · by_cases haa : a = a'
    · subst haa
      obtain rfl := Option.some.inj ((Heap.load_set_self hlt).symm.trans ha')
      change Function.update o.slots slot (some cb) slot' = _
      by_cases hss : slot = slot'
      · rw [← hss, Function.update_self, Latest.last_set_self]
      · rw [Function.update_of_ne (Ne.symm hss), Latest.last_set_ne (by simp [hss]), h.slots a o slot' ho]
    · rw [Latest.last_set_ne (by simp [haa])]
      exact h.slots a' o' slot' ((Heap.load_set_ne haa).symm.trans ha')
  · obtain ⟨o', ho', hpasses⟩ := h.pending r hr
    by_cases har : a = r.source
    · subst har
      obtain rfl := Option.some.inj (ho.symm.trans ho')
      exact ⟨_, Heap.load_set_self hlt, hpasses⟩
    · exact ⟨o', (Heap.load_set_ne har).trans ho', hpasses⟩

theorem faithful_setCallback {a : ℕ} {slot : Slot} {cb : Callback} :
    Latest.Faithful (s.setCallback a slot cb).log ↔ Latest.Faithful s.log := by
  unfold Stacks.setCallback
  split
  · rfl
  · exact Latest.faithful_append_set

theorem Wired.update (h : Wired s) {a : ℕ} {o : Object} {out : Component × List Upcall}
    (ho : s.heap.load a = some o) (hkeeps : Keeps o.component out) (hrunning : s.running = true) :
    Wired (s.update a o out) := by
  have hlt := Heap.lt_of_load ho
  have hkind : ∀ b o', s.heap.load b = some o' → ∃ o'', (s.update a o out).heap.load b = some o'' ∧
      o''.component.kind = o'.component.kind := by
    intro b o' ho'
    by_cases hab : a = b
    · subst hab
      obtain rfl := Option.some.inj (ho.symm.trans ho')
      exact ⟨_, Heap.load_set_self hlt, hkeeps.1⟩
    · exact ⟨o', (Heap.load_set_ne hab).trans ho', rfl⟩
  refine ⟨fun b slot cb hset => ?_, fun b o' slot hb => ?_, fun r hr => ?_, fun hhalted => ?_⟩
  · change b < (s.heap.set a _).length
    rw [List.length_set]
    exact h.known b slot cb hset
  · by_cases hab : a = b
    · subst hab
      obtain rfl := Option.some.inj ((Heap.load_set_self hlt).symm.trans hb)
      exact h.slots a o slot ho
    · exact h.slots b o' slot ((Heap.load_set_ne hab).symm.trans hb)
  · rcases List.mem_append.mp hr with hr | hr
    · obtain ⟨u, hu, rfl⟩ := List.mem_map.mp hr
      obtain ⟨o'', ho'', hkind⟩ := hkind a o ho
      refine ⟨o'', ho'', ?_⟩
      rw [hkind]
      exact hkeeps.2 u hu
    · obtain ⟨o', ho', hpasses⟩ := h.pending r hr
      obtain ⟨o'', ho'', hkind⟩ := hkind r.source o' ho'
      exact ⟨o'', ho'', by rw [hkind]; exact hpasses⟩
  · exact absurd (hhalted.symm.trans hrunning) (by decide)

theorem Wired.visits (h : Wired s) (hrunning : s.running = true) {s' : Stacks} (hvisits : Visits s s') : Wired s' := by
  induction hvisits with
  | same => exact h
  | halted => exact ⟨h.known, h.slots, fun _ hr => absurd hr List.not_mem_nil, fun _ => rfl⟩
  | updated ho hkeeps => exact h.update ho hkeeps hrunning

end Primitives

section Inits

/-- An init function keeps the objects wired and calls nothing. -/
def Builds (s : Stacks) (out : Stacks × ℕ) : Prop :=
  (Wired s → Wired out.1) ∧ (Latest.Faithful out.1.log ↔ Latest.Faithful s.log)

variable {s : Stacks}

theorem builds_calloc (c : Component) : Builds s (s.calloc c) := ⟨fun h => h.calloc c, Iff.rfl⟩

theorem Builds.trans {below out : Stacks × ℕ} (h : Builds s below) (h' : Builds below.1 out) : Builds s out :=
  ⟨fun hs => h'.1 (h.1 hs), h'.2.trans h.2⟩

theorem Builds.register {self : Stacks × ℕ} (h : Builds s self) (below : ℕ) (w : Wrapper) :
    Builds s (Stacks.register self below w) :=
  ⟨fun hs => (h.1 hs).setCallback below .cb _, faithful_setCallback.trans h.2⟩

theorem Builds.layer {below : Stacks × ℕ} (h : Builds s below) (c : Component) (w : Wrapper) :
    Builds s (Stacks.layer below c w) :=
  (h.trans (builds_calloc c)).register below.2 w

theorem builds_plInit : Builds s s.plInit := ((builds_calloc _).layer _ _).layer _ _

theorem builds_rbInit (localRank : ℤ) (maxRank : ℕ) : Builds s (s.rbInit localRank maxRank) := by
  have hpfd : Builds s.plInit.1 (s.plInit.1.pfdInit localRank maxRank) := builds_plInit.layer _ _
  have hrb := (builds_plInit.trans hpfd).trans (builds_calloc (.rb ((rbProtocol maxRank).init localRank)))
  exact (hrb.register _ _).register _ _

theorem Init.builds (i : Init) : Builds s (i.perform s) := by
  have hpl : Builds s s.plInit := builds_plInit
  have hapl : ∀ verify maxRank, Builds s (s.aplInit verify maxRank) := fun _ _ => hpl.layer _ _
  have hpfd : ∀ {s : Stacks} localRank maxRank, Builds s (s.pfdInit localRank maxRank) := fun _ _ =>
    builds_plInit.layer _ _
  cases i with
  | fll => exact builds_calloc _
  | sbl => exact (builds_calloc _).layer _ _
  | pl => exact hpl
  | lpl => exact ((builds_calloc _).layer _ _).layer _ _
  | apl verify maxRank => exact hapl verify maxRank
  | beb => exact hpl.layer _ _
  | rb localRank maxRank => exact builds_rbInit localRank maxRank
  | urb localRank maxRank => exact (hpl.layer _ _).layer _ _
  | brb verify config => exact (hapl verify config.maxRank).layer _ _
  | pfd localRank maxRank => exact hpfd localRank maxRank
  | epfd localRank maxRank => exact hpl.layer _ _
  | mle localRank maxRank => exact (hpfd localRank maxRank).layer _ _
  | ele localRank maxRank epoch => exact (builds_calloc _).layer _ _
  | ble verify localRank maxRank maxFaultyPeers => exact (hapl verify maxRank).layer _ _

end Inits

section Steps

variable {s : Stacks}

theorem Wired.called (h : Wired s) (hrunning : s.running = true) {r : Raise} {rest : List Raise}
    (hpending : s.pending = r :: rest) (cb : Callback) : Wired (called s rest r cb) := by
  refine ⟨fun a slot cb' hset => ?_, fun a o slot ha => ?_, fun r' hr' => ?_, fun hhalted => ?_⟩
  · rcases List.mem_append.mp hset with hset | hset
    · exact h.known a slot cb' hset
    · cases List.mem_singleton.mp hset
  · rw [Upcalls.called, Latest.last_used]
    exact h.slots a o slot ha
  · apply h.pending
    rw [hpending]
    exact List.mem_cons_of_mem r hr'
  · exact absurd (hhalted.symm.trans hrunning) (by decide)

theorem call_eq_iff {r : Raise} {cb : Callback} :
    some cb = some (r.call cb) ↔ (r.upcall.passes = .self → cb.ctx = some r.source) := by
  obtain ⟨fn, ctx⟩ := cb
  rw [Raise.call]
  cases r.upcall.passes <;> simp [Stacks.passed]

/-- The next call is as it should be unless a uniform reliable broadcast makes it. -/
theorem Wired.callNext (h : Wired s) (hrunning : s.running = true) {answers : Answers} {s' : Stacks}
    (hout : CallOutcome s s') :
    Wired s' ∧ (Latest.Faithful s'.log ↔ Latest.Faithful s.log ∧ SelfRegistered s (.call answers)) := by
  induction hout with
  | idle hnil =>
    refine ⟨h, (and_iff_left fun r rest hcons => ?_).symm⟩
    cases hnil.symm.trans hcons
  | missing hpending hslot =>
    refine ⟨h.visits hrunning .halted, (and_iff_left fun r rest hcons o ho hurb cb hcb => ?_).symm⟩
    cases hpending.symm.trans hcons
    cases (hslot o ho).symm.trans hcb
  | @made r rest o cb s' hpending ho hslot hvisits =>
    refine ⟨(h.called hrunning hpending cb).visits hrunning hvisits, ?_⟩
    have hlast := h.slots r.source o r.upcall.slot ho
    obtain ⟨o', ho', hpasses⟩ := h.pending r (by rw [hpending]; exact List.mem_cons_self)
    cases ho.symm.trans ho'
    rw [hvisits.log, Upcalls.called, Latest.faithful_append_used, ← hlast, hslot, call_eq_iff, hpasses]
    refine and_congr_right fun _ => ⟨fun hctx r' rest' hcons o' ho' hurb cb' hcb' => ?_, fun hself hurb => ?_⟩
    · cases hpending.symm.trans hcons
      cases ho.symm.trans ho'
      cases hslot.symm.trans hcb'
      exact hctx hurb
    · exact hself r rest hpending o ho hurb cb hslot

theorem selfRegistered_of_ne {ev : StackEvent} (h : ∀ answers, ev ≠ .call answers) : SelfRegistered s ev := by
  cases ev with
  | call answers => exact absurd rfl (h answers)
  | _ => trivial

theorem Wired.step (h : Wired s) (ev : StackEvent) :
    Wired (s.step ev) ∧ (Latest.Faithful (s.step ev).log ↔ Latest.Faithful s.log ∧ SelfRegistered s ev) := by
  have hout := step_outcome s ev
  generalize s.step ev = s' at hout ⊢
  induction hout with
  | @stopped ev hstopped =>
    refine ⟨h, (and_iff_left ?_).symm⟩
    cases ev with
    | call answers =>
      intro r rest hcons
      cases (h.halted hstopped).symm.trans hcons
    | _ => trivial
  | built i =>
    obtain ⟨hwired, hlog⟩ := i.builds (s := s)
    exact ⟨hwired h, hlog.trans (and_iff_left trivial).symm⟩
  | registered a slot cb =>
    exact ⟨h.setCallback a slot cb, faithful_setCallback.trans (and_iff_left trivial).symm⟩
  | called hrunning hcall => exact h.callNext hrunning hcall
  | visited hrunning hev hvisits =>
    rw [hvisits.log]
    exact ⟨h.visits hrunning hvisits, (and_iff_left (selfRegistered_of_ne hev)).symm⟩

theorem run_append_singleton (evs : List StackEvent) (ev : StackEvent) : run (evs ++ [ev]) = (run evs).step ev := by
  rw [run, List.foldl_append]
  rfl

theorem wired_run (evs : List StackEvent) : Wired (run evs) := by
  induction evs using List.reverseRecOn with
  | nil => exact wired_empty
  | append_singleton evs ev ih =>
    rw [run_append_singleton]
    exact (ih.step ev).1

/-- Every call has been of what was registered last, with its context, if and only if every uniform reliable
broadcast that has called its callback was registered as its own context. -/
theorem contexts_faithful_iff (evs : List StackEvent) :
    Latest.Faithful (run evs).log ↔ ∀ pre ev, pre ++ [ev] <+: evs → SelfRegistered (run pre) ev := by
  induction evs using List.reverseRecOn with
  | nil => exact iff_of_true Latest.faithful_nil fun pre ev h => by simp at h
  | append_singleton evs ev ih =>
    rw [run_append_singleton, ((wired_run evs).step ev).2, ih, Inbox.forall_prefix_append_singleton]

end Steps

/-- A uniform reliable broadcast that gets its own message, registered without a context. -/
def urbRun : List StackEvent :=
  [.init (.urb 1 1), .setCallback 4 .cb ⟨.app 0, none⟩,
    .consume 0 ⟨['1', ',', 'u', ',', 'B', 'C', ',', '1', ',', 'v', ',', 'h', 'i'], [], [NUL], []⟩,
    .call ⟨[], fun _ => true⟩, .call ⟨[], fun _ => true⟩, .call ⟨[], fun _ => true⟩, .call ⟨[], fun _ => true⟩]

/-- The callback gets the broadcast instead of a null pointer. -/
theorem context_replaced : ¬ Latest.Faithful (run (urbRun ++ [.call ⟨[], fun _ => true⟩])).log := by
  intro h
  have hlog : (run (urbRun ++ [.call ⟨[], fun _ => true⟩])).log =
      (run urbRun).log ++ [.used (4, .cb) ⟨.app 0, some 4⟩] := rfl
  have hlast := h (run urbRun).log (4, .cb) ⟨.app 0, some 4⟩ (by rw [hlog])
  have hset : Latest.last (4, .cb) (run urbRun).log = some ⟨.app 0, none⟩ := rfl
  cases hset.symm.trans hlast

end DSA.Upcalls

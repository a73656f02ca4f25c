import DistributedAbstractions.Proofs.UpcallContexts

/-! No layer is ever entered with an object of another type, as long as the application registers functions of
its own: a uniform reliable broadcast passes itself, but only to the application. -/

namespace DSA.Upcalls

open CLib Memory Net

/-- The type that the function takes its context for. -/
def Wrapper.own : Wrapper → Kind
  | .sbl => .sbl
  | .pl => .pl
  | .lpl => .lpl
  | .apl => .apl
  | .beb => .beb
  | .onDelivery => .rb
  | .onCrashed => .rb
  | .urb => .urb
  | .brb => .brb
  | .pfd => .pfd
  | .epfd => .epfd
  | .mle => .mle
  | .ele => .ele
  | .ble => .ble

/-- The type of the objects that it is registered at. -/
def Wrapper.below : Wrapper → Kind
  | .sbl => .fll
  | .pl => .sbl
  | .lpl => .sbl
  | .apl => .pl
  | .beb => .pl
  | .onDelivery => .pl
  | .onCrashed => .pfd
  | .urb => .beb
  | .brb => .apl
  | .pfd => .pl
  | .epfd => .pl
  | .mle => .pfd
  | .ele => .fll
  | .ble => .apl

def OwnObject (s : Stacks) (w : Wrapper) (ctx : Ptr) : Prop :=
  ∃ a o, ctx = some a ∧ s.heap.load a = some o ∧ o.component.kind = w.own

/-- The functions of the layers are registered below their objects and called with them. -/
structure Typed (s : Stacks) : Prop where
  slots : ∀ a o slot cb, s.heap.load a = some o → o.slots slot = some cb → ∀ w, cb.fn = .wrapper w →
    o.component.kind = w.below ∧ OwnObject s w cb.ctx
  used : ∀ k cb, .used k cb ∈ s.log → ∀ w, cb.fn = .wrapper w → OwnObject s w cb.ctx

def KindsKept (s s' : Stacks) : Prop :=
  ∀ a o, s.heap.load a = some o → ∃ o', s'.heap.load a = some o' ∧ o'.component.kind = o.component.kind

theorem KindsKept.trans {s s' s'' : Stacks} (h : KindsKept s s') (h' : KindsKept s' s'') : KindsKept s s'' := by
  intro a o ho
  obtain ⟨o', ho', hkind⟩ := h a o ho
  obtain ⟨o'', ho'', hkind'⟩ := h' a o' ho'
  exact ⟨o'', ho'', hkind'.trans hkind⟩

theorem OwnObject.mono {s s' : Stacks} {w : Wrapper} {ctx : Ptr} (hkept : KindsKept s s') (h : OwnObject s w ctx) :
    OwnObject s' w ctx := by
  obtain ⟨a, o, hctx, ho, hkind⟩ := h
  obtain ⟨o', ho', hkind'⟩ := hkept a o ho
  exact ⟨a, o', hctx, ho', hkind'.trans hkind⟩

section Primitives

variable {s : Stacks}

theorem kindsKept_calloc (c : Component) : KindsKept s (s.calloc c).1 :=
  fun _ o ho => ⟨o, Heap.load_alloc_of_load ho, rfl⟩

theorem kindsKept_set {a : ℕ} {o o' : Object} (ho : s.heap.load a = some o)
    (hkind : o'.component.kind = o.component.kind) {pending : List Raise}
    {log : List (Latest.Entry (ℕ × Slot) Callback)} : KindsKept s ⟨s.heap.set a (some o'), pending, log, s.running⟩ := by
  intro b o₁ ho₁
  by_cases hab : a = b
  · subst hab
    cases ho.symm.trans ho₁
    exact ⟨o', Heap.load_set_self (Heap.lt_of_load ho), hkind⟩
  · exact ⟨o₁, (Heap.load_set_ne hab).trans ho₁, rfl⟩

theorem kindsKept_setCallback (a : ℕ) (slot : Slot) (cb : Callback) : KindsKept s (s.setCallback a slot cb) := by
  unfold Stacks.setCallback
  split
  · exact fun b o ho => ⟨o, ho, rfl⟩
  · next o ho =>
    refine kindsKept_set ho ?_
    rfl

theorem Typed.calloc (h : Typed s) (c : Component) : Typed (s.calloc c).1 := by
  have hkept := kindsKept_calloc (s := s) c
  refine ⟨fun a o slot cb ha hcb w hw => ?_, fun k cb hused w hw => (h.used k cb hused w hw).mono hkept⟩
  by_cases hlt : a < s.heap.length
  · obtain ⟨hbelow, hown⟩ := h.slots a o slot cb ((Heap.load_alloc hlt).symm.trans ha) hcb w hw
    exact ⟨hbelow, hown.mono hkept⟩
  · have hnew := Heap.lt_of_load ha
    change a < (s.heap.alloc _).length at hnew
    rw [Heap.length_alloc] at hnew
    obtain rfl : a = s.heap.length := by omega
    cases Heap.load_alloc_self.symm.trans ha
    cases hcb

theorem Typed.setCallback (h : Typed s) {a : ℕ} (slot : Slot) {cb : Callback}
    (hcb : ∀ w, cb.fn = .wrapper w → (∃ o, s.heap.load a = some o ∧ o.component.kind = w.below) ∧ OwnObject s w cb.ctx) :
    Typed (s.setCallback a slot cb) := by
  have hkept := kindsKept_setCallback (s := s) a slot cb
  revert hkept
  unfold Stacks.setCallback
  split
  · exact fun _ => h
  next o ho =>
  intro hkept
  refine ⟨fun b o' slot' cb' hb hcb' w hw => ?_, fun k cb' hused w hw => ?_⟩
  · by_cases hab : a = b
    · subst hab
      cases (Heap.load_set_self (Heap.lt_of_load ho)).symm.trans hb
      change Function.update o.slots slot (some cb) slot' = some cb' at hcb'
      by_cases hss : slot' = slot
      · rw [hss, Function.update_self] at hcb'
        cases hcb'
        obtain ⟨⟨o₁, ho₁, hbelow⟩, hown⟩ := hcb w hw
        cases ho.symm.trans ho₁
        exact ⟨hbelow, hown.mono hkept⟩
      · rw [Function.update_of_ne hss] at hcb'
        obtain ⟨hbelow, hown⟩ := h.slots a o slot' cb' ho hcb' w hw
        exact ⟨hbelow, hown.mono hkept⟩
    · obtain ⟨hbelow, hown⟩ := h.slots b o' slot' cb' ((Heap.load_set_ne hab).symm.trans hb) hcb' w hw
      exact ⟨hbelow, hown.mono hkept⟩
  · rcases List.mem_append.mp hused with hused | hused
    · exact (h.used k cb' hused w hw).mono hkept
    · cases List.mem_singleton.mp hused

theorem Typed.update (h : Typed s) {a : ℕ} {o : Object} {out : Component × List Upcall}
    (ho : s.heap.load a = some o) (hkeeps : Keeps o.component out) : Typed (s.update a o out) := by
  have hkept : KindsKept s (s.update a o out) := kindsKept_set ho hkeeps.1
  refine ⟨fun b o' slot cb hb hcb w hw => ?_, fun k cb hused w hw => (h.used k cb hused w hw).mono hkept⟩
  by_cases hab : a = b
  · subst hab
    cases (Heap.load_set_self (Heap.lt_of_load ho)).symm.trans hb
    obtain ⟨hbelow, hown⟩ := h.slots a o slot cb ho hcb w hw
    exact ⟨hkeeps.1.trans hbelow, hown.mono hkept⟩
  · obtain ⟨hbelow, hown⟩ := h.slots b o' slot cb ((Heap.load_set_ne hab).symm.trans hb) hcb w hw
    exact ⟨hbelow, hown.mono hkept⟩

end Primitives

/-- An init function that returns an object of type `k`. -/
structure Makes (s : Stacks) (out : Stacks × ℕ) (k : Kind) : Prop where
  typed : Typed s → Typed out.1
  kept : KindsKept s out.1
  made : ∃ o, out.1.heap.load out.2 = some o ∧ o.component.kind = k

section Inits

variable {s : Stacks} {k : Kind}

theorem makes_calloc (c : Component) : Makes s (s.calloc c) c.kind :=
  ⟨fun h => h.calloc c, kindsKept_calloc c, _, Heap.load_alloc_self, rfl⟩

theorem Makes.trans {below out : Stacks × ℕ} {k' : Kind} (h : Makes s below k') (h' : Makes below.1 out k) :
    Makes s out k :=
  ⟨fun hs => h'.typed (h.typed hs), h.kept.trans h'.kept, h'.made⟩

theorem Makes.register {self : Stacks × ℕ} {w : Wrapper} (h : Makes s self w.own) {below : ℕ}
    (hbelow : ∃ o, self.1.heap.load below = some o ∧ o.component.kind = w.below) :
    Makes s (Stacks.register self below w) w.own := by
  have hkept := kindsKept_setCallback (s := self.1) below .cb ⟨.wrapper w, some self.2⟩
  obtain ⟨o, ho, hkind⟩ := h.made
  refine ⟨fun hs => (h.typed hs).setCallback .cb fun w' hw' => ?_, h.kept.trans hkept, ?_⟩
  · cases hw'
    exact ⟨hbelow, self.2, o, rfl, ho, hkind⟩
  · obtain ⟨o', ho', hkind'⟩ := hkept self.2 o ho
    exact ⟨o', ho', hkind'.trans hkind⟩

theorem Makes.layer {below : Stacks × ℕ} {w : Wrapper} (h : Makes s below w.below) {c : Component} (hc : c.kind = w.own) :
    Makes s (Stacks.layer below c w) w.own := by
  have hnew : Makes s (below.1.calloc c) w.own := hc ▸ h.trans (makes_calloc c)
  obtain ⟨o, ho, hkind⟩ := h.made
  exact hnew.register ⟨o, Heap.load_alloc_of_load ho, hkind⟩

theorem makes_sblInit : Makes s s.sblInit .sbl := (makes_calloc .fll).layer rfl

theorem makes_plInit : Makes s s.plInit .pl := makes_sblInit.layer rfl

theorem makes_pfdInit (localRank : ℤ) (maxRank : ℕ) : Makes s (s.pfdInit localRank maxRank) .pfd :=
  makes_plInit.layer rfl

theorem makes_aplInit (verify : ℤ → List ℕ → CString → Bool) (maxRank : ℕ) : Makes s (s.aplInit verify maxRank) .apl :=
  makes_plInit.layer rfl

theorem Makes.above {pl pfd : Stacks × ℕ} (hpl : Makes s pl .pl) (hpfd : Makes pl.1 pfd .pfd) {c : Component}
    (hc : c.kind = .rb) :
    Makes s (Stacks.register (Stacks.register (pfd.1.calloc c) pl.2 .onDelivery) pfd.2 .onCrashed) .rb := by
  have hrb : Makes s (pfd.1.calloc c) .rb := hc ▸ (hpl.trans hpfd).trans (makes_calloc c)
  obtain ⟨o, ho, hkind⟩ := hpl.made
  obtain ⟨o', ho', hkind'⟩ := hpfd.kept _ o ho
  have hdelivery := Makes.register (w := .onDelivery) hrb ⟨o', Heap.load_alloc_of_load ho', hkind'.trans hkind⟩
  obtain ⟨d, hd, hdKind⟩ := hpfd.made
  obtain ⟨d', hd', hdKind'⟩ := (kindsKept_calloc c).trans (kindsKept_setCallback pl.2 .cb
    ⟨.wrapper .onDelivery, some (pfd.1.calloc c).2⟩) _ d hd
  exact Makes.register (w := .onCrashed) hdelivery ⟨d', hd', hdKind'.trans hdKind⟩

theorem makes_rbInit (localRank : ℤ) (maxRank : ℕ) : Makes s (s.rbInit localRank maxRank) .rb :=
  makes_plInit.above (makes_pfdInit localRank maxRank) rfl

theorem Init.makes (i : Init) : ∃ k, Makes s (i.perform s) k := by
  cases i with
  | fll => exact ⟨_, makes_calloc .fll⟩
  | sbl => exact ⟨_, makes_sblInit⟩
  | pl => exact ⟨_, makes_plInit⟩
  | lpl => exact ⟨_, makes_sblInit.layer (w := .lpl) rfl⟩
  | apl verify maxRank => exact ⟨_, makes_aplInit verify maxRank⟩
  | beb => exact ⟨_, makes_plInit.layer (w := .beb) rfl⟩
  | rb localRank maxRank => exact ⟨_, makes_rbInit localRank maxRank⟩
  | urb localRank maxRank => exact ⟨_, (makes_plInit.layer (w := .beb) rfl).layer (w := .urb) rfl⟩
  | brb verify config => exact ⟨_, (makes_aplInit verify config.maxRank).layer (w := .brb) rfl⟩
  | pfd localRank maxRank => exact ⟨_, makes_pfdInit localRank maxRank⟩
  | epfd localRank maxRank => exact ⟨_, makes_plInit.layer (w := .epfd) rfl⟩
  | mle localRank maxRank => exact ⟨_, (makes_pfdInit localRank maxRank).layer (w := .mle) rfl⟩
  | ele localRank maxRank epoch => exact ⟨_, (makes_calloc .fll).layer (w := .ele) rfl⟩
  | ble verify localRank maxRank maxFaultyPeers => exact ⟨_, (makes_aplInit verify maxRank).layer (w := .ble) rfl⟩

end Inits

section Steps

variable {s : Stacks}

theorem Wrapper.below_ne_urb (w : Wrapper) : w.below ≠ .urb := by
  cases w <;> decide

theorem Typed.visits (h : Typed s) {s' : Stacks} (hvisits : Visits s s') : Typed s' := by
  induction hvisits with
  | same => exact h
  | halted => exact ⟨h.slots, h.used⟩
  | updated ho hkeeps => exact h.update ho hkeeps

theorem Typed.called (h : Typed s) (hwired : Wired s) {r : Raise} {rest : List Raise} {o : Object} {cb : Callback}
    (hpending : s.pending = r :: rest) (ho : s.heap.load r.source = some o)
    (hslot : o.slots r.upcall.slot = some cb) : Typed (called s rest r cb) := by
  refine ⟨h.slots, fun k cb' hused w hw => ?_⟩
  rcases List.mem_append.mp hused with hused | hused
  · exact h.used k cb' hused w hw
  · cases List.mem_singleton.mp hused
    obtain ⟨hbelow, hown⟩ := h.slots r.source o r.upcall.slot cb ho hslot w hw
    obtain ⟨o', ho', hpasses⟩ := hwired.pending r (by rw [hpending]; exact List.mem_cons_self)
    cases ho.symm.trans ho'
    cases hp : r.upcall.passes with
    | stored =>
      rw [Raise.call, hp]
      exact hown
    | self => exact absurd (hbelow.symm.trans (hpasses.mp hp)) w.below_ne_urb

theorem Typed.callNext (h : Typed s) (hwired : Wired s) {s' : Stacks} (hout : CallOutcome s s') : Typed s' := by
  induction hout with
  | idle => exact h
  | missing => exact h.visits .halted
  | made hpending ho hslot hvisits => exact (h.called hwired hpending ho hslot).visits hvisits

theorem Typed.step (h : Typed s) (hwired : Wired s) {ev : StackEvent}
    (hev : ∀ a slot cb, ev = .setCallback a slot cb → ∃ k, cb.fn = .app k) : Typed (s.step ev) := by
  have hout := step_outcome s ev
  generalize s.step ev = s' at hout ⊢
  induction hout with
  | stopped => exact h
  | built i =>
    obtain ⟨k, hmakes⟩ := i.makes (s := s)
    exact hmakes.typed h
  | registered a slot cb =>
    obtain ⟨k, hk⟩ := hev a slot cb rfl
    refine h.setCallback slot fun w hw => ?_
    cases hk.symm.trans hw
  | called _ hcall => exact h.callNext hwired hcall
  | visited _ _ hvisits => exact h.visits hvisits

theorem typed_run (evs : List StackEvent) (h : ∀ a slot cb, .setCallback a slot cb ∈ evs → ∃ k, cb.fn = .app k) :
    Typed (run evs) := by
  induction evs using List.reverseRecOn with
  | nil => exact ⟨fun a _ _ _ ha => absurd (Heap.lt_of_load ha) (Nat.not_lt_zero a), fun _ _ hk => absurd hk List.not_mem_nil⟩
  | append_singleton evs ev ih =>
    rw [run_append_singleton]
    refine (ih fun a slot cb hset => h a slot cb (by simp [hset])).step (wired_run evs) fun a slot cb hset => ?_
    exact h a slot cb (by simp [hset])

end Steps

end DSA.Upcalls

import DistributedAbstractions.Lib.Inbox
import DistributedAbstractions.Spec.LinkedList

/-! The lists do what a list of elements does. Each call leaves a chain of as many distinct nodes as are
counted; what `list_index` makes of a place is right as long as an `int` can hold it. -/

namespace DSA

open Memory Inbox

/-- The list is on the nodes at `as`, which have the elements `xs`. -/
structure Holds (s : ListState) (as : List ℕ) (xs : List Ptr) : Prop where
  linked : Linked LNode.next s.heap s.list.start as none
  nodup : as.Nodup
  count : s.list.count = as.length
  elements : as.map (fun a => (s.heap.load a).map LNode.element) = xs.map some

section Step

variable {s : ListState} {as : List ℕ} {xs : List Ptr}

theorem Holds.length (h : Holds s as xs) : s.list.count = xs.length := by
  have hlen := congrArg List.length h.elements
  rw [List.length_map, List.length_map] at hlen
  exact h.count.trans hlen

theorem Holds.lt (h : Holds s as xs) {a : ℕ} (ha : a ∈ as) : a < s.heap.length := by
  obtain ⟨x, hx⟩ := h.linked.load ha
  exact Heap.lt_of_load hx

theorem holds_init : Holds listInit [] [] := ⟨rfl, List.nodup_nil, rfl, rfl⟩

theorem Holds.add_nil (h : Holds s [] xs) (elem : Ptr) :
    ∃ s', listAdd s elem = some s' ∧ Holds s' [s.heap.length] (xs ++ [elem]) := by
  have hcount : s.list.count = 0 := h.count
  have hxs : xs = [] := List.length_eq_zero_iff.mp (h.length.symm.trans hcount)
  have hload : (s.heap.alloc (⟨none, none⟩ : LNode)).load s.heap.length = some ⟨none, none⟩ := Heap.load_alloc_self
  refine ⟨⟨s.heap.alloc ⟨elem, none⟩, ⟨some s.heap.length, 1⟩⟩, ?_, ?_⟩
  · simp only [listAdd, hcount, if_true, Option.bind_eq_bind, Option.bind_some, hload, Heap.store_alloc_self]
  · refine ⟨⟨rfl, _, Heap.load_alloc_self, rfl⟩, List.nodup_singleton _, rfl, ?_⟩
    rw [hxs, List.map_singleton, Heap.load_alloc_self]
    rfl

theorem Holds.add_last {last : ℕ} (h : Holds s (as ++ [last]) xs) (elem : Ptr) :
    ∃ s', listAdd s elem = some s' ∧ Holds s' (as ++ [last, s.heap.length]) (xs ++ [elem]) := by
  have hcount : s.list.count = as.length + 1 := by
    rw [h.count, List.length_append, List.length_singleton]
  obtain ⟨x, hx⟩ := h.linked.load (a := last) (by simp)
  set new := s.heap.length with hnew
  set heap : Heap LNode := s.heap.alloc ⟨none, none⟩ with hheap
  have hlast : heap.load last = some x := Heap.load_alloc_of_load hx
  have hempty : heap.load new = some ⟨none, none⟩ := Heap.load_alloc_self
  have hne : last ≠ new := (h.lt (by simp)).ne
  set linked : Heap LNode := heap.set last (some { x with next := some new }) with hlinked
  have hempty' : linked.load new = some ⟨none, none⟩ := (Heap.load_set_ne hne).trans hempty
  have hfollow : follow LNode.next heap as.length s.list.start = some (some last) := (h.linked.alloc _).follow_middle
  set heap' : Heap LNode := linked.set new (some ⟨elem, none⟩) with hheap'
  refine ⟨⟨heap', ⟨s.list.start, s.list.count + 1⟩⟩, ?_, ?_⟩
  · simp only [listAdd, hcount, Nat.add_sub_cancel, Option.bind_eq_bind, Option.bind_some, ← hnew, ← hheap, hfollow, hlast,
      Heap.store_of_load hlast, ← hlinked, hempty', Heap.store_of_load hempty', ← hheap']
    rfl
  have hlast' : heap'.load last = some { x with next := some new } :=
    (Heap.load_set_ne hne.symm).trans (Heap.load_set_self (Heap.lt_of_load hlast))
  have hnew' : heap'.load new = some ⟨elem, none⟩ :=
    Heap.load_set_self (Heap.lt_of_load hempty')
  have hold : ∀ a ∈ as, heap'.load a = s.heap.load a := by
    intro a ha
    have hlt : a < new := h.lt (by simp [ha])
    have hal : last ≠ a := by
      rintro rfl
      exact (List.nodup_append.mp h.nodup).2.2 _ ha _ (by simp) rfl
    rw [Heap.load_set_ne hlt.ne', Heap.load_set_ne hal, Heap.load_alloc hlt]
  refine ⟨h.linked.redirect hold hlast' ⟨rfl, _, hnew', rfl⟩, ?_, ?_, ?_⟩
  · rw [List.append_cons, nodup_append_singleton]
    exact ⟨fun hin => (h.lt hin).ne rfl, h.nodup⟩
  · simp [hcount]
  · have helems := h.elements
    rw [List.map_append, List.map_singleton, hx] at helems
    rw [List.map_append, List.map_cons, List.map_singleton, hlast', hnew',
      List.map_congr_left fun a ha => by rw [hold a ha], List.map_append, ← helems, List.append_assoc]
    rfl

theorem Holds.add (h : Holds s as xs) (elem : Ptr) :
    ∃ s' as', listAdd s elem = some s' ∧ Holds s' as' (xs ++ [elem]) := by
  rcases List.eq_nil_or_concat as with rfl | ⟨init, last, rfl⟩
  · obtain ⟨s', hs', h'⟩ := h.add_nil elem
    exact ⟨s', _, hs', h'⟩
  · rw [List.concat_eq_append] at h
    obtain ⟨s', hs', h'⟩ := h.add_last elem
    exact ⟨s', _, hs', h'⟩

theorem Holds.outside (h : Holds s as xs) {idx : ℕ} (hidx : xs.length ≤ idx) : listRemove s idx = some (s, -1) := by
  rw [listRemove, if_pos (by rw [h.length]; exact hidx)]

theorem Holds.eraseIdx {pre post : List ℕ} {a : ℕ} {h' : Heap LNode} (h : Holds s (pre ++ a :: post) xs)
    (hsame : ∀ b ∈ pre ++ post, (h'.load b).map LNode.element = (s.heap.load b).map LNode.element) :
    (pre ++ post).map (fun b => (h'.load b).map LNode.element) = (xs.eraseIdx pre.length).map some := by
  rw [List.map_congr_left hsame, List.eraseIdx_eq_take_drop_succ, List.map_append, List.map_append, List.map_take,
    List.map_drop, ← h.elements]
  simp [List.drop_append]

theorem Holds.remove_first {a : ℕ} (h : Holds s (a :: as) xs) :
    ∃ s', listRemove s 0 = some (s', 0) ∧ Holds s' as (xs.eraseIdx 0) := by
  have hcount : s.list.count = as.length + 1 := h.count
  obtain ⟨hstart, x, hx, hnext⟩ := h.linked
  obtain ⟨hnot, hnodup⟩ := List.nodup_cons.mp h.nodup
  refine ⟨⟨s.heap.set a none, ⟨x.next, as.length⟩⟩, ?_, ?_⟩
  · rw [listRemove, if_neg (by omega)]
    simp only [if_true, hstart, Option.bind_eq_bind, Option.bind_some, hx, Heap.free_of_load hx, hcount,
      Nat.add_sub_cancel]
  · refine ⟨hnext.set hnot none, hnodup, rfl, ?_⟩
    refine @Holds.eraseIdx s xs [] as a _ h fun b hb => ?_
    have hne : a ≠ b := by
      rintro rfl
      exact hnot hb
    rw [Heap.load_set_ne hne]

theorem Holds.remove_behind {pre post : List ℕ} {a b : ℕ} (h : Holds s (pre ++ b :: a :: post) xs) :
    ∃ s', listRemove s (pre.length + 1) = some (s', 0) ∧ Holds s' (pre ++ b :: post) (xs.eraseIdx (pre.length + 1)) := by
  have hcount : s.list.count = pre.length + post.length + 2 := by
    rw [h.count, List.length_append, List.length_cons, List.length_cons]
    omega
  obtain ⟨-, -, -, y, hy, hya, x, hx, hpost⟩ := linked_append.mp h.linked
  have hnodup := h.nodup
  rw [List.nodup_append, List.nodup_cons, List.nodup_cons] at hnodup
  obtain ⟨hpre, ⟨hb, ha, hpostNodup⟩, hapart⟩ := hnodup
  have hba : b ≠ a := fun hba => hb (by simp [hba])
  have hfollow : follow LNode.next s.heap pre.length s.list.start = some (some b) := h.linked.follow_middle
  set linked : Heap LNode := s.heap.set b (some { y with next := x.next }) with hlinked
  have hx' : linked.load a = some x := (Heap.load_set_ne hba).trans hx
  set heap : Heap LNode := linked.set a none with hheap
  refine ⟨⟨heap, ⟨s.list.start, pre.length + post.length + 1⟩⟩, ?_, ?_⟩
  · rw [listRemove, if_neg (by omega)]
    simp only [Nat.add_sub_cancel, Nat.add_one_ne_zero, if_false, Option.bind_eq_bind, Option.bind_some, hfollow, hy, hya, hx,
      Heap.store_of_load hy, ← hlinked, Heap.free_of_load hx', ← hheap, hcount]
    rfl
  have hb' : heap.load b = some { y with next := x.next } :=
    (Heap.load_set_ne hba.symm).trans (Heap.load_set_self (Heap.lt_of_load hy))
  have hsame : ∀ c, c ≠ a → c ≠ b → heap.load c = s.heap.load c := fun c hca hcb =>
    (Heap.load_set_ne hca.symm).trans (Heap.load_set_ne hcb.symm)
  have hpreSame : ∀ c ∈ pre, heap.load c = s.heap.load c := fun c hc =>
    hsame c (hapart c hc a (by simp)) (hapart c hc b (by simp))
  have hpostSame : ∀ c ∈ post, heap.load c = s.heap.load c := fun c hc =>
    hsame c (fun hca => ha (hca ▸ hc)) fun hcb => hb (by simp [← hcb, hc])
  refine ⟨h.linked.redirect hpreSame hb' (hpost.congr hpostSame), ?_, ?_, ?_⟩
  · exact h.nodup.sublist ((List.Sublist.refl pre).append ((List.sublist_cons_self a post).cons_cons b))
  · rw [List.length_append, List.length_cons]
    rfl
  · have h' : Holds s ((pre ++ [b]) ++ a :: post) xs := by
      rw [List.append_assoc]
      exact h
    have herase := @Holds.eraseIdx s xs (pre ++ [b]) post a heap h' fun c hc => ?_
    · rw [List.append_assoc, List.length_append, List.length_singleton] at herase
      exact herase
    · rw [List.append_assoc, List.mem_append] at hc
      rcases hc with hc | hc
      · rw [hpreSame c hc]
      · rcases List.mem_cons.mp hc with rfl | hc
        · rw [hb', hy]
          rfl
        · rw [hpostSame c hc]

theorem Holds.remove (h : Holds s as xs) {idx : ℕ} (hidx : idx < xs.length) :
    ∃ s' as', listRemove s idx = some (s', 0) ∧ Holds s' as' (xs.eraseIdx idx) := by
  have hlen : as.length = xs.length := h.count.symm.trans h.length
  cases idx with
  | zero =>
    obtain ⟨a, rest, rfl⟩ := List.exists_cons_of_length_pos (hlen ▸ hidx)
    obtain ⟨s', hs', h'⟩ := h.remove_first
    exact ⟨s', rest, hs', h'⟩
  | succ k =>
    have hk : k < as.length := by omega
    have hk' : k + 1 < as.length := by omega
    have hsplit : as = as.take k ++ as[k] :: as[k + 1] :: as.drop (k + 2) := by
      rw [← List.drop_eq_getElem_cons hk', ← List.drop_eq_getElem_cons hk, List.take_append_drop]
    have hpre : (as.take k).length = k := List.length_take_of_le hk.le
    rw [hsplit] at h
    obtain ⟨s', hs', h'⟩ := h.remove_behind
    rw [hpre] at hs' h'
    exact ⟨s', _, hs', h'⟩

theorem Holds.node (h : Holds s as xs) {i : ℕ} (hi : i < xs.length) : ∃ a node,
    follow LNode.next s.heap i s.list.start = some (some a) ∧ s.heap.load a = some node ∧ xs[i]? = some node.element := by
  have hi' : i < as.length := by
    rw [← h.count, h.length]
    exact hi
  obtain ⟨node, hnode⟩ := h.linked.load (List.getElem_mem hi')
  refine ⟨as[i], node, ?_, hnode, ?_⟩
  · have hl := h.linked
    rw [← List.take_append_drop i as, List.drop_eq_getElem_cons hi'] at hl
    have hfollow := hl.follow_middle
    rwa [List.length_take_of_le hi'.le] at hfollow
  · have helem := congrArg (fun l => l[i]?) h.elements
    simpa [hi', hnode, List.getElem?_eq_getElem hi] using helem.symm

theorem Holds.get (h : Holds s as xs) (i : ℕ) : listGet s i = some (xs[i]?.getD none) := by
  unfold listGet
  split_ifs with hi
  · rw [List.getElem?_eq_none (by rw [← h.length]; exact hi)]
    rfl
  · obtain ⟨a, node, hfollow, hnode, hx⟩ := h.node (i := i) (by rw [← h.length]; omega)
    simp only [hfollow, hnode, Option.bind_eq_bind, Option.bind_some, hx, Option.getD_some]

theorem listIndexLoop_eq {heap : Heap LNode} (elem : Ptr) {ys : List Ptr} (n : LNode) (i : ℕ)
    (hl : Linked LNode.next heap n.next as none)
    (helems : as.map (fun a => (heap.load a).map LNode.element) = ys.map some) :
    listIndexLoop heap elem as.length i n = some (if elem ∈ ys then toInt (i + ys.idxOf elem) else -1) := by
  induction as generalizing ys n i with
  | nil =>
    obtain rfl : ys = [] := by simpa using helems.symm
    rfl
  | cons a as ih =>
    obtain ⟨hnext, x, hx, hl⟩ := hl
    cases ys with
    | nil => simp at helems
    | cons y ys =>
      rw [List.map_cons, List.map_cons, hx, List.cons.injEq, Option.map_some, Option.some_inj] at helems
      obtain ⟨rfl, helems⟩ := helems
      simp only [List.length_cons, listIndexLoop, hnext, hx, Option.bind_eq_bind, Option.bind_some]
      by_cases he : x.element = elem
      · simp [he]
      · rw [if_neg he, ih x (i + 1) hl helems, List.idxOf_cons_ne _ he]
        simp only [List.mem_cons, Ne.symm he, false_or, Nat.succ_eq_add_one]
        rw [Nat.add_assoc, Nat.add_comm 1]

theorem Holds.index (h : Holds s as xs) (elem : Ptr) :
    listIndex s elem = some (if elem ∈ xs then toInt (xs.idxOf elem) else -1) := by
  unfold listIndex
  rw [h.count]
  cases as with
  | nil =>
    have hxs : xs = [] := List.length_eq_zero_iff.mp (h.length.symm.trans h.count)
    rw [hxs]
    rfl
  | cons a as =>
    -- the first node is looked at as the loop looks at the others
    have hloop := listIndexLoop_eq elem ⟨none, s.list.start⟩ 0 h.linked h.elements
    rw [Nat.zero_add, List.length_cons, listIndexLoop] at hloop
    rw [if_neg (by simp), List.length_cons, Nat.add_sub_cancel]
    exact hloop

end Step

theorem toInt_eq_iff (n : ℕ) : toInt n = n ↔ n < 2 ^ 31 := by
  unfold toInt
  rw [Int.bmod_def]
  split_ifs <;> omega

/-- All that the list is asked is answered as it should be if an `int` can hold the places. -/
theorem Holds.correct_iff {s : ListState} {as : List ℕ} {xs : List Ptr} (h : Holds s as xs) :
    ListCorrect s xs ↔ Indexable xs := by
  constructor
  · intro hc p hp
    have hindex := (h.index p).symm.trans (hc.index p)
    rw [if_pos hp, if_pos hp, Option.some_inj] at hindex
    exact (toInt_eq_iff _).mp hindex
  · intro hi
    refine ⟨h.length, fun i hlt => h.node hlt, ?_, h.get, fun p => ?_, fun i => h.outside⟩
    · rw [h.count]
      exact h.linked.follow
    · rw [h.index p]
      split_ifs with hp
      · rw [(toInt_eq_iff _).mpr (hi p hp)]
      · rfl

theorem Holds.call {s : ListState} {as : List ℕ} {xs : List Ptr} (h : Holds s as xs) (c : ListCall) :
    ∃ s' as', s.call c = some (s', (c.apply xs).2) ∧ Holds s' as' (c.apply xs).1 := by
  cases c with
  | add elem =>
    obtain ⟨s', as', hs', h'⟩ := h.add elem
    exact ⟨s', as', by rw [ListState.call, hs']; rfl, h'⟩
  | remove idx =>
    by_cases hidx : idx < xs.length
    · obtain ⟨s', as', hs', h'⟩ := h.remove hidx
      refine ⟨s', as', ?_, h'⟩
      rw [ListState.call, hs', ListCall.apply, if_pos hidx]
      rfl
    · refine ⟨s, as, ?_, ?_⟩
      · rw [ListState.call, h.outside (Nat.le_of_not_lt hidx), ListCall.apply, if_neg hidx]
        rfl
      · rw [ListCall.apply, List.eraseIdx_of_length_le (Nat.le_of_not_lt hidx)]
        exact h

theorem Holds.calls {s : ListState} {as : List ℕ} {xs : List Ptr} (h : Holds s as xs) (cs : List ListCall) :
    ∃ s' as', s.calls cs = some (s', Machine.outputs ListCall.apply xs cs) ∧
      Holds s' as' (Machine.state ListCall.apply xs cs) := by
  induction cs generalizing s as xs with
  | nil => exact ⟨s, as, rfl, h⟩
  | cons c cs ih =>
    obtain ⟨s₁, as₁, hcall, h₁⟩ := h.call c
    obtain ⟨s₂, as₂, hcalls, h₂⟩ := ih h₁
    refine ⟨s₂, as₂, ?_, h₂⟩
    rw [ListState.calls, hcall, Option.bind_eq_bind, Option.bind_some]
    dsimp only
    rw [hcalls]
    rfl

theorem indexable_of_listsCorrectly {calls : List ListCall} (hc : ListsCorrectly calls) :
    Indexable (Machine.state ListCall.apply [] calls) := by
  obtain ⟨s, as, hcalls, h⟩ := holds_init.calls calls
  obtain ⟨s', hs', hc⟩ := hc
  rw [hcalls, Option.some_inj, Prod.mk.injEq] at hs'
  obtain ⟨rfl, -⟩ := hs'
  exact h.correct_iff.mp hc

theorem lists_correctly_iff (calls : List ListCall) :
    ListsCorrectly calls ↔ Indexable (Machine.state ListCall.apply [] calls) := by
  constructor
  · exact indexable_of_listsCorrectly
  · intro hi
    obtain ⟨s, as, hcalls, h⟩ := holds_init.calls calls
    exact ⟨s, hcalls, h.correct_iff.mpr hi⟩

theorem state_adds (xs es : List Ptr) : Machine.state ListCall.apply xs (es.map .add) = xs ++ es := by
  induction es generalizing xs with
  | nil => exact (List.append_nil xs).symm
  | cons e es ih =>
    rw [List.append_cons]
    exact ih (xs ++ [e])

/-- A pointer that is added behind `n` others is at place `n`. -/
theorem not_indexable {n : ℕ} (hn : 2 ^ 31 ≤ n) : ¬ Indexable (List.replicate n none ++ [some 0]) := by
  intro h
  have hlt := h (some 0) (by simp)
  rw [List.idxOf_append_of_notMem (by simp [List.mem_replicate]), List.length_replicate] at hlt
  omega

/-- `list_index` returns a negative number for the pointer behind `2 ^ 31` others. -/
theorem far_pointer_lost : ¬ ∀ calls, ListsCorrectly calls := by
  intro h
  have hi := indexable_of_listsCorrectly (h ((List.replicate (2 ^ 31) none ++ [some 0]).map .add))
  rw [state_adds] at hi
  exact not_indexable (le_refl _) hi

end DSA

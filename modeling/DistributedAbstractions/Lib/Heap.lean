import Mathlib.Data.List.Basic
import Mathlib.Data.List.Nodup

/-! Objects on a heap, numbered as they are allocated, and chains of objects that lead from one to the
next. `none` is an access to an object that has been freed or was never there. -/

namespace Memory

/-- The place of an object that is freed stays empty. -/
abbrev Heap (ν : Type) := List (Option ν)

variable {ν : Type}

namespace Heap

def load (h : Heap ν) (a : ℕ) : Option ν := h[a]?.join

/-- The new object is at `h.length`. -/
def alloc (h : Heap ν) (x : ν) : Heap ν := h ++ [some x]

def store (h : Heap ν) (a : ℕ) (x : ν) : Option (Heap ν) := if (h.load a).isSome then some (h.set a (some x)) else none

def free (h : Heap ν) (a : ℕ) : Option (Heap ν) := if (h.load a).isSome then some (h.set a none) else none

variable {h h' : Heap ν} {a b : ℕ} {x y : ν}

theorem lt_of_load (ha : h.load a = some x) : a < h.length := by
  by_contra hle
  rw [load, List.getElem?_eq_none (Nat.le_of_not_lt hle)] at ha
  cases ha

theorem length_alloc : (h.alloc x).length = h.length + 1 := List.length_append

theorem load_alloc_self : (h.alloc x).load h.length = some x := by
  simp [load, alloc]

theorem load_alloc (hlt : a < h.length) : (h.alloc x).load a = h.load a := by
  rw [load, alloc, List.getElem?_append_left hlt, load]

theorem load_alloc_of_load (ha : h.load a = some y) : (h.alloc x).load a = some y :=
  (load_alloc (lt_of_load ha)).trans ha

theorem store_of_load (ha : h.load a = some y) : h.store a x = some (h.set a (some x)) := by
  rw [store, ha, Option.isSome_some, if_pos rfl]

theorem store_alloc_self : (h.alloc x).store h.length y = some (h.alloc y) := by
  rw [store_of_load load_alloc_self, alloc, List.set_append_right _ _ (Nat.le_refl _), Nat.sub_self]
  rfl

theorem free_of_load (ha : h.load a = some y) : h.free a = some (h.set a none) := by
  rw [free, ha, Option.isSome_some, if_pos rfl]

theorem load_set_self {c : Option ν} (hlt : a < h.length) : load (h.set a c) a = c := by
  rw [load, List.getElem?_set_self hlt, Option.join_some]

theorem load_set_ne {c : Option ν} (hne : a ≠ b) : load (h.set a c) b = h.load b := by
  rw [load, List.getElem?_set_ne hne, load]

end Heap

section Chain

variable (next : ν → Option ℕ)

/-- `p = p->next`, `n` times. -/
def follow (h : Heap ν) : ℕ → Option ℕ → Option (Option ℕ)
  | 0, p => some p
  | n + 1, p => p.bind fun a => (h.load a).bind fun x => follow h n (next x)

/-- The objects at `as` lead from `p` to `q`. -/
def Linked (h : Heap ν) : Option ℕ → List ℕ → Option ℕ → Prop
  | p, [], q => p = q
  | p, a :: as, q => p = some a ∧ ∃ x, h.load a = some x ∧ Linked h (next x) as q

variable {next} {h h' : Heap ν} {p q : Option ℕ} {as bs : List ℕ} {a : ℕ}

theorem linked_append : Linked next h p (as ++ bs) q ↔ ∃ r, Linked next h p as r ∧ Linked next h r bs q := by
  induction as generalizing p with
  | nil => simp [Linked]
  | cons a as ih =>
    simp only [List.cons_append, Linked, ih]
    constructor
    · rintro ⟨rfl, x, hx, r, hr, hq⟩
      exact ⟨r, ⟨rfl, x, hx, hr⟩, hq⟩
    · rintro ⟨r, ⟨rfl, x, hx, hr⟩, hq⟩
      exact ⟨rfl, x, hx, r, hr, hq⟩

/-- A chain does not depend on what is not in it. -/
theorem Linked.congr (hl : Linked next h p as q) (hsame : ∀ a ∈ as, h'.load a = h.load a) :
    Linked next h' p as q := by
  induction as generalizing p with
  | nil => exact hl
  | cons a as ih =>
    obtain ⟨rfl, x, hx, hl⟩ := hl
    refine ⟨rfl, x, (hsame a (by simp)).trans hx, ih hl ?_⟩
    exact fun b hb => hsame b (by simp [hb])

theorem Linked.load (hl : Linked next h p as q) (ha : a ∈ as) : ∃ x, h.load a = some x := by
  induction as generalizing p with
  | nil => cases ha
  | cons b as ih =>
    obtain ⟨rfl, x, hx, hl⟩ := hl
    rcases List.mem_cons.mp ha with rfl | ha
    · exact ⟨x, hx⟩
    · exact ih hl ha

theorem Linked.follow (hl : Linked next h p as q) : follow next h as.length p = some q := by
  induction as generalizing p with
  | nil => exact congrArg some hl
  | cons a as ih =>
    obtain ⟨rfl, x, hx, hl⟩ := hl
    rw [List.length_cons, Memory.follow, Option.bind_some, hx, Option.bind_some]
    exact ih hl

/-- After as many steps as there are objects in front of it one is at `a`. -/
theorem Linked.follow_middle (hl : Linked next h p (as ++ a :: bs) q) :
    Memory.follow next h as.length p = some (some a) := by
  obtain ⟨r, hr, rfl, -⟩ := linked_append.mp hl
  exact hr.follow

theorem Linked.alloc (hl : Linked next h p as q) (x : ν) : Linked next (h.alloc x) p as q := by
  apply hl.congr
  intro a ha
  obtain ⟨y, hy⟩ := hl.load ha
  exact Heap.load_alloc (Heap.lt_of_load hy)

theorem Linked.set (hl : Linked next h p as q) (ha : a ∉ as) (c : Option ν) : Linked next (h.set a c) p as q := by
  apply hl.congr
  intro b hb
  exact Heap.load_set_ne fun hab => ha (hab ▸ hb)

/-- A chain that goes on otherwise behind the object at `a`. -/
theorem Linked.redirect {q' : Option ℕ} {cs : List ℕ} {y : ν} (hl : Linked next h p (as ++ a :: bs) q)
    (hsame : ∀ b ∈ as, h'.load b = h.load b) (ha : h'.load a = some y) (hcs : Linked next h' (next y) cs q') :
    Linked next h' p (as ++ a :: cs) q' := by
  obtain ⟨r, hr, rfl, -⟩ := linked_append.mp hl
  exact linked_append.mpr ⟨some a, hr.congr hsame, rfl, y, ha, hcs⟩

end Chain

end Memory

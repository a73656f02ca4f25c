import Mathlib.Data.List.Basic

/-! Computations that record the places they access, in order. -/

namespace Access

structure Logged (ι α : Type) where
  value : α
  places : List ι

variable {ι α β : Type}

instance : Monad (Logged ι) where
  pure a := ⟨a, []⟩
  bind x f := ⟨(f x.value).value, x.places ++ (f x.value).places⟩

def access (i : ι) (a : α) : Logged ι α := ⟨a, [i]⟩

/-- Every place that is accessed is one of `P`. -/
def Only (P : ι → Prop) (x : Logged ι α) : Prop := ∀ i ∈ x.places, P i

theorem value_bind (x : Logged ι α) (f : α → Logged ι β) : (x >>= f).value = (f x.value).value := rfl

section Rules

variable {P : ι → Prop}

theorem only_pure (a : α) : Only P (pure a) := fun _ hi => absurd hi List.not_mem_nil

theorem only_access {i : ι} (hi : P i) (a : α) : Only P (access i a) := by
  intro j hj
  rwa [List.mem_singleton.mp hj]

theorem Only.bind {x : Logged ι α} {f : α → Logged ι β} (hx : Only P x) (hf : Only P (f x.value)) :
    Only P (x >>= f) := by
  intro i hi
  rcases List.mem_append.mp hi with hi | hi
  · exact hx i hi
  · exact hf i hi

theorem only_mapM {f : α → Logged ι β} {as : List α} (hf : ∀ a ∈ as, Only P (f a)) : Only P (as.mapM f) := by
  suffices h : ∀ bs, Only P (List.mapM.loop f as bs) from h []
  induction as with
  | nil => exact fun bs => only_pure _
  | cons a as ih => exact fun bs => (hf a (by simp)).bind (ih (fun b hb => hf b (by simp [hb])) _)

end Rules

end Access

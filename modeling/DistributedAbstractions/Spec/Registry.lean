import Mathlib.Data.List.Basic
import Mathlib.Data.List.Infix

/-! The registry of the fair-loss links of a process, which `fll_init` makes for the first link and
`fll_free` takes down with the last one. -/

namespace DSA

/-- A list on the heap. What was in it can still be read when it is freed, though nothing says so. -/
structure ListObject where
  elements : List ℕ
  freed : Bool
deriving DecidableEq

/-- Links are numbered as they are made, lists by their place on the heap. `alive` is what a caller of
`fll_init` knows: the links that it has got and not yet freed. -/
structure Registry where
  links : Option ℕ
  lists : List ListObject
  made : ℕ
  alive : List ℕ

/-- How the calls in `fll_init` turn out that may fail, or the link that is freed. -/
inductive FllCall
  | init (socketOk listOk linkOk : Bool)
  | free (link : ℕ)
deriving DecidableEq

namespace Registry

def start : Registry := ⟨none, [], 0, []⟩

/-- `_links` when `fll_init` is past its check for `NULL`, unless there is no memory for a list. -/
def listInit (r : Registry) (listOk : Bool) : Option (ℕ × Registry) :=
  match r.links with
  | some l => some (l, r)
  | none =>
    if listOk then some (r.lists.length, { r with links := some r.lists.length, lists := r.lists ++ [⟨[], false⟩] })
    else none

def fllInit (r : Registry) (socketOk listOk linkOk : Bool) : Registry :=
  if !socketOk then r
  else
    match r.listInit listOk with
    | none => r
    | some (l, r) =>
      if !linkOk then r
      else
        { r with
          lists := r.lists.modify l fun o => { o with elements := o.elements ++ [r.made] }
          made := r.made + 1
          alive := r.alive ++ [r.made] }

/-- `list_index` and `list_remove`, and `list_free` if nothing is left. `_links` stays as it is. -/
def removeLink (link : ℕ) (o : ListObject) : ListObject :=
  let elements := o.elements.erase link
  { elements := elements, freed := o.freed || elements.isEmpty }

/-- There is nothing to free but what `fll_init` has returned. -/
def fllFree (r : Registry) (link : ℕ) : Registry :=
  if link ≥ r.made then r
  else
    match r.links with
    | none => r
    | some l => { r with lists := r.lists.modify l (removeLink link), alive := r.alive.erase link }

def call (r : Registry) : FllCall → Registry
  | .init socketOk listOk linkOk => r.fllInit socketOk listOk linkOk
  | .free link => r.fllFree link

def after (calls : List FllCall) : Registry := calls.foldl call start

/-- The call gets to a point where it uses `_links`. -/
def Uses (r : Registry) : FllCall → Prop
  | .init socketOk _ _ => socketOk = true
  | .free link => link < r.made

/-- `_links` is `NULL` with no link alive, or a list that is not freed and has just the links alive. -/
def Sound (r : Registry) : Prop :=
  match r.links with
  | none => r.alive = []
  | some l => r.lists[l]? = some ⟨r.alive, false⟩

/-- Every use of `_links` is of `NULL` or of a list that is not freed and has just the links alive. -/
def UsedSoundly (calls : List FllCall) : Prop :=
  ∀ pre c, pre ++ [c] <+: calls → Uses (after pre) c → Sound (after pre)

/-- A call of `fll_free` has left no link alive. -/
def TornDown (calls : List FllCall) : Prop :=
  ∃ pre link, pre ++ [.free link] <+: calls ∧ Uses (after pre) (.free link) ∧ (after (pre ++ [.free link])).alive = []

end Registry

end DSA

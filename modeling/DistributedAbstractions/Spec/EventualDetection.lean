import DistributedAbstractions.Spec.Detection

/-! The eventually perfect failure detector, run by processes some of which crash, over ideal links that bring
each message once, however short it is. Periods may be too short for a while. -/

namespace DSA

open CLib Filter Net Trans

/-- The loop ahead of the one that consumes messages begins with rank 0, which nobody has. -/
def epfdStart (epfd : Epfd) : EpfdEffects :=
  ((0 :: ranks epfd.maxRank).filter (· ≠ epfd.localRank)).map (.send · HB_CODE)

def epfdProtocol (maxRank : ℕ) : Protocol Unit Epfd FdCall CString EpfdIndication where
  init localRank := epfdInit localRank maxRank
  handle _ epfd
    | .call .start => (epfd, epfdStart epfd)
    | .call .timeout => epfdHandleTimeout epfd
    | .receive sender msg => epfdCallback epfd ⟨msg, sender⟩

abbrev EpfdState := State Epfd FdCall CString EpfdIndication

def epfdSystem (maxRank : ℕ) : System EpfdState (Event Unit FdCall CString) :=
  system (epfdProtocol maxRank) (crashSetting maxRank)

/-- The processes of `A` stay up, and their timers go off again and again; the others crash, and what they have
sent is used up or lost. In the end periods are long enough for a heartbeat and its reply. -/
structure DetectionLive {n : ℕ} (A : Finset ℤ) (π : Path (epfdSystem n) fun _ _ => True) : Prop where
  ranks : A ⊆ peers n
  up : ∀ i, ∀ p ∈ A, ((π.state i).proc p).crashed = false
  silent : ∀ p ∈ A, ∀ q ∈ peers n \ A, ∀ᶠ i in atTop, Silent (π.state i) p q
  timer : ∀ p ∈ A, ∃ᶠ i in atTop, π.event i = some (.act p () (.call .timeout) none)
  prompt : ∀ᶠ i in atTop, ∀ e ∈ π.event i, Synchronous n (π.state i) e

/-- In the end the last that each process of `A` has been told of a peer is to suspect it if it is not one of
`A`, and that it is restored or nothing at all if it is; and nobody is told anything any more. -/
def EventuallyPerfect {n : ℕ} (A : Finset ℤ) (π : Path (epfdSystem n) fun _ _ => True) : Prop :=
  ∀ᶠ i in atTop, ∀ p ∈ A,
    (∀ q ∈ peers n, q ≠ p →
      ((indicatedFor q (indications ((π.state i).proc p).effects)).getLast? = some (.suspect q) ↔ q ∉ A)) ∧
    indications ((π.state (i + 1)).proc p).effects = indications ((π.state i).proc p).effects

end DSA

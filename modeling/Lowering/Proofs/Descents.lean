import Mathlib.Data.Finset.Card
import Mathlib.Logic.Relation

/-! Evaluations that descend from place to place and give up when they have descended as often as they may. If
there are only finitely many places to give up at, an evaluation that may descend as often and still gives up
has come to a place that leads back to itself, and no other bound would be enough. -/

namespace Lowering.Proofs
open Relation

variable {α : Type}

/-- A place leads to one that leads back to itself. -/
def Recurs (next : α → α → Prop) (a : α) : Prop := ∃ b, ReflTransGen next a b ∧ TransGen next b b

/-- An evaluation that may descend so often gives up at a place from which it would have to descend once too
often. -/
structure Descending (next : α → α → Prop) (gives : Nat → α → Prop) : Prop where
  last : ∀ a b, next a b → gives 0 a
  onward : ∀ n a, gives (n + 1) a ↔ ∃ b, next a b ∧ gives n b

variable {next : α → α → Prop} {gives : Nat → α → Prop}

theorem Recurs.onward {a : α} (recurs : Recurs next a) : ∃ b, next a b ∧ Recurs next b := by
  obtain ⟨b, far, round⟩ := recurs
  rcases far.cases_head with rfl | ⟨c, near, rest⟩
  · obtain ⟨c, near, rest⟩ := TransGen.head'_iff.mp round
    exact ⟨c, near, a, rest, round⟩
  · exact ⟨c, near, b, rest, round⟩

theorem Recurs.back {a b : α} (near : next a b) (recurs : Recurs next b) : Recurs next a := by
  obtain ⟨c, far, round⟩ := recurs
  exact ⟨c, .head near far, round⟩

/-- Where places lead back to themselves, every bound is too small. -/
theorem Descending.recurring (descending : Descending next gives) {a : α} (recurs : Recurs next a) (n : Nat) :
    gives n a := by
  induction n generalizing a with
  | zero =>
    obtain ⟨b, near, _⟩ := recurs.onward
    exact descending.last a b near
  | succ n ih =>
    obtain ⟨b, near, recurs⟩ := recurs.onward
    exact (descending.onward n a).mpr ⟨b, near, ih recurs⟩

/-- Elsewhere the number of places is enough. The induction is on it: a place that does not lead back to
itself is not met again. -/
theorem Descending.bounded (descending : Descending next gives) {places : Finset α} {a : α}
    (inside : ∀ b, ReflTransGen next a b → ∀ n, gives n b → b ∈ places) {n : Nat} (enough : places.card ≤ n)
    (given : gives n a) : Recurs next a := by
  classical
  have member := inside a .refl n given
  induction n generalizing places a with
  | zero => exact absurd (Finset.card_pos.mpr ⟨a, member⟩) (Nat.not_lt.mpr enough)
  | succ n ih =>
    obtain ⟨b, near, further⟩ := (descending.onward n a).mp given
    by_cases round : ReflTransGen next b a
    · exact ⟨a, .refl, .head' near round⟩
    · have fewer : ∀ c, ReflTransGen next b c → ∀ m, gives m c → c ∈ places.erase a := by
        intro c far m also
        refine Finset.mem_erase.mpr ⟨?_, inside c (.head near far) m also⟩
        rintro rfl
        exact round far
      have less : (places.erase a).card ≤ n := by
        rw [Finset.card_erase_of_mem member]
        omega
      exact .back near (ih fewer less further (fewer b .refl n further))

/-- An evaluation that may descend as often as there are places gives up exactly where places lead back to
themselves. -/
theorem Descending.gives_iff (descending : Descending next gives) {places : Finset α}
    (inside : ∀ a n, gives n a → a ∈ places) {n : Nat} (enough : places.card ≤ n) (a : α) :
    gives n a ↔ Recurs next a :=
  ⟨descending.bounded (fun b _ m => inside b m) enough, fun recurs => descending.recurring recurs n⟩

theorem Recurs.map {β : Type} {other : β → β → Prop} (f : α → β) (steps : ∀ a b, next a b → other (f a) (f b))
    {a : α} (recurs : Recurs next a) : Recurs other (f a) := by
  obtain ⟨b, far, round⟩ := recurs
  exact ⟨f b, far.lift f steps, round.lift f steps⟩

/-- An evaluation whose results stay when it may go on further, and that is hopeless if it gives up under some
bound, has under this bound all results that it has at all. -/
theorem settles {β : Type} {eval : Nat → Option β} {bound : Nat}
    (stays : ∀ n r, eval n = some r → eval (n + 1) = some r)
    (hopeless : eval bound = none → ∀ n, eval n = none) (r : β) :
    eval bound = some r ↔ ∃ n, eval n = some r := by
  have later : ∀ {n m r}, n ≤ m → eval n = some r → eval m = some r := by
    intro n m r less given
    induction m, less using Nat.le_induction with
    | base => exact given
    | succ m _ ih => exact stays m r ih
  refine ⟨fun given => ⟨bound, given⟩, ?_⟩
  rintro ⟨n, given⟩
  cases result : eval bound with
  | none =>
    rw [hopeless result n] at given
    cases given
  | some s =>
    rcases Nat.le_total n bound with less | more
    · exact result.symm.trans (later less given)
    · exact (later more result).symm.trans given

end Lowering.Proofs

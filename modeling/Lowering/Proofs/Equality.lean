import Mathlib.Data.Finset.Prod
import Mathlib.Data.Finset.Range
import Lowering.Heap.Equality
import Lowering.Proofs.Descents

/-! Equality of values. Two lists are compared by their items, the later ones only where the earlier ones are
equal. A comparison ends exactly if the pairs of lists that it enters do not lead back to themselves. -/

namespace Lowering.Proofs
open Heap

/-- Comparing two sequences comes to comparing two of their items: the ones before them are equal. -/
inductive Confronts (equal : Value → Value → Prop) (a b : Value) : List Value → List Value → Prop
  | here {as bs : List Value} : Confronts equal a b (a :: as) (b :: bs)
  | later {c d : Value} {as bs : List Value} :
    equal c d → Confronts equal a b as bs → Confronts equal a b (c :: as) (d :: bs)

/-- Comparing two values comes to comparing two lists by their items. Two tuples are compared by theirs, and
a list is not compared with itself. -/
inductive Meets (equal : Value → Value → Prop) : Value → Value → Nat × Nat → Prop
  | lists {i j : Nat} : i ≠ j → Meets equal (.list i) (.list j) (i, j)
  | tuples {as bs : List Value} {a b : Value} {pair : Nat × Nat} :
    as.length = bs.length → Confronts equal a b as bs → Meets equal a b pair →
      Meets equal (.tuple as) (.tuple bs) pair

/-- Comparing two lists by their items comes to comparing two other ones by theirs. -/
def Descends (h : Heap) (equal : Value → Value → Prop) (pair inner : Nat × Nat) : Prop :=
  (h.list pair.1).size = (h.list pair.2).size ∧
    ∃ a b, Confronts equal a b (h.list pair.1).toList (h.list pair.2).toList ∧ Meets equal a b inner

/-- Two values are found to be equal. -/
def Equals (h : Heap) (a b : Value) : Prop := h.equal? a b = some true

variable {h : Heap} {a b : Value} {as bs : List Value} {equal : Value → Value → Prop}
  {compare : Value → Value → Option Bool} {lists lists' : Nat → Nat → Option Bool}

/-- Neither are both values tuples nor both of them lists. -/
private structure Flat (a b : Value) : Prop where
  tuples : ∀ as bs, ¬ (a = .tuple as ∧ b = .tuple bs)
  lists : ∀ i j, ¬ (a = .list i ∧ b = .list j)

private theorem pairs_induction {P : Value → Value → Prop} (flat : ∀ a b, Flat a b → P a b)
    (lists : ∀ i j, P (.list i) (.list j))
    (tuples : ∀ as bs, (∀ a ∈ as, ∀ b, P a b) → P (.tuple as) (.tuple bs)) : ∀ a b, P a b
  | .tuple as, b => by
    cases b with
    | tuple bs => exact tuples as bs fun a member => pairs_induction flat lists tuples a
    | _ => exact flat _ _ ⟨by simp, by simp⟩
  | .list i, b => by
    cases b with
    | list j => exact lists i j
    | _ => exact flat _ _ ⟨by simp, by simp⟩
  | .none, b | .bool _, b | .int _, b | .float _, b | .str _, b | .null, b | .unbound, b | .record _, b
  | .iterator _, b | .exception _, b | .cls _, b | .builtin _, b | .function _, b | .sequence _, b
  | .routine _, b | .word _, b | .word32 _, b | .natural _, b | .single _, b | .foreign _ _, b =>
    flat _ _ ⟨by simp, by simp⟩

private theorem Flat.equalLayer (flat : Flat a b) : ∃ r, ∀ lists, equalLayer lists a b = some r := by
  cases a with
  | tuple as =>
    cases b with
    | tuple bs => exact absurd ⟨rfl, rfl⟩ (flat.tuples as bs)
    | _ => exact ⟨_, fun _ => rfl⟩
  | list i =>
    cases b with
    | list j => exact absurd ⟨rfl, rfl⟩ (flat.lists i j)
    | _ => exact ⟨_, fun _ => rfl⟩
  | int | float => cases b <;> exact ⟨_, fun _ => rfl⟩
  | _ => exact ⟨_, fun _ => rfl⟩

private theorem Flat.meets (flat : Flat a b) (pair : Nat × Nat) : ¬ Meets equal a b pair := by
  intro meets
  cases meets with
  | lists => exact flat.lists _ _ ⟨rfl, rfl⟩
  | tuples => exact flat.tuples _ _ ⟨rfl, rfl⟩

private theorem equalLayerAll_eq (as bs : List Value) :
    equalLayerAll lists as bs = equalItems (equalLayer lists) as bs := by
  induction as generalizing bs with
  | nil => cases bs <;> rfl
  | cons a as ih =>
    cases bs with
    | nil => rfl
    | cons b bs => rw [equalLayerAll, equalItems, ih]

private theorem Confronts.left (confronts : Confronts equal a b as bs) : a ∈ as := by
  induction confronts with
  | here => exact List.mem_cons_self
  | later _ _ ih => exact List.mem_cons_of_mem _ ih

private theorem Confronts.right (confronts : Confronts equal a b as bs) : b ∈ bs := by
  induction confronts with
  | here => exact List.mem_cons_self
  | later _ _ ih => exact List.mem_cons_of_mem _ ih

/-- What a comparison says reports with a relation between values. -/
private structure Reports (compare : Value → Value → Option Bool) (equal : Value → Value → Prop) : Prop where
  sound : ∀ a b, compare a b = some true → equal a b
  complete : ∀ a b, equal a b → compare a b ≠ some false

private theorem equalItems_none (reports : Reports compare equal) (as bs : List Value) :
    equalItems compare as bs = none ↔ ∃ a b, Confronts equal a b as bs ∧ compare a b = none := by
  induction as generalizing bs with
  | nil =>
    cases bs with
    | nil => exact ⟨nofun, nofun⟩
    | cons b bs => exact ⟨nofun, nofun⟩
  | cons c as ih =>
    cases bs with
    | nil => exact ⟨nofun, nofun⟩
    | cons d bs =>
      rw [equalItems]
      constructor
      · intro failed
        cases first : compare c d with
        | none => exact ⟨c, d, .here, first⟩
        | some r =>
          cases r with
          | false => simp [first] at failed
          | true =>
            rw [first] at failed
            obtain ⟨a, b, confronts, inner⟩ := (ih bs).mp failed
            exact ⟨a, b, .later (reports.sound c d first) confronts, inner⟩
      · rintro ⟨a, b, confronts, inner⟩
        cases confronts with
        | here => rw [inner]
        | later same confronts =>
          have rest := (ih bs).mpr ⟨a, b, confronts, inner⟩
          cases first : compare c d with
          | none => rfl
          | some r =>
            cases r with
            | false => exact absurd first (reports.complete c d same)
            | true => exact rest

private theorem equalLayer_none (reports : Reports (equalLayer lists) equal) (a b : Value) :
    equalLayer lists a b = none ↔ ∃ pair, Meets equal a b pair ∧ lists pair.1 pair.2 = none := by
  induction a, b using pairs_induction with
  | flat a b flat =>
    obtain ⟨r, given⟩ := flat.equalLayer
    simp [given, flat.meets]
  | lists i j =>
    rw [equalLayer]
    by_cases same : i = j
    · rw [if_pos (beq_iff_eq.mpr same)]
      refine ⟨nofun, ?_⟩
      rintro ⟨_, meets, _⟩
      cases meets with
      | lists apart => exact absurd same apart
    · rw [if_neg (mt beq_iff_eq.mp same)]
      refine ⟨fun failed => ⟨(i, j), .lists same, failed⟩, ?_⟩
      rintro ⟨_, meets, failed⟩
      cases meets
      exact failed
  | tuples as bs ih =>
    rw [equalLayer]
    by_cases even : as.length = bs.length
    · rw [if_neg (not_not.mpr even), equalLayerAll_eq, equalItems_none reports]
      constructor
      · rintro ⟨a, b, confronts, inner⟩
        obtain ⟨pair, meets, failed⟩ := (ih a confronts.left b).mp inner
        exact ⟨pair, .tuples even confronts meets, failed⟩
      · rintro ⟨pair, meets, failed⟩
        cases meets with
        | tuples _ confronts meets => exact ⟨_, _, confronts, (ih _ confronts.left _).mpr ⟨pair, meets, failed⟩⟩
    · rw [if_pos even]
      refine ⟨nofun, ?_⟩
      rintro ⟨_, meets, _⟩
      cases meets with
      | tuples also => exact absurd also even

/-- The comparison of two lists by their items when so many more pairs may be entered. -/
private def verdict? (h : Heap) (n : Nat) (pair : Nat × Nat) : Option Bool :=
  if (h.list pair.1).size ≠ (h.list pair.2).size then some false
  else equalItems (fun a b => equalWithin h n a b) (h.list pair.1).toList (h.list pair.2).toList

/-- Two values are found to be equal under some bound. -/
private def Agree (h : Heap) (a b : Value) : Prop := ∃ n, equalWithin h n a b = some true

private theorem equalItems_refines {compare' : Value → Value → Option Bool}
    (refines : ∀ a ∈ as, ∀ b r, compare a b = some r → compare' a b = some r) (bs : List Value) (r : Bool)
    (given : equalItems compare as bs = some r) : equalItems compare' as bs = some r := by
  induction as generalizing bs with
  | nil => cases bs <;> exact given
  | cons a as ih =>
    cases bs with
    | nil => exact given
    | cons b bs =>
      rw [equalItems] at given ⊢
      cases first : compare a b with
      | none => simp [first] at given
      | some s =>
        rw [refines a List.mem_cons_self b s first]
        rw [first] at given
        cases s with
        | false => exact given
        | true => exact ih (fun a member => refines a (List.mem_cons_of_mem _ member)) bs given

private theorem equalLayer_refines (refines : ∀ i j r, lists i j = some r → lists' i j = some r)
    (a b : Value) (r : Bool) (given : equalLayer lists a b = some r) : equalLayer lists' a b = some r := by
  induction a, b using pairs_induction generalizing r with
  | flat a b flat =>
    obtain ⟨s, same⟩ := flat.equalLayer
    rw [same] at given ⊢
    exact given
  | lists i j =>
    rw [equalLayer] at given ⊢
    split at given
    · next same => rwa [if_pos same]
    · next apart => rw [if_neg apart]; exact refines i j r given
  | tuples as bs ih =>
    rw [equalLayer, equalLayerAll_eq] at given ⊢
    split at given
    · next uneven => rwa [if_pos uneven]
    · next even => rw [if_neg even]; exact equalItems_refines ih bs r given

private theorem equalWithin_refines (n : Nat) (a b : Value) (r : Bool)
    (given : equalWithin h n a b = some r) : equalWithin h (n + 1) a b = some r := by
  induction n generalizing a b r with
  | zero => cases given
  | succ n ih =>
    refine equalLayer_refines (fun i j r found => ?_) a b r given
    dsimp only [verdict?] at found ⊢
    split at found
    · next uneven => rwa [if_pos uneven]
    · next even => rw [if_neg even]; exact equalItems_refines (fun a _ b => ih a b) _ r found

private theorem equalWithin_later {n m : Nat} {r : Bool} (less : n ≤ m) (given : equalWithin h n a b = some r) :
    equalWithin h m a b = some r := by
  induction m, less using Nat.le_induction with
  | base => exact given
  | succ m _ ih => exact equalWithin_refines m a b r ih

private theorem equalWithin_agrees (n : Nat) : Reports (fun a b => equalWithin h n a b) (Agree h) where
  sound _ _ given := ⟨n, given⟩
  complete a b same := by
    obtain ⟨m, same⟩ := same
    intro differ
    rcases Nat.le_total n m with less | more
    · cases same.symm.trans (equalWithin_later less differ)
    · cases differ.symm.trans (equalWithin_later more same)

private theorem verdict?_none (n : Nat) (pair : Nat × Nat) :
    verdict? h n pair = none ↔ (h.list pair.1).size = (h.list pair.2).size ∧
      ∃ a b, Confronts (Agree h) a b (h.list pair.1).toList (h.list pair.2).toList ∧
        equalWithin h n a b = none := by
  rw [verdict?]
  by_cases even : (h.list pair.1).size = (h.list pair.2).size
  · rw [if_neg (not_not.mpr even), equalItems_none (equalWithin_agrees n)]
    exact ⟨fun failed => ⟨even, failed⟩, And.right⟩
  · rw [if_pos even]
    exact ⟨nofun, fun failed => absurd failed.1 even⟩

private theorem equalWithin_none (n : Nat) (a b : Value) :
    equalWithin h (n + 1) a b = none ↔ ∃ pair, Meets (Agree h) a b pair ∧ verdict? h n pair = none :=
  equalLayer_none (equalWithin_agrees (n + 1)) a b

private theorem pairs_descending (h : Heap) :
    Descending (Descends h (Agree h)) fun n pair => verdict? h n pair = none where
  last pair inner descends := by
    obtain ⟨even, a, b, confronts, _⟩ := descends
    exact (verdict?_none 0 pair).mpr ⟨even, a, b, confronts, rfl⟩
  onward n pair := by
    simp only [verdict?_none (n + 1), equalWithin_none]
    constructor
    · rintro ⟨even, a, b, confronts, inner, meets, failed⟩
      exact ⟨inner, ⟨even, a, b, confronts, meets⟩, failed⟩
    · rintro ⟨inner, ⟨even, a, b, confronts, meets⟩, failed⟩
      exact ⟨even, a, b, confronts, inner, meets, failed⟩

private theorem verdict?_inside {n : Nat} {pair : Nat × Nat} (failed : verdict? h n pair = none) :
    pair ∈ Finset.range h.lists.size ×ˢ Finset.range h.lists.size := by
  have within : ∀ ref a, a ∈ (h.list ref).toList → ref < h.lists.size := by
    intro ref a member
    by_contra outside
    have empty : h.list ref = #[] := by simp [Heap.list, Array.getD, outside]
    simp [empty] at member
  obtain ⟨_, a, b, confronts, _⟩ := (verdict?_none n pair).mp failed
  exact Finset.mem_product.mpr
    ⟨Finset.mem_range.mpr (within _ a confronts.left), Finset.mem_range.mpr (within _ b confronts.right)⟩

private theorem verdict?_none_iff {pair : Nat × Nat} :
    verdict? h (h.lists.size * h.lists.size) pair = none ↔ Recurs (Descends h (Agree h)) pair := by
  have enough : (Finset.range h.lists.size ×ˢ Finset.range h.lists.size).card ≤
      h.lists.size * h.lists.size := by
    rw [Finset.card_product, Finset.card_range]
  exact (pairs_descending h).gives_iff (fun _ _ => verdict?_inside) enough pair

private theorem equal?_none_iff_agree :
    h.equal? a b = none ↔ ∃ pair, Meets (Agree h) a b pair ∧ Recurs (Descends h (Agree h)) pair := by
  simp only [equal?, equalWithin_none, verdict?_none_iff]

theorem equal?_eq_some_iff {r : Bool} : h.equal? a b = some r ↔ ∃ n, equalWithin h n a b = some r := by
  have hopeless : equalWithin h (h.lists.size * h.lists.size + 1) a b = none →
      ∀ n, equalWithin h n a b = none := by
    intro failed n
    obtain ⟨pair, meets, recurs⟩ := equal?_none_iff_agree.mp failed
    cases n with
    | zero => rfl
    | succ n =>
      exact (equalWithin_none n a b).mpr ⟨pair, meets, (pairs_descending h).recurring recurs n⟩
  exact settles (fun n => equalWithin_refines n a b) hopeless r

/-- Two values cannot be compared exactly if that comes to comparing two lists that come to be compared with
each other again. -/
theorem equal?_none_iff :
    h.equal? a b = none ↔ ∃ pair, Meets (Equals h) a b pair ∧ Recurs (Descends h (Equals h)) pair := by
  have same : Equals h = Agree h := by
    funext a b
    exact propext equal?_eq_some_iff
  rw [same]
  exact equal?_none_iff_agree

/-- A list stands in a value, which is itself or has it among its items. -/
inductive Has : Value → Nat → Prop
  | list (i : Nat) : Has (.list i) i
  | tuple {items : List Value} {a : Value} {i : Nat} : a ∈ items → Has a i → Has (.tuple items) i

/-- One list stands in an item of another one. -/
def Holds (h : Heap) (i j : Nat) : Prop := ∃ a ∈ (h.list i).toList, Has a j

private theorem Meets.has {pair : Nat × Nat} (meets : Meets equal a b pair) : Has a pair.1 ∧ Has b pair.2 := by
  induction meets with
  | lists _ => exact ⟨.list _, .list _⟩
  | tuples _ confronts _ ih => exact ⟨.tuple confronts.left ih.1, .tuple confronts.right ih.2⟩

private theorem Descends.holds {pair inner : Nat × Nat} (descends : Descends h equal pair inner) :
    Holds h pair.1 inner.1 ∧ Holds h pair.2 inner.2 := by
  obtain ⟨_, a, b, confronts, meets⟩ := descends
  exact ⟨⟨a, confronts.left, meets.has.1⟩, ⟨b, confronts.right, meets.has.2⟩⟩

theorem self_containing_of_equal?_none (failed : h.equal? a b = none) :
    (∃ i, Has a i ∧ Recurs (Holds h) i) ∧ ∃ j, Has b j ∧ Recurs (Holds h) j := by
  obtain ⟨pair, meets, recurs⟩ := equal?_none_iff.mp failed
  exact ⟨⟨pair.1, meets.has.1, recurs.map Prod.fst fun _ _ descends => descends.holds.1⟩,
    ⟨pair.2, meets.has.2, recurs.map Prod.snd fun _ _ descends => descends.holds.2⟩⟩

end Lowering.Proofs

import Mathlib
import Lowering.Machine.Run
import Lowering.Proofs.Equality
import Lowering.Proofs.Plans
import Lowering.Proofs.Rendering

/-! Values that contain themselves: what can be shown and compared. The guest can build lists that contain
themselves. It cannot be shown those, nor compare two of them. All other values are shown and compared. -/

namespace Lowering.Proofs
open Heap Machine Guest

variable {h : Heap} {needle container : Value} {items : List Value}

/-- Looking for a value among items comes to one that cannot be compared with it. -/
inductive Stuck (h : Heap) (needle : Value) : List Value → Prop
  | here {item : Value} {items : List Value} : h.equal? item needle = none → Stuck h needle (item :: items)
  | later {item : Value} {items : List Value} :
    h.equal? item needle = some false → Stuck h needle items → Stuck h needle (item :: items)

theorem Stuck.mem (stuck : Stuck h needle items) : ∃ item ∈ items, h.equal? item needle = none := by
  induction stuck with
  | here failed => exact ⟨_, List.mem_cons_self, failed⟩
  | later _ _ ih =>
    obtain ⟨item, member, failed⟩ := ih
    exact ⟨item, List.mem_cons_of_mem _ member, failed⟩

theorem holds?_none : holds? h needle items = none ↔ Stuck h needle items := by
  induction items with
  | nil => exact ⟨nofun, nofun⟩
  | cons item items ih =>
    rw [holds?]
    constructor
    · intro failed
      cases first : h.equal? item needle with
      | none => exact .here first
      | some found =>
        cases found with
        | true => simp [first] at failed
        | false =>
          rw [first] at failed
          exact .later first (ih.mp failed)
    · intro stuck
      cases stuck with
      | here first => rw [first]
      | later first stuck =>
        rw [first]
        exact ih.mpr stuck

private theorem not_stuck_texts {α : Type} (text : α → String) (xs : List α) :
    ¬ Stuck h needle (xs.map fun x => .str (text x)) := by
  intro stuck
  induction xs with
  | nil => cases stuck
  | cons x xs ih =>
    cases stuck with
    | here failed => cases failed
    | later _ stuck => exact ih stuck

private theorem contains_endless {negated : Bool} :
    contains h negated needle container = (.failed .endless, h) ↔
      ∃ items, h.items? container = some items ∧ Stuck h needle items.toList := by
  simp only [← holds?_none]
  cases container with
  | str s =>
    have quiet : contains h negated needle (.str s) ≠ (.failed .endless, h) := by
      cases needle <;> simp [contains, give, fail]
    refine ⟨fun failed => absurd failed quiet, ?_⟩
    rintro ⟨_, ⟨⟩, failed⟩
    exact absurd (holds?_none.mp failed) (not_stuck_texts _ _)
  | tuple | list =>
    simp only [contains, Heap.items?, Option.some.injEq, exists_eq_left']
    split
    · next sought => simp [sought, give]
    · next sought => simp [sought]
  | _ => simp [contains, Heap.items?, fail]

private theorem compare_endless {comparison : Comparison} (equality : comparison ∈ [.equal, .notEqual])
    {a b : Value} : Machine.compare h comparison.code a b = (.failed .endless, h) ↔ h.equal? a b = none := by
  have named : Comparison.ofCode? comparison.code = some comparison := by cases comparison <;> rfl
  unfold Machine.compare
  rw [named]
  fin_cases equality <;> cases h.equal? a b <;> simp [give]

private theorem repr_endless {v : Value} : Machine.repr h [v] = (.failed .endless, h) ↔ h.repr? v = none := by
  cases text : h.repr? v <;> simp [Machine.repr, giveText, give, text]

/-- On every heap a value is shown unless it shows objects that come to show themselves, and two values are
compared unless that comes to lists that come to be compared with each other again; then both values have
lists that come to contain themselves. The bounds under which values are shown and compared do not matter.
The function that shows values, both comparisons for equality and the search for a value fail to end nowhere
else. -/
theorem rendering_and_comparing_end (h : Heap) :
    (∀ v, h.repr? v = none ↔ ∃ d ∈ guestShown v, Recurs (Exhibits h) d) ∧
    (∀ v t, h.repr? v = some t ↔ ∃ n, reprWithin h n v = some t) ∧
    (∀ v, Machine.repr h [v] = (.failed .endless, h) ↔ h.repr? v = none) ∧
    (∀ a b, h.equal? a b = none ↔
      ∃ pair, Meets (Equals h) a b pair ∧ Recurs (Descends h (Equals h)) pair) ∧
    (∀ a b, h.equal? a b = none →
      (∃ i, Has a i ∧ Recurs (Holds h) i) ∧ ∃ j, Has b j ∧ Recurs (Holds h) j) ∧
    (∀ a b r, h.equal? a b = some r ↔ ∃ n, equalWithin h n a b = some r) ∧
    (∀ comparison ∈ [Comparison.equal, .notEqual], ∀ a b,
      Machine.compare h comparison.code a b = (.failed .endless, h) ↔ h.equal? a b = none) ∧
    ∀ negated needle container, contains h negated needle container = (.failed .endless, h) ↔
      ∃ items, h.items? container = some items ∧ Stuck h needle items.toList :=
  ⟨fun _ => repr?_none_iff, fun _ _ => repr?_eq_some_iff, fun _ => repr_endless,
    fun _ _ => equal?_none_iff, fun _ _ => self_containing_of_equal?_none,
    fun _ _ _ => equal?_eq_some_iff, fun _ equality _ _ => compare_endless equality,
    fun _ _ _ => contains_endless⟩

/-- A heap on which lists hold one another, but none of them itself. -/
def sharing : Heap := { lists := #[#[.list 1, .tuple [.list 1, .int 2]], #[.int 1]] }

theorem sharing_ends : sharing.repr? (.list 0) = some "[[1], ([1], 2)]" ∧
    ∃ d ∈ guestShown (.list 0), ¬ Recurs (Exhibits sharing) d := by
  obtain ⟨shown, _⟩ := rendering_and_comparing_end sharing
  have text : sharing.repr? (.list 0) = some "[[1], ([1], 2)]" := by decide +kernel
  have no : ¬ ∃ d ∈ guestShown (.list 0), Recurs (Exhibits sharing) d := by
    rw [← shown, text]
    exact nofun
  have member : Display.list true 0 ∈ guestShown (.list 0) := List.mem_singleton_self _
  exact ⟨text, _, member, fun recurs => no ⟨_, member, recurs⟩⟩

private theorem itself_untold {i : Nat} (itself : h.list i = #[.list i]) (n : Nat) :
    reprWithin h n (.list i) = none := by
  have round : Exhibits h (.list true i) (.list true i) := by
    simp [Exhibits, shownBy, itself, guestShownAll, guestShown]
  have failed : h.repr? (.list i) = none :=
    repr?_none_iff.mpr ⟨.list true i, List.mem_singleton_self _, _, .refl, .single round⟩
  refine Option.eq_none_iff_forall_ne_some.mpr fun t shown => ?_
  rw [repr?_eq_some_iff.mpr ⟨n, shown⟩] at failed
  cases failed

private theorem itself_undecided {i j : Nat} (apart : i ≠ j) (first : h.list i = #[.list i])
    (second : h.list j = #[.list j]) (n : Nat) : equalWithin h n (.list i) (.list j) = none := by
  have round : Descends h (Equals h) (i, j) (i, j) := by
    refine ⟨by simp [first, second], .list i, .list j, ?_, .lists apart⟩
    simpa only [first, second] using Confronts.here
  have failed : h.equal? (.list i) (.list j) = none :=
    equal?_none_iff.mpr ⟨(i, j), .lists apart, _, .refl, .single round⟩
  refine Option.eq_none_iff_forall_ne_some.mpr fun r given => ?_
  rw [equal?_eq_some_iff.mpr ⟨n, given⟩] at failed
  cases failed

/-- Puts a list into itself and returns it. -/
def nesting : Function where
  name := "f"
  version := ⟨3, 9⟩
  localNames := #["x"]
  names := #["append"]
  instructions := #[{ offset := 0, code := Opcode.buildList.code },
    { offset := 2, code := Opcode.storeFast.code },
    { offset := 4, code := Opcode.loadFast.code },
    { offset := 6, code := Opcode.loadAttr.code },
    { offset := 8, code := Opcode.loadFast.code },
    { offset := 10, code := Opcode.callFunction.code, arg := 1 },
    { offset := 12, code := Opcode.popTop.code },
    { offset := 14, code := Opcode.loadFast.code },
    { offset := 16, code := Opcode.returnValue.code }]

/-- The list that a run returns. -/
def givenList? : Ending → Option Nat
  | .returned (.list i) => some i
  | _ => none

/-- The list that is the only item of another one. -/
def soleList? (h : Heap) (i : Nat) : Option Nat :=
  match (h.list i).toList with
  | [.list j] => some j
  | _ => none

private theorem givenList?_some {ending : Ending} {i : Nat} (given : givenList? ending = some i) :
    ending = .returned (.list i) := by
  unfold givenList? at given
  split at given
  · cases given
    rfl
  · cases given

private theorem soleList?_some {i j : Nat} (sole : soleList? h i = some j) : h.list i = #[.list j] := by
  unfold soleList? at sole
  split at sole
  · next only =>
    cases sole
    exact Array.toList_inj.mp only
  · cases sole

/-- What it returns has no text under any bound, and no bound is enough to compare two of its results. -/
theorem nesting_endless : ∃ l events st st', lower nesting = (.ok l, events) ∧
    start {} 9 (.start {}) l.routine [] = (st, .returned (.list 0)) ∧
    start {} 9 st l.routine [] = (st', .returned (.list 1)) ∧
    (∀ n, reprWithin st.heap n (.list 0) = none) ∧
    ∀ n, equalWithin st'.heap n (.list 0) (.list 1) = none := by
  have checked : (lower nesting).1.toOption.map (fun l =>
      let first := start {} 9 (.start {}) l.routine []
      let second := start {} 9 first.1 l.routine []
      (givenList? first.2, givenList? second.2, soleList? first.1.heap 0, soleList? second.1.heap 0,
        soleList? second.1.heap 1)) = some (some 0, some 1, some 0, some 0, some 1) := by decide +kernel
  obtain ⟨l, accepted, results⟩ := Option.map_eq_some_iff.mp checked
  simp only [Prod.mk.injEq] at results
  obtain ⟨first, second, itself, still, other⟩ := results
  exact ⟨l, _, _, _, Prod.ext (ok_of_toOption accepted) rfl, Prod.ext rfl (givenList?_some first),
    Prod.ext rfl (givenList?_some second), itself_untold (soleList?_some itself),
    itself_undecided (by decide) (soleList?_some still) (soleList?_some other)⟩

end Lowering.Proofs

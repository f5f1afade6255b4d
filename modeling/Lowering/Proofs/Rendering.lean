import Mathlib.Data.Finset.Union
import Mathlib.Data.Finset.Image
import Mathlib.Data.Finset.Range
import Lowering.Heap.Text
import Lowering.Proofs.Descents

/-! Values as text. The text of an object shows other objects, in the guest's form or in the plain one. A value
has a text exactly if none of the objects that it shows comes to show itself, and the bound on the references
that are followed is never the reason why it has none. -/

namespace Lowering.Proofs
open Heap

/-- An object in one of the forms in which it is shown. The plain form of a list or an exception differs from
the one of the guest. -/
inductive Display
  | list (guest : Bool) (ref : Nat)
  | exception (guest : Bool) (ref : Nat)
  | record (ref : Nat)
  | iterator (ref : Nat)
  | routine (ref : Nat)
deriving DecidableEq

namespace Display

def value : Display → Value
  | list _ ref => .list ref
  | exception _ ref => .exception ref
  | record ref => .record ref
  | iterator ref => .iterator ref
  | routine ref => .routine ref

/-- The text of an object when so many more references may be followed. -/
def text? (h : Heap) (n : Nat) : Display → Option String
  | list true ref => objectRepr h (fun v => reprWithin h n v) (.list ref)
  | exception true ref => objectRepr h (fun v => reprWithin h n v) (.exception ref)
  | d => objectPlain h (fun v => reprWithin h n v) (fun v => plainWithin h n v) d.value

end Display

mutual

/-- The objects that a value inside another one shows in the plain form. -/
def exposed (visible : Bool) : Value → List Display
  | .tuple items | .sequence items => exposedAll visible items
  | .exception ref => if visible then [.exception false ref] else []
  | .routine ref => if visible then [.routine ref] else []
  | _ => []

def exposedAll (visible : Bool) : List Value → List Display
  | [] => []
  | v :: rest => exposed visible v ++ exposedAll visible rest

end

/-- The objects that a value shows in the plain form. -/
def plainShown : Value → List Display
  | .list ref => [.list false ref]
  | .record ref => [.record ref]
  | .iterator ref => [.iterator ref]
  | v => exposed true v

mutual

/-- The objects that a value shows in the guest's form. -/
def guestShown : Value → List Display
  | .tuple items => guestShownAll items
  | .list ref => [.list true ref]
  | .exception ref => [.exception true ref]
  | v => plainShown v

def guestShownAll : List Value → List Display
  | [] => []
  | v :: rest => guestShown v ++ guestShownAll rest

end

/-- The objects that an object shows. An iterator hides those of its items. -/
def shownBy (h : Heap) : Display → List Display
  | .list true ref => guestShownAll (h.list ref).toList
  | .list false ref => exposedAll true (h.list ref).toList
  | .exception _ ref => guestShownAll (h.exception ref).args
  | .record ref => exposedAll true ((h.record ref).attrs.map Prod.snd)
  | .iterator _ => []
  | .routine ref => (h.routine ref).constants.flatMap plainShown

/-- One object shows another one. -/
def Exhibits (h : Heap) (d e : Display) : Prop := e ∈ shownBy h d

variable {h : Heap} {visible : Bool} {alone repr plain : Value → Option String}

private theorem mapM_none {f : Value → Option String} {items : List Value} :
    items.mapM f = none ↔ ∃ v ∈ items, f v = none := by
  induction items with
  | nil => simp
  | cons v items ih =>
    rw [List.mapM_cons]
    cases first : f v <;> cases rest : items.mapM f <;> simp [first, rest, ← ih]

private theorem interiorAll_eq (items : List Value) :
    interiorAll visible alone items = items.mapM (Heap.interior visible alone) := by
  induction items with
  | nil => rfl
  | cons v items ih => rw [interiorAll, ih, List.mapM_cons]

private theorem reprLayerAll_eq (items : List Value) :
    reprLayerAll repr plain items = items.mapM (reprLayer repr plain) := by
  induction items with
  | nil => rfl
  | cons v items ih => rw [reprLayerAll, ih, List.mapM_cons]

private theorem exposedAll_eq (items : List Value) :
    exposedAll visible items = items.flatMap (exposed visible) := by
  induction items with
  | nil => rfl
  | cons v items ih => rw [exposedAll, ih, List.flatMap_cons]

private theorem guestShownAll_eq (items : List Value) : guestShownAll items = items.flatMap guestShown := by
  induction items with
  | nil => rfl
  | cons v items ih => rw [guestShownAll, ih, List.flatMap_cons]

mutual

private theorem interior_none (visible : Bool) (alone : Value → Option String) :
    ∀ v, Heap.interior visible alone v = none ↔ ∃ d ∈ exposed visible v, alone d.value = none
  | .tuple items | .sequence items => by
    rw [Heap.interior, exposed, Option.map_eq_none_iff]
    exact interiorAll_none visible alone items
  | .exception ref | .routine ref => by
    cases visible <;> simp [Heap.interior, exposed, Display.value]
  | .none | .bool _ | .int _ | .float _ | .str _ | .null | .unbound | .list _ | .record _ | .iterator _
  | .cls _ | .builtin _ | .function _ | .word _ | .word32 _ | .natural _ | .single _ | .foreign _ _ => by
    simp [Heap.interior, exposed]

private theorem interiorAll_none (visible : Bool) (alone : Value → Option String) :
    ∀ items, interiorAll visible alone items = none ↔ ∃ d ∈ exposedAll visible items, alone d.value = none
  | [] => by simp [interiorAll, exposedAll]
  | v :: rest => by
    simp only [exposedAll, List.mem_append, or_and_right, exists_or, ← interior_none visible alone v,
      ← interiorAll_none visible alone rest, interiorAll_eq, List.mapM_cons]
    cases Heap.interior visible alone v <;> cases rest.mapM (Heap.interior visible alone) <;> simp

end

private theorem plainLayer_none (v : Value) :
    plainLayer h repr plain v = none ↔ ∃ d ∈ plainShown v, objectPlain h repr plain d.value = none := by
  cases v with
  | list | record | iterator => simp [plainLayer, plainShown, Display.value]
  | cls | builtin | function => simp [plainLayer, plainShown, exposed, objectPlain]
  | _ => exact interior_none true (objectPlain h repr plain) _

mutual

private theorem exposed_kind (visible : Bool) {d : Display} :
    ∀ v, d ∈ exposed visible v → (∃ ref, d = .exception false ref) ∨ ∃ ref, d = .routine ref
  | .tuple items, member | .sequence items, member => exposedAll_kind visible items member
  | .exception ref, member => by
    cases visible with
    | true => exact .inl ⟨ref, List.mem_singleton.mp member⟩
    | false => cases member
  | .routine ref, member => by
    cases visible with
    | true => exact .inr ⟨ref, List.mem_singleton.mp member⟩
    | false => cases member

private theorem exposedAll_kind (visible : Bool) {d : Display} :
    ∀ items, d ∈ exposedAll visible items → (∃ ref, d = .exception false ref) ∨ ∃ ref, d = .routine ref
  | v :: rest, member => by
    rcases List.mem_append.mp member with first | later
    · exact exposed_kind visible v first
    · exact exposedAll_kind visible rest later

end

private theorem plainShown_text? {n : Nat} {v : Value} {d : Display} (member : d ∈ plainShown v) :
    d.text? h n = objectPlain h (reprWithin h n) (plainWithin h n) d.value := by
  cases v with
  | list | record | iterator =>
    obtain rfl := List.mem_singleton.mp member
    rfl
  | _ =>
    obtain ⟨ref, rfl⟩ | ⟨ref, rfl⟩ := exposed_kind true _ member
    · rfl
    · rfl

private theorem plainWithin_none (n : Nat) (v : Value) :
    plainWithin h (n + 1) v = none ↔ ∃ d ∈ plainShown v, d.text? h n = none := by
  rw [plainWithin, plainLayer_none]
  exact exists_congr fun d => and_congr_right fun member => by rw [plainShown_text? member]

mutual

private theorem reprLayer_none (n : Nat) :
    ∀ v, reprLayer (objectRepr h fun v => reprWithin h n v)
        (plainLayer h (fun v => reprWithin h n v) fun v => plainWithin h n v) v = none ↔
      ∃ d ∈ guestShown v, d.text? h n = none
  | .tuple items => by
    rw [reprLayer, guestShown, Option.map_eq_none_iff]
    exact reprLayerAll_none n items
  | .list ref | .exception ref => by simp [reprLayer, guestShown, Display.text?]
  | .none | .bool _ | .str _ => by simp [reprLayer, guestShown, plainShown, exposed]
  | .cls _ | .builtin _ | .function _ => by simp [reprLayer, guestShown, plainShown, exposed, objectRepr]
  | .int _ | .float _ | .null | .unbound | .record _ | .iterator _ | .sequence _ | .routine _ | .word _
  | .word32 _ | .natural _ | .single _ | .foreign _ _ => by
    simp only [reprLayer, guestShown]
    exact plainWithin_none n _

private theorem reprLayerAll_none (n : Nat) :
    ∀ items, reprLayerAll (objectRepr h fun v => reprWithin h n v)
        (plainLayer h (fun v => reprWithin h n v) fun v => plainWithin h n v) items = none ↔
      ∃ d ∈ guestShownAll items, d.text? h n = none
  | [] => by simp [reprLayerAll, guestShownAll]
  | v :: rest => by
    simp only [guestShownAll, List.mem_append, or_and_right, exists_or, ← reprLayer_none n v,
      ← reprLayerAll_none n rest, reprLayerAll_eq, List.mapM_cons]
    cases reprLayer (objectRepr h fun v => reprWithin h n v)
        (plainLayer h (fun v => reprWithin h n v) fun v => plainWithin h n v) v <;>
      cases rest.mapM (reprLayer (objectRepr h fun v => reprWithin h n v)
        (plainLayer h (fun v => reprWithin h n v) fun v => plainWithin h n v)) <;> simp

end

private theorem reprWithin_none (n : Nat) (v : Value) :
    reprWithin h (n + 1) v = none ↔ ∃ d ∈ guestShown v, d.text? h n = none := by
  rw [reprWithin]
  exact reprLayer_none n v

private theorem guestList_none (n ref : Nat) :
    (Display.list true ref).text? h n = none ↔ ∃ v ∈ (h.list ref).toList, reprWithin h n v = none := by
  rw [← mapM_none]
  simp only [Display.text?, objectRepr]
  cases (h.list ref).toList.mapM fun v => reprWithin h n v <;> simp

private theorem guestException_none (n ref : Nat) :
    (Display.exception true ref).text? h n = none ↔ ∃ v ∈ (h.exception ref).args, reprWithin h n v = none := by
  rw [← mapM_none]
  simp only [Display.text?, objectRepr]
  cases (h.exception ref).args.mapM fun v => reprWithin h n v <;> simp

private theorem plainList_none (n ref : Nat) :
    (Display.list false ref).text? h n = none ↔
      ∃ d ∈ exposedAll true (h.list ref).toList, plainWithin h n d.value = none := by
  rw [← interiorAll_none]
  simp only [Display.text?, Display.value, objectPlain]
  cases interiorAll true (fun v => plainWithin h n v) (h.list ref).toList <;> simp

private theorem plainException_none (n ref : Nat) :
    (Display.exception false ref).text? h n = none ↔
      ∃ v ∈ (h.exception ref).args, (∀ s, v ≠ .str s) ∧ reprWithin h n v = none := by
  have argument : ∀ v, argumentText (fun v => reprWithin h n v) v = none ↔
      (∀ s, v ≠ .str s) ∧ reprWithin h n v = none := by
    intro v
    cases v <;> simp [argumentText]
  simp only [← argument, ← mapM_none, Display.text?, Display.value, objectPlain]
  split
  · next empty => simp [List.isEmpty_iff.mp empty]
  · cases (h.exception ref).args.mapM (argumentText fun v => reprWithin h n v) <;> simp

private theorem record_none (n ref : Nat) :
    (Display.record ref).text? h n = none ↔
      ∃ d ∈ exposedAll true ((h.record ref).attrs.map Prod.snd), plainWithin h n d.value = none := by
  have same : ∀ d, d ∈ exposedAll true ((h.record ref).attrs.map Prod.snd) ↔
      d ∈ exposedAll true ((sortedAttrs (h.record ref).attrs).map Prod.snd) := by
    intro d
    rw [exposedAll_eq, exposedAll_eq]
    exact ((List.mergeSort_perm _ _).symm.map Prod.snd |>.flatMap_right (exposed true)).mem_iff
  simp only [same, ← interiorAll_none]
  simp only [Display.text?, Display.value, objectPlain]
  cases interiorAll true (fun v => plainWithin h n v) ((sortedAttrs (h.record ref).attrs).map Prod.snd) <;> simp

mutual

private theorem exposed_hidden : ∀ v, exposed false v = []
  | .tuple items | .sequence items => exposedAll_hidden items
  | .none | .bool _ | .int _ | .float _ | .str _ | .null | .unbound | .list _ | .record _ | .iterator _
  | .exception _ | .cls _ | .builtin _ | .function _ | .routine _ | .word _ | .word32 _ | .natural _
  | .single _ | .foreign _ _ => rfl

private theorem exposedAll_hidden : ∀ items, exposedAll false items = []
  | [] => rfl
  | v :: rest => by rw [exposedAll, exposed_hidden v, exposedAll_hidden rest, List.append_nil]

end

private theorem iterator_some (n ref : Nat) : (Display.iterator ref).text? h n ≠ none := by
  have shown : interiorAll false (fun v => plainWithin h n v) (h.iterator ref).items.toList ≠ none := by
    rw [ne_eq, interiorAll_none, exposedAll_hidden]
    simp
  obtain ⟨parts, shown⟩ := Option.ne_none_iff_exists'.mp shown
  simp [Display.text?, Display.value, objectPlain, shown]

private theorem routine_none (n ref : Nat) :
    (Display.routine ref).text? h n = none ↔ ∃ v ∈ (h.routine ref).constants, plainWithin h n v = none := by
  rw [← mapM_none]
  simp only [Display.text?, Display.value, objectPlain]
  cases (h.routine ref).constants.mapM fun v => plainWithin h n v <;> simp

private theorem text?_onward (n : Nat) (d : Display) :
    d.text? h (n + 1) = none ↔ ∃ e, Exhibits h d e ∧ e.text? h n = none := by
  have gathered : ∀ (items : List Value) (shown : Value → List Display),
      (∃ v ∈ items, ∃ e ∈ shown v, e.text? h n = none) ↔ ∃ e ∈ items.flatMap shown, e.text? h n = none := by
    simp only [List.mem_flatMap]
    grind
  have alone : ∀ items, (∃ d ∈ exposedAll true items, plainWithin h (n + 1) d.value = none) ↔
      ∃ e ∈ exposedAll true items, e.text? h n = none := by
    intro items
    refine exists_congr fun d => and_congr_right fun member => ?_
    obtain ⟨ref, rfl⟩ | ⟨ref, rfl⟩ := exposedAll_kind true items member <;>
      simp [plainWithin_none, Display.value, plainShown, exposed]
  unfold Exhibits
  cases d with
  | list guest ref =>
    cases guest with
    | true => simp only [guestList_none, reprWithin_none, gathered, shownBy, guestShownAll_eq]
    | false => rw [plainList_none, alone, shownBy]
  | exception guest ref =>
    have texts : ∀ v, ((∀ s, v ≠ Value.str s) ∧ ∃ e ∈ guestShown v, e.text? h n = none) ↔
        ∃ e ∈ guestShown v, e.text? h n = none := by
      intro v
      cases v <;> simp [guestShown, plainShown, exposed]
    cases guest with
    | true => simp only [guestException_none, reprWithin_none, gathered, shownBy, guestShownAll_eq]
    | false => simp only [plainException_none, reprWithin_none, texts, gathered, shownBy, guestShownAll_eq]
  | record ref => rw [record_none, alone, shownBy]
  | iterator ref => simp [iterator_some, shownBy]
  | routine ref => simp only [routine_none, plainWithin_none, gathered, shownBy]

private theorem text?_last {d e : Display} (shows : Exhibits h d e) : d.text? h 0 = none := by
  cases d with
  | list guest ref =>
    cases guest with
    | true =>
      rw [Exhibits, shownBy, guestShownAll_eq, List.mem_flatMap] at shows
      obtain ⟨v, member, _⟩ := shows
      exact (guestList_none 0 ref).mpr ⟨v, member, rfl⟩
    | false => exact (plainList_none 0 ref).mpr ⟨e, shows, rfl⟩
  | exception guest ref =>
    rw [Exhibits, shownBy, guestShownAll_eq, List.mem_flatMap] at shows
    obtain ⟨v, member, shown⟩ := shows
    cases guest with
    | true => exact (guestException_none 0 ref).mpr ⟨v, member, rfl⟩
    | false =>
      refine (plainException_none 0 ref).mpr ⟨v, member, ?_, rfl⟩
      rintro s rfl
      cases shown
  | record ref => exact (record_none 0 ref).mpr ⟨e, shows, rfl⟩
  | iterator ref => cases shows
  | routine ref =>
    obtain ⟨v, member, _⟩ := List.mem_flatMap.mp shows
    exact (routine_none 0 ref).mpr ⟨v, member, rfl⟩

private theorem exhibits_descending (h : Heap) : Descending (Exhibits h) fun n d => d.text? h n = none where
  last _ _ shows := text?_last shows
  onward := text?_onward

/-- The objects that may show others. -/
private def displays (h : Heap) : Finset Display :=
  ((Finset.range h.lists.size).image (.list true) ∪ (Finset.range h.lists.size).image (.list false)) ∪
    ((Finset.range h.exceptions.size).image (.exception true) ∪
      (Finset.range h.exceptions.size).image (.exception false)) ∪
    ((Finset.range h.records.size).image .record ∪ (Finset.range h.routines.size).image .routine)

private theorem displays_card (h : Heap) : (displays h).card ≤ 2 * h.size := by
  have within (shown : Nat → Display) (k : Nat) : ((Finset.range k).image shown).card ≤ k :=
    Finset.card_image_le.trans_eq (Finset.card_range k)
  have lists := (Finset.card_union_le ((Finset.range h.lists.size).image (Display.list true)) _).trans
    (Nat.add_le_add (within _ _) (within (Display.list false) h.lists.size))
  have exceptions :=
    (Finset.card_union_le ((Finset.range h.exceptions.size).image (Display.exception true)) _).trans
      (Nat.add_le_add (within _ _) (within (Display.exception false) h.exceptions.size))
  have others := (Finset.card_union_le ((Finset.range h.records.size).image Display.record) _).trans
    (Nat.add_le_add (within _ _) (within Display.routine h.routines.size))
  have total := (Finset.card_union_le _ _).trans
    (Nat.add_le_add ((Finset.card_union_le _ _).trans (Nat.add_le_add lists exceptions)) others)
  refine total.trans ?_
  rw [Heap.size]
  omega

private theorem text?_inside {n : Nat} {d : Display} (given : d.text? h n = none) : d ∈ displays h := by
  cases d with
  | list guest ref =>
    have inside : ref < h.lists.size := by
      by_contra outside
      have empty : h.list ref = #[] := by simp [Heap.list, Array.getD, outside]
      cases guest with
      | true => simp [guestList_none, empty] at given
      | false => simp [plainList_none, empty, exposedAll] at given
    cases guest <;> simp [displays, inside]
  | exception guest ref =>
    have inside : ref < h.exceptions.size := by
      by_contra outside
      have empty : h.exception ref = default := by simp [Heap.exception, Array.getD, outside]
      have none : (default : ExceptionObject).args = [] := rfl
      cases guest with
      | true => simp [guestException_none, empty, none] at given
      | false => simp [plainException_none, empty, none] at given
    cases guest <;> simp [displays, inside]
  | record ref =>
    have inside : ref < h.records.size := by
      by_contra outside
      have empty : h.record ref = default := by simp [Heap.record, Array.getD, outside]
      have none : (default : RecordObject).attrs = [] := rfl
      simp [record_none, empty, none, exposedAll] at given
    simp [displays, inside]
  | iterator ref => exact absurd given (iterator_some n ref)
  | routine ref =>
    have inside : ref < h.routines.size := by
      by_contra outside
      have empty : h.routine ref = default := by simp [Heap.routine, Array.getD, outside]
      have none : (default : Host.Routine).constants = [] := rfl
      simp [routine_none, empty, none] at given
    simp [displays, inside]

private theorem text?_none_iff {d : Display} : d.text? h (2 * h.size) = none ↔ Recurs (Exhibits h) d :=
  (exhibits_descending h).gives_iff (fun _ _ => text?_inside) (displays_card h) d

theorem repr?_none_iff {v : Value} : h.repr? v = none ↔ ∃ d ∈ guestShown v, Recurs (Exhibits h) d := by
  simp only [repr?, followed, reprWithin_none, text?_none_iff]

/-- The second form has every text that the first one has. -/
private def Repeats (f g : Value → Option String) : Prop := ∀ v t, f v = some t → g v = some t

private theorem Repeats.mapM {f g : Value → Option String} (repeats : Repeats f g) :
    ∀ {items : List Value} {texts : List String}, items.mapM f = some texts → items.mapM g = some texts
  | [], _, all => all
  | v :: rest, _, all => by
    simp only [List.mapM_cons, Option.bind_eq_bind, Option.bind_eq_some_iff] at all ⊢
    obtain ⟨text, first, texts, later, same⟩ := all
    exact ⟨text, repeats v text first, texts, repeats.mapM later, same⟩

variable {alone' repr' plain' : Value → Option String}

mutual

private theorem Repeats.interior (repeats : Repeats alone alone') :
    ∀ v, ∀ t, Heap.interior visible alone v = some t → Heap.interior visible alone' v = some t
  | .tuple items, _, shown | .sequence items, _, shown => by
    simp only [Heap.interior, Option.map_eq_some_iff] at shown ⊢
    obtain ⟨parts, all, same⟩ := shown
    exact ⟨parts, repeats.interiorAll items parts all, same⟩
  | .exception ref, t, shown | .routine ref, t, shown => by
    cases visible with
    | true => exact repeats _ t shown
    | false => exact shown
  | .none, _, shown | .bool _, _, shown | .int _, _, shown | .float _, _, shown | .str _, _, shown
  | .null, _, shown | .unbound, _, shown | .list _, _, shown | .record _, _, shown | .iterator _, _, shown
  | .cls _, _, shown | .builtin _, _, shown | .function _, _, shown | .word _, _, shown | .word32 _, _, shown
  | .natural _, _, shown | .single _, _, shown | .foreign _ _, _, shown => shown

private theorem Repeats.interiorAll (repeats : Repeats alone alone') :
    ∀ items, ∀ texts, interiorAll visible alone items = some texts →
      interiorAll visible alone' items = some texts
  | [], _, all => all
  | v :: rest, _, all => by
    simp only [Heap.interiorAll, Option.bind_eq_bind, Option.bind_eq_some_iff] at all ⊢
    obtain ⟨text, first, texts, later, same⟩ := all
    exact ⟨text, repeats.interior v text first, texts, repeats.interiorAll rest texts later, same⟩

end

private theorem routineTextWith_congr {f g : Value → String} {r : Host.Routine}
    (agree : ∀ v ∈ r.constants, f v = g v) : routineTextWith f r = routineTextWith g r := by
  have operations : ∀ o ∈ r.ops.toList, operationTextWith f o = operationTextWith g o := by
    intro o member
    cases o with
    | const v =>
      have same : f v = g v := agree v (List.mem_filterMap.mpr ⟨.const v, member, rfl⟩)
      cases v with
      | str | none => rfl
      | _ => exact congrArg ("Const " ++ ·) same
    | _ => rfl
  change _ ++ String.join _ ++ _ = _ ++ String.join _ ++ _
  refine congrArg (fun lines => _ ++ String.join lines ++ _) (List.map_congr_left ?_)
  rintro ⟨o, i⟩ member
  dsimp only
  rw [operations o (List.fst_mem_of_mem_zipIdx member)]

private theorem Repeats.objectPlain (shows : Repeats repr repr') (stands : Repeats plain plain') :
    Repeats (objectPlain h repr plain) (objectPlain h repr' plain') := by
  intro v t shown
  cases v with
  | list ref | record ref | iterator ref =>
    simp only [Heap.objectPlain, Option.bind_eq_bind, Option.bind_eq_some_iff] at shown ⊢
    obtain ⟨parts, all, same⟩ := shown
    exact ⟨parts, stands.interiorAll _ parts all, same⟩
  | exception ref =>
    have arguments : Repeats (argumentText repr) (argumentText repr') := by
      intro v t shown
      cases v <;> first | exact shown | exact shows _ t shown
    simp only [Heap.objectPlain] at shown ⊢
    split at shown
    · next empty => rwa [if_pos empty]
    · next some =>
      simp only [Option.bind_eq_bind, Option.bind_eq_some_iff] at shown
      obtain ⟨parts, all, same⟩ := shown
      rw [if_neg some, arguments.mapM all]
      exact same
  | routine ref =>
    simp only [Heap.objectPlain, Option.bind_eq_bind, Option.bind_eq_some_iff] at shown ⊢
    obtain ⟨texts, all, same⟩ := shown
    have agree : ∀ v ∈ (h.routine ref).constants, (plain v).getD "" = (plain' v).getD "" := by
      intro v member
      obtain ⟨text, shown⟩ : ∃ text, plain v = some text := by
        by_contra none
        have failed := mapM_none.mpr ⟨v, member, Option.eq_none_iff_forall_ne_some.mpr (not_exists.mp none)⟩
        rw [failed] at all
        cases all
      rw [shown, stands v text shown]
    rw [← routineTextWith_congr agree]
    exact ⟨texts, stands.mapM all, same⟩
  | _ => exact shown

private theorem Repeats.plainLayer (shows : Repeats repr repr') (stands : Repeats plain plain') :
    Repeats (plainLayer h repr plain) (plainLayer h repr' plain') := by
  have objects : Repeats (Heap.objectPlain h repr plain) (Heap.objectPlain h repr' plain') :=
    shows.objectPlain stands
  intro v t shown
  cases v with
  | list | record | iterator | cls | builtin | function =>
    simp only [Heap.plainLayer] at shown ⊢
    exact objects _ t shown
  | _ => exact objects.interior _ t shown

private theorem Repeats.objectRepr (shows : Repeats repr repr') :
    Repeats (objectRepr h repr) (objectRepr h repr') := by
  intro v t shown
  cases v with
  | list ref | exception ref =>
    simp only [Heap.objectRepr, Option.bind_eq_bind, Option.bind_eq_some_iff] at shown ⊢
    obtain ⟨parts, all, same⟩ := shown
    exact ⟨parts, shows.mapM all, same⟩
  | _ => exact shown

mutual

private theorem Repeats.reprLayer (shows : Repeats repr repr') (stands : Repeats plain plain') :
    ∀ v, ∀ t, reprLayer repr plain v = some t → reprLayer repr' plain' v = some t
  | .tuple items, _, shown => by
    simp only [Heap.reprLayer, Option.map_eq_some_iff] at shown ⊢
    obtain ⟨parts, all, same⟩ := shown
    exact ⟨parts, shows.reprLayerAll stands items parts all, same⟩
  | .list ref, t, shown | .exception ref, t, shown | .cls ref, t, shown | .builtin ref, t, shown
  | .function ref, t, shown => shows _ t shown
  | .none, _, shown | .bool _, _, shown | .str _, _, shown => shown
  | .int _, t, shown | .float _, t, shown | .null, t, shown | .unbound, t, shown | .record _, t, shown
  | .iterator _, t, shown | .sequence _, t, shown | .routine _, t, shown | .word _, t, shown
  | .word32 _, t, shown | .natural _, t, shown | .single _, t, shown | .foreign _ _, t, shown =>
    stands _ t shown

private theorem Repeats.reprLayerAll (shows : Repeats repr repr') (stands : Repeats plain plain') :
    ∀ items, ∀ texts, reprLayerAll repr plain items = some texts → reprLayerAll repr' plain' items = some texts
  | [], _, all => all
  | v :: rest, _, all => by
    simp only [Heap.reprLayerAll, Option.bind_eq_bind, Option.bind_eq_some_iff] at all ⊢
    obtain ⟨text, first, texts, later, same⟩ := all
    exact ⟨text, shows.reprLayer stands v text first, texts, shows.reprLayerAll stands rest texts later, same⟩

end

private theorem within_repeats (n : Nat) :
    Repeats (fun v => reprWithin h n v) (fun v => reprWithin h (n + 1) v) ∧
      Repeats (fun v => plainWithin h n v) (fun v => plainWithin h (n + 1) v) := by
  induction n with
  | zero => exact ⟨nofun, nofun⟩
  | succ n ih =>
    have layer := ih.1.plainLayer (h := h) ih.2
    refine ⟨fun v t shown => ?_, fun v t shown => ?_⟩
    · dsimp only at shown ⊢
      rw [reprWithin] at shown ⊢
      exact ih.1.objectRepr.reprLayer layer v t shown
    · dsimp only at shown ⊢
      rw [plainWithin] at shown ⊢
      exact layer v t shown

private theorem untold {n : Nat} {v : Value} :
    (∃ d ∈ guestShown v, Recurs (Exhibits h) d) → reprWithin h n v = none := by
  rintro ⟨d, member, recurs⟩
  cases n with
  | zero => rfl
  | succ n => exact (reprWithin_none n v).mpr ⟨d, member, (exhibits_descending h).recurring recurs n⟩

theorem repr?_eq_some_iff {v : Value} {t : String} : h.repr? v = some t ↔ ∃ n, reprWithin h n v = some t := by
  have stays : ∀ n t, reprWithin h n v = some t → reprWithin h (n + 1) v = some t :=
    fun n => (within_repeats n).1 v
  have hopeless : reprWithin h h.followed v = none → ∀ n, reprWithin h n v = none :=
    fun failed _ => untold (repr?_none_iff.mp failed)
  exact settles stays hopeless t

end Lowering.Proofs

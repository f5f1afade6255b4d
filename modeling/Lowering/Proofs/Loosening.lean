import Lowering.Proofs.PostFixpoint

/-! Flows are monotone. A shape is looser than another one when its slots may have turned into those of
the other, where some kinds may turn into objects. What an instruction makes of the tighter shape is
tighter than what it makes of the looser one, and what it accepts of the looser one it accepts of the
tighter one. This is coarser than widening: a local of any kind that is bound may turn into an object,
and is then loaded onto the stack. -/

namespace Lowering.Proofs
open Guest Shape

/-- The kinds that may turn into objects: at least those that widen, but not the unbound one. -/
structure Latitude (may : Kind → Prop) : Prop where
  widens : ∀ kind, kind.widens = true → may kind
  bound : ¬ may .unbound

variable {may : Kind → Prop}

inductive Loosens (may : Kind → Prop) (a : Slot) : Slot → Prop
  | fades {b : Slot} (kind : a.kind = b.kind) (region : a.region = b.region)
      (known : Fades a.known b.known) : Loosens may a b
  | object (free : a.region = 0) (value : may a.kind) : Loosens may a (.ofKind .object)

inductive LocalLoosens (may : Kind → Prop) (a : Slot) : Slot → Prop
  | fades {b : Slot} (kind : a.kind = b.kind) (region : a.region = b.region)
      (known : Fades a.known b.known) : LocalLoosens may a b
  | unbound (lost : a.kind = .unbound ∨ may a.kind) : LocalLoosens may a (.ofKind .unbound)
  | object (value : may a.kind) : LocalLoosens may a (.ofKind .object)

theorem Loosens.refl (a : Slot) : Loosens may a a := .fades rfl rfl (.refl _)

theorem LocalLoosens.refl (a : Slot) : LocalLoosens may a a := .fades rfl rfl (.refl _)

theorem Loosens.region {a b : Slot} (loosens : Loosens may a b) : a.region = b.region := by
  cases loosens with
  | fades _ region => exact region
  | object free => exact free

/-- A slot that a region owns keeps its kind. -/
theorem Loosens.kind {a b : Slot} (loosens : Loosens may a b) (owned : b.region ≠ 0) :
    a.kind = b.kind := by
  cases loosens with
  | fades kind => exact kind
  | object => exact absurd rfl owned

theorem Loosens.kinds {a b : Slot} (loosens : Loosens may a b) : a.kind = b.kind ∨ b.kind = .object := by
  cases loosens with
  | fades kind => exact .inl kind
  | object => exact .inr rfl

theorem Loosens.trans {a b c : Slot} (first : Loosens may a b) (second : Loosens may b c) :
    Loosens may a c := by
  cases second with
  | fades kind region known =>
    cases first with
    | fades kind' region' known' =>
      exact .fades (kind'.trans kind) (region'.trans region) (known'.trans known)
    | object free value =>
      rw [faded_ofKind kind region known]
      exact .object free value
  | object free value =>
    cases first with
    | fades kind region => exact .object (region.trans free) (kind ▸ value)
    | object before allowed => exact .object before allowed

theorem LocalLoosens.trans (latitude : Latitude may) {a b c : Slot} (first : LocalLoosens may a b)
    (second : LocalLoosens may b c) : LocalLoosens may a c := by
  cases second with
  | fades kind region known =>
    cases first with
    | fades kind' region' known' =>
      exact .fades (kind'.trans kind) (region'.trans region) (known'.trans known)
    | unbound lost =>
      rw [faded_ofKind kind region known]
      exact .unbound lost
    | object value =>
      rw [faded_ofKind kind region known]
      exact .object value
  | unbound lost =>
    cases first with
    | fades kind => exact .unbound (kind ▸ lost)
    | unbound before => exact .unbound before
    | object value => exact .unbound (.inr value)
  | object value =>
    cases first with
    | fades kind => exact .object (kind ▸ value)
    | unbound => exact absurd value latitude.bound
    | object before => exact .object before

/-- The cells of a stack that has become looser. -/
def CellsLoosen (may : Kind → Prop) : List Cell → List Cell → Prop :=
  List.Forall₂ fun a b => Loosens may a.slot b.slot

structure ShapeLoosens (may : Kind → Prop) (s t : Stack) : Prop where
  cells : CellsLoosen may s.cells t.cells
  wide : s.locals.length ≤ t.locals.length
  locals : ∀ i, LocalLoosens may (localSlot s.locals i) (localSlot t.locals i)

private theorem CellsLoosen.trans {a b c : List Cell} (first : CellsLoosen may a b)
    (second : CellsLoosen may b c) : CellsLoosen may a c := by
  unfold CellsLoosen at *
  induction first generalizing c with
  | nil =>
    cases second
    exact .nil
  | cons head _ ih =>
    cases second with
    | cons later rest => exact .cons (head.trans later) (ih rest)

theorem ShapeLoosens.trans (latitude : Latitude may) {s t u : Stack} (first : ShapeLoosens may s t)
    (second : ShapeLoosens may t u) : ShapeLoosens may s u :=
  ⟨first.cells.trans second.cells, Nat.le_trans first.wide second.wide,
    fun i => (first.locals i).trans latitude (second.locals i)⟩

theorem ShapeLoosens.depth {s t : Stack} (loosens : ShapeLoosens may s t) : s.depth = t.depth :=
  loosens.cells.length_eq

theorem ShapeLoosens.height {s t : Stack} (loosens : ShapeLoosens may s t) : s.height = t.height := by
  unfold Stack.height
  rw [loosens.depth]

theorem ShapeLoosens.peek {s t : Stack} (loosens : ShapeLoosens may s t) {i : Int64} {slot : Slot}
    (peeked : t.peek i = .ok slot) : ∃ own, s.peek i = .ok own ∧ Loosens may own slot := by
  obtain ⟨positive, cell, found, rfl⟩ := peek_spec peeked
  obtain ⟨own, present, looser⟩ := forall₂_right loosens.cells found
  exact ⟨own.slot, by rw [Stack.peek, if_neg (Int.not_lt.mpr positive), present], looser⟩

theorem ShapeLoosens.top {s t : Stack} (loosens : ShapeLoosens may s t) {n : Int64} {slots : List Slot}
    (taken : t.top n = .ok slots) : ∃ own, s.top n = .ok own ∧
      List.Forall₂ (Loosens may) own slots := by
  obtain ⟨enough, rfl⟩ := top_spec taken
  refine ⟨((s.cells.take n.toInt.toNat).map Cell.slot).reverse, ?_, ?_⟩
  · rw [Stack.top, if_neg (by rw [loosens.depth]; omega)]
  · rw [List.forall₂_reverse_iff, List.forall₂_map_left_iff, List.forall₂_map_right_iff]
    exact List.forall₂_take _ loosens.cells

theorem ShapeLoosens.local? {s t : Stack} (loosens : ShapeLoosens may s t) (i : Int64) :
    LocalLoosens may (s.local? i) (t.local? i) := by
  unfold Stack.local?
  split
  · exact .refl _
  · exact loosens.locals i.toInt.toNat

private theorem enclosing_eq (s : Stack) : enclosing s = ((s.cells.find? fun cell =>
    cell.slot.region != 0 && cell.slot.kind.isExceptionState).map (·.slot.region)).getD 0 := by
  unfold enclosing
  split <;> simp [*]

theorem enclosing_congr {s t : Stack} (cells : List.Forall₂ (fun a b : Cell =>
      a.slot.region = b.slot.region ∧
        (b.slot.region ≠ 0 → a.slot.kind.isExceptionState = b.slot.kind.isExceptionState))
    s.cells t.cells) : enclosing s = enclosing t := by
  rw [enclosing_eq, enclosing_eq]
  generalize s.cells = own at cells
  generalize t.cells = others at cells
  induction cells with
  | nil => rfl
  | @cons x y _ _ head _ ih =>
    have same : (x.slot.region != 0 && x.slot.kind.isExceptionState) =
        (y.slot.region != 0 && y.slot.kind.isExceptionState) := by
      by_cases owned : y.slot.region = 0
      · simp [head.1, owned]
      · rw [head.1, head.2 owned]
    rw [List.find?_cons, List.find?_cons, same]
    cases (y.slot.region != 0 && y.slot.kind.isExceptionState) with
    | true => simp [head.1]
    | false => exact ih

theorem regionBase_congr {s t : Stack} (cells : List.Forall₂ (fun a b : Cell =>
    a.slot.region = b.slot.region) s.cells t.cells) (region : Int64) :
    s.regionBase region = t.regionBase region := by
  have regions : List.Forall₂ (· = ·) (s.slots.map Slot.region) (t.slots.map Slot.region) := by
    rw [List.forall₂_map_left_iff, List.forall₂_map_right_iff, Stack.slots, Stack.slots,
      List.forall₂_reverse_iff, List.forall₂_map_left_iff, List.forall₂_map_right_iff]
    exact cells
  have mapped : ∀ u : Stack, u.slots.findIdx? (·.region == region) =
      (u.slots.map Slot.region).findIdx? (· == region) := by
    intro u
    rw [List.findIdx?_map]
    rfl
  rw [List.forall₂_eq_eq_eq] at regions
  unfold Stack.regionBase
  rw [mapped, mapped, regions]

/-- Exception state stands where it stood. -/
theorem ShapeLoosens.enclosing {s t : Stack} (loosens : ShapeLoosens may s t) :
    enclosing s = enclosing t :=
  enclosing_congr <| loosens.cells.imp fun _ _ cell =>
    ⟨cell.region, fun owned => by rw [cell.kind owned]⟩

theorem ShapeLoosens.regionBase {s t : Stack} (loosens : ShapeLoosens may s t) (region : Int64) :
    s.regionBase region = t.regionBase region :=
  regionBase_congr (loosens.cells.imp fun _ _ cell => cell.region) region

/-- Whether the lowest slot of a region is an offset, which then has to be left as well. -/
def extraSlots (s : Stack) (region : Int64) : Int64 :=
  match s.peek (s.height - 1 - s.regionBase region) with
  | .ok slot => if slot.kind == .lasti then 1 else 0
  | .error _ => 0

private theorem peek_base {s : Stack} {region : Int64} {slot : Slot} (small : s.depth ≤ addressable)
    (peeked : s.peek (s.height - 1 - s.regionBase region) = .ok slot) : slot.region = region := by
  obtain ⟨_, cell, found, rfl⟩ := peek_spec peeked
  simp only [addressable] at small
  unfold Stack.regionBase at found
  cases base : s.slots.findIdx? (·.region == region) with
  | none =>
    have position : s.height - 1 - -1 = Int64.ofNat s.depth := by
      rw [Stack.height, Int64.sub_neg, Int64.sub_add_cancel]
    simp only [base, position, Int64.toInt_ofNat_of_lt (show s.depth < 2 ^ 63 by omega),
      Int.toNat_natCast] at found
    rw [Stack.depth, List.getElem?_eq_none (Nat.le_refl _)] at found
    cases found
  | some index =>
    obtain ⟨inside, here, _⟩ := List.findIdx?_eq_some_iff_getElem.mp base
    have within : index < s.depth := by simpa [Stack.slots, Stack.depth] using inside
    have position : s.height - 1 - Int64.ofNat index = Int64.ofNat (s.depth - 1 - index) := by
      rw [Int64.ofNat_sub _ _ (by omega), Int64.ofNat_sub _ _ (by omega)]
      rfl
    simp only [base, position, Int64.toInt_ofNat_of_lt (show s.depth - 1 - index < 2 ^ 63 by omega),
      Int.toNat_natCast] at found
    have same : s.slots[index]? = some cell.slot := by
      rw [Stack.slots, List.getElem?_reverse (by simpa [Stack.depth] using within), List.getElem?_map,
        List.length_map]
      exact congrArg (Option.map Cell.slot) found
    rw [List.getElem?_eq_getElem inside] at same
    rw [← Option.some.inj same]
    simpa using here

private theorem ShapeLoosens.extraSlots {s t : Stack} (loosens : ShapeLoosens may s t) {region : Int64}
    (owned : region ≠ 0) (small : t.depth ≤ addressable) :
    extraSlots s region = extraSlots t region := by
  have base := loosens.regionBase region
  unfold Proofs.extraSlots
  rw [loosens.height, base]
  cases peeked : t.peek (t.height - 1 - t.regionBase region) with
  | ok slot =>
    obtain ⟨own, found, looser⟩ := loosens.peek peeked
    have here := peek_base small peeked
    rw [found]
    dsimp only
    rw [looser.kind (here ▸ owned)]
  | error =>
    cases found : s.peek (t.height - 1 - t.regionBase region) with
    | error => rfl
    | ok slot =>
      rw [← loosens.height, ← base] at found peeked
      have here := peek_base (loosens.depth ▸ small) found
      obtain ⟨positive, cell, present, rfl⟩ := peek_spec found
      obtain ⟨other, missing, _⟩ := forall₂_left loosens.cells present
      rw [Stack.peek, if_neg (Int.not_lt.mpr positive), missing] at peeked
      cases peeked

/-- What has to hold to leave a region that owns exception state. -/
def leavable (s : Stack) (region : Int64) (slots : Nat) : Bool :=
  s.height == s.regionBase region + Int64.ofNat slots + extraSlots s region

private theorem ShapeLoosens.leavable {s t : Stack} (loosens : ShapeLoosens may s t) {region : Int64}
    (owned : region ≠ 0) (small : t.depth ≤ addressable) (slots : Nat) :
    leavable s region slots = leavable t region slots := by
  unfold Proofs.leavable
  rw [loosens.height, loosens.regionBase, loosens.extraSlots owned small]

theorem checkLeave_legacy {plan : Plan} {s : Stack} {slots : Nat} :
    Flow.checkLeave plan .legacy s slots = .ok () ↔
      enclosing s = 0 ∨ leavable s (enclosing s) slots = true := by
  unfold Flow.checkLeave
  dsimp only
  by_cases none : enclosing s = 0
  · simp [none]
  · rw [if_neg (by simpa using none)]
    change (if leavable s (enclosing s) slots then _ else _) = _ ↔ _
    cases leavable s (enclosing s) slots <;> simp [none]

theorem checkLeave_modern {plan : Plan} {s : Stack} {slots : Nat} {top : Cell}
    {rest : List Cell} (below : s.cells = top :: rest) :
    Flow.checkLeave plan .modern s slots = .ok () ↔ if top.slot.kind = .prevException then
        top.slot.region = 0 ∨ leavable s top.slot.region slots = true
      else enclosing s = 0 := by
  unfold Flow.checkLeave
  dsimp only
  rw [below]
  dsimp only
  by_cases saved : top.slot.kind = .prevException
  · rw [if_pos (by simpa using saved), if_pos saved]
    by_cases none : top.slot.region = 0
    · simp [none]
    · rw [if_neg (by simpa using none)]
      change (if leavable s top.slot.region slots then _ else _) = _ ↔ _
      cases leavable s top.slot.region slots <;> simp [none]
  · rw [if_neg (by simpa using saved), if_neg saved]
    by_cases none : enclosing s = 0 <;> simp [none]

/-- A handler that can be left with the looser stack can be left with the tighter one. -/
theorem ShapeLoosens.checkLeave {s t : Stack} (loosens : ShapeLoosens may s t)
    (small : t.depth ≤ addressable) {plan : Plan} {dialect : Dialect} {slots : Nat}
    (checked : Flow.checkLeave plan dialect t slots = .ok ()) :
    Flow.checkLeave plan dialect s slots = .ok () := by
  cases dialect with
  | legacy =>
    rw [checkLeave_legacy] at checked ⊢
    rw [loosens.enclosing]
    by_cases none : Guest.enclosing t = 0
    · exact .inl none
    · rw [loosens.leavable none small]
      exact checked
  | modern =>
    cases above : t.cells with
    | nil =>
      have empty : s.cells = [] := by
        have same := loosens.cells.length_eq
        rw [above] at same
        exact List.length_eq_zero_iff.mp same
      simp [Flow.checkLeave, empty]
    | cons top rest =>
      have cells := loosens.cells
      rw [above] at cells
      cases below : s.cells with
      | nil =>
        rw [below] at cells
        cases cells
      | cons own others =>
        rw [below] at cells
        cases cells with
        | cons head _ =>
          rw [checkLeave_modern above] at checked
          rw [checkLeave_modern below, loosens.enclosing, head.region]
          -- A saved exception that no region owns may have turned into an object.
          by_cases free : top.slot.region = 0
          · split
            · exact .inl free
            · next unsaved =>
              rw [if_neg ?_] at checked
              · exact checked
              · intro saved
                rcases head.kinds with same | object
                · exact unsaved (same.trans saved)
                · rw [saved] at object
                  cases object
          · rw [head.kind free, loosens.leavable free small]
            exact checked

theorem ShapeLoosens.checkParts {s t : Stack} (loosens : ShapeLoosens may s t) {kinds : List Kind}
    {i region : Int64} (checked : Flow.checkParts t i region kinds = .ok ()) :
    Flow.checkParts s i region kinds = .ok () := by
  induction kinds generalizing i region with
  | nil => rfl
  | cons kind kinds ih =>
    rw [Flow.checkParts] at checked ⊢
    split at checked
    · cases checked
    · next slot peeked =>
      obtain ⟨own, found, looser⟩ := loosens.peek peeked
      split at checked
      · cases checked
      · next fits =>
        have owned : slot.region ≠ 0 := by
          intro free
          simp [free] at fits
        rw [found]
        dsimp only
        rw [looser.region, looser.kind owned, if_neg fits]
        exact ih checked

structure FlowLoosens (may : Kind → Prop) (f g : Flow) : Prop where
  falls : f.falls = g.falls
  next : ShapeLoosens may f.next g.next
  branches : List.Forall₂ (fun a b => a.target = b.target ∧ a.handler = b.handler ∧
    ShapeLoosens may a.shape b.shape) f.branches g.branches

section
variable {stamp other : Nat} {s t : Stack} {flow : Flow}

theorem FlowLoosens.through (loosens : ShapeLoosens may s t) :
    FlowLoosens may (.through s) (.through t) :=
  ⟨rfl, loosens, .nil⟩

private theorem ShapeLoosens.piled (loosens : ShapeLoosens may s t) {slots others : List Slot}
    (pushed : List.Forall₂ (Loosens may) slots others) (dropped : Nat) :
    CellsLoosen may (piled stamp s dropped slots) (piled other t dropped others) := by
  refine List.rel_append ?_ (List.forall₂_drop dropped loosens.cells)
  rw [List.forall₂_reverse_iff, List.forall₂_map_left_iff, List.forall₂_map_right_iff]
  exact pushed

theorem ShapeLoosens.pushAll (loosens : ShapeLoosens may s t) {slots others : List Slot}
    (pushed : List.Forall₂ (Loosens may) slots others) :
    ShapeLoosens may (s.pushAll stamp slots) (t.pushAll other others) := by
  rw [pushAll_eq, pushAll_eq]
  exact ⟨loosens.piled pushed 0, loosens.wide, loosens.locals⟩

theorem ShapeLoosens.drop (loosens : ShapeLoosens may s t) (n : Nat) :
    ShapeLoosens may { s with cells := s.cells.drop n } { t with cells := t.cells.drop n } :=
  ⟨List.forall₂_drop n loosens.cells, loosens.wide, loosens.locals⟩

private theorem ShapeLoosens.pop (loosens : ShapeLoosens may s t) {n : Int64} {rest : Stack}
    (popped : t.pop n = .ok rest) : ∃ own, s.pop n = .ok own ∧ ShapeLoosens may own rest := by
  obtain ⟨enough, rfl⟩ := pop_spec popped
  refine ⟨{ s with cells := s.cells.drop n.toInt.toNat }, ?_, loosens.drop _⟩
  rw [Stack.pop, if_neg (by rw [loosens.depth]; omega)]

private theorem ShapeLoosens.replace (loosens : ShapeLoosens may s t) {n : Int64}
    {slots others : List Slot} (pushed : List.Forall₂ (Loosens may) slots others)
    (done : Flow.replace stamp t n others = .ok flow) :
    ∃ own, Flow.replace other s n slots = .ok own ∧ FlowLoosens may own flow := by
  unfold Flow.replace at done ⊢
  split at done
  · cases done
  · next popped =>
    cases done
    obtain ⟨own, found, looser⟩ := loosens.pop popped
    rw [found]
    exact ⟨_, rfl, .through (looser.pushAll pushed)⟩

private theorem ShapeLoosens.leave (loosens : ShapeLoosens may s t) {n : Int64}
    (done : Flow.leave t n = .ok flow) : ∃ own, Flow.leave s n = .ok own ∧ FlowLoosens may own flow := by
  unfold Flow.leave at done ⊢
  split at done
  · cases done
  · next popped =>
    cases done
    obtain ⟨own, found, looser⟩ := loosens.pop popped
    rw [found]
    exact ⟨_, rfl, rfl, looser, .nil⟩

private theorem ShapeLoosens.branch (loosens : ShapeLoosens may s t) {target : Int64}
    (done : Flow.branch t target = .ok flow) :
    ∃ own, Flow.branch s target = .ok own ∧ FlowLoosens may own flow := by
  unfold Flow.branch at done ⊢
  split at done
  · cases done
  · next popped =>
    cases done
    obtain ⟨own, found, looser⟩ := loosens.pop popped
    rw [found]
    exact ⟨_, rfl, rfl, looser, .cons ⟨rfl, rfl, looser⟩ .nil⟩

private theorem resultKind_widens (operator : Option Arithmetic) (a b : Kind) :
    (Flow.resultKind operator a b).widens = true := by
  unfold Flow.resultKind
  dsimp only
  split
  · split <;> rfl
  · split
    · split <;> rfl
    · split
      · rfl
      · split <;> rfl

private theorem resultKind_object (operator : Option Arithmetic) {a b : Kind}
    (object : a = .object ∨ b = .object) : Flow.resultKind operator a b = .object := by
  rcases object with rfl | rfl <;> simp [Flow.resultKind]

private theorem resultKind_loosens (latitude : Latitude may) (operator : Option Arithmetic)
    {a b c d : Slot} (first : Loosens may a c) (second : Loosens may b d) :
    Loosens may (.ofKind (Flow.resultKind operator a.kind b.kind))
      (.ofKind (Flow.resultKind operator c.kind d.kind)) := by
  have object : c.kind = .object ∨ d.kind = .object →
      Loosens may (.ofKind (Flow.resultKind operator a.kind b.kind))
        (.ofKind (Flow.resultKind operator c.kind d.kind)) := by
    intro object
    rw [resultKind_object operator object]
    exact .object rfl (latitude.widens _ (resultKind_widens ..))
  rcases first.kinds with same | left
  · rcases second.kinds with alike | right
    · rw [same, alike]
      exact .refl _
    · exact object (.inr right)
  · exact object (.inl left)

private theorem ShapeLoosens.binary (latitude : Latitude may) (loosens : ShapeLoosens may s t)
    {operator : Option Arithmetic} (done : Flow.binary stamp t operator = .ok flow) :
    ∃ own, Flow.binary other s operator = .ok own ∧ FlowLoosens may own flow := by
  obtain ⟨b, a, cells, above, rfl⟩ := binary_spec done
  have all := loosens.cells
  rw [above] at all
  generalize below : s.cells = own at all
  cases all with
  | @cons top _ others _ first all =>
    cases all with
    | @cons next _ cells _ second rest =>
      refine ⟨.through ⟨⟨other, .ofKind (Flow.resultKind operator next.slot.kind top.slot.kind)⟩ :: cells,
        s.locals⟩, by rw [Flow.binary, below]; rfl, .through ⟨?_, loosens.wide, loosens.locals⟩⟩
      exact List.Forall₂.cons (resultKind_loosens latitude operator second first) rest

theorem Loosens.untagged {a b : Slot} (loosens : Loosens may a b) :
    Loosens may a.untagged b.untagged := by
  cases loosens with
  | fades kind _ known => exact .fades kind rfl known
  | object _ value => exact .object rfl value

theorem Loosens.stored {a b : Slot} (loosens : Loosens may a b) :
    LocalLoosens may a.untagged b.untagged := by
  cases loosens with
  | fades kind _ known => exact .fades kind rfl known
  | object _ value => exact .object value

/-- What is loaded from a local. A local that is not bound everywhere is loaded as an object. -/
theorem LocalLoosens.loaded (latitude : Latitude may) {a b : Slot} (loosens : LocalLoosens may a b) :
    Loosens may (if a.kind == .unbound then .ofKind .object else a.untagged)
      (if b.kind == .unbound then .ofKind .object else b.untagged) := by
  cases loosens with
  | fades kind _ known =>
    rw [kind]
    split
    · exact .refl _
    · exact .fades kind rfl known
  | unbound lost =>
    change Loosens may _ (.ofKind .object)
    by_cases unbound : a.kind = .unbound
    · rw [if_pos (by simpa using unbound)]
      exact .refl _
    · rw [if_neg (by simpa using unbound)]
      exact .object rfl (lost.resolve_left unbound)
  | object value =>
    have bound : a.kind ≠ .unbound := fun unbound => latitude.bound (unbound ▸ value)
    change Loosens may _ (.ofKind .object)
    rw [if_neg (by simpa using bound)]
    exact .object rfl value

theorem ShapeLoosens.setLocal (loosens : ShapeLoosens may s t) {a b : Slot}
    (stored : LocalLoosens may a b) (i : Nat) :
    ShapeLoosens may (s.setLocal i a) (t.setLocal i b) := by
  have wide := loosens.wide
  refine ⟨loosens.cells, ?_, fun j => ?_⟩
  · simp only [Stack.setLocal, Stack.withLocals, List.length_set, List.length_append,
      List.length_take, List.length_replicate]
    omega
  · rw [setLocal_slot, setLocal_slot]
    split
    · exact stored
    · exact loosens.locals j

private theorem exchange_loosens {slots others : List Slot}
    (all : List.Forall₂ (Loosens may) slots others) :
    List.Forall₂ (Loosens may) (Flow.exchange slots) (Flow.exchange others) := by
  cases all with
  | nil => exact .nil
  | @cons a b rest others head tail =>
    have reversed := List.forall₂_reverse_iff.mpr tail
    rcases List.eq_nil_or_concat rest with rfl | ⟨front, last, rfl⟩
    · cases tail
      exact .cons head .nil
    · rcases List.eq_nil_or_concat others with rfl | ⟨front', last', rfl⟩
      · simp at reversed
      · simp only [List.concat_eq_append, List.reverse_append, List.reverse_cons, List.reverse_nil,
          List.nil_append, List.singleton_append] at reversed
        cases reversed with
        | cons top below =>
          simp only [Flow.exchange, List.concat_eq_append, List.getLast?_append, List.getLast?_singleton,
            Option.some_or, List.dropLast_concat]
          refine .cons top (List.rel_append ?_ (.cons head .nil))
          exact List.forall₂_reverse_iff.mp below

/-- Flows are monotone, where the tighter stack leaves a handler that the looser one leaves. -/
theorem ShapeLoosens.flows (latitude : Latitude may) (loosens : ShapeLoosens may s t)
    {plan : Plan} {o : Bound} (leaves : o.opcode = .popExcept → ∀ slots,
      Flow.checkLeave plan plan.dialect t slots = .ok () → Flow.checkLeave plan plan.dialect s slots = .ok ())
    (flows : o.flow plan stamp t = .ok flow)
    (other : Nat) : ∃ own, o.flow plan other s = .ok own ∧ FlowLoosens may own flow := by
  have same : ∀ slots : List Slot, List.Forall₂ (Loosens may) slots slots := fun slots =>
    List.forall₂_same.mpr fun slot _ => .refl slot
  have pushed : ∀ {slots others : List Slot}, List.Forall₂ (Loosens may) slots others →
      FlowLoosens may (.through (s.pushAll other slots)) (.through (t.pushAll stamp others)) :=
    fun all => .through (loosens.pushAll all)
  cases opcode : o.opcode <;> simp only [Bound.flow, opcode] at flows ⊢
  case nop | resume | cache | popBlock =>
    cases flows
    exact ⟨_, rfl, .through loosens⟩
  case popTop | storeGlobal | storeAttr | unaryNot | compareOp | isOp | containsOp | buildTuple
      | buildList | callFunction | call | getIter | checkExcMatch | loadAttr =>
    exact loosens.replace (same _) flows
  case loadGlobal =>
    cases flows
    exact ⟨_, rfl, pushed (same _)⟩
  case pushNull | loadConst =>
    cases flows
    exact ⟨_, rfl, pushed (same [_])⟩
  case loadFast =>
    cases flows
    exact ⟨_, rfl, pushed (.cons ((loosens.local? o.arg).loaded latitude) .nil)⟩
  case binaryAdd | binarySubtract | binaryMultiply | binaryOp => exact loosens.binary latitude flows
  case returnValue | reraise | raiseVarargs => exact loosens.leave flows
  case popJumpIfFalse | popJumpIfTrue => exact loosens.branch flows
  case jumpForward | jumpAbsolute | jumpBackward =>
    cases flows
    exact ⟨_, rfl, rfl, loosens, .cons ⟨rfl, rfl, loosens⟩ .nil⟩
  case deleteFast =>
    cases flows
    exact ⟨_, rfl, .through (loosens.setLocal (.refl _) _)⟩
  case rotTwo =>
    split at flows
    · cases flows
    · next taken =>
      obtain ⟨own, found, looser⟩ := loosens.top taken
      rw [found]
      exact loosens.replace (List.forall₂_reverse_iff.mpr looser) flows
  case swap =>
    split at flows
    · cases flows
    · next taken =>
      obtain ⟨own, found, looser⟩ := loosens.top taken
      rw [found]
      exact loosens.replace (exchange_loosens looser) flows
  case dupTop | copy =>
    split at flows
    · cases flows
    · next peeked =>
      cases flows
      obtain ⟨own, found, looser⟩ := loosens.peek peeked
      rw [found]
      exact ⟨_, rfl, pushed (.cons looser.untagged .nil)⟩
  case storeFast =>
    split at flows
    · cases flows
    · next top rest above =>
      cases flows
      have all := loosens.cells
      rw [above] at all
      generalize below : s.cells = own at all
      cases all with
      | @cons head _ others _ first all =>
        have popped : ShapeLoosens may { s with cells := others } { t with cells := rest } :=
          ⟨all, loosens.wide, loosens.locals⟩
        exact ⟨_, rfl, .through (popped.setLocal first.stored _)⟩
  case unaryNegative =>
    split at flows
    · cases flows
    · next top peeked =>
      obtain ⟨own, found, looser⟩ := loosens.peek peeked
      rw [found]
      refine loosens.replace (.cons ?_ .nil) flows
      rcases looser.kinds with same | object
      · rw [same]
        exact .refl _
      · rw [object]
        refine .object rfl (latitude.widens _ ?_)
        dsimp only [Slot.ofKind]
        split
        · next number =>
          simp only [Bool.or_eq_true, beq_iff_eq] at number
          rcases number with int | float
          · rw [int]
            rfl
          · rw [float]
            rfl
        · rfl
  case forIter =>
    split at flows
    · cases flows
    · next popped =>
      cases flows
      obtain ⟨own, found, looser⟩ := loosens.pop popped
      rw [found]
      exact ⟨_, rfl, rfl, loosens.pushAll (same [_]), .cons ⟨rfl, rfl, looser⟩ .nil⟩
  case setupFinally =>
    split at flows
    · cases flows
    · cases flows
      exact ⟨_, rfl, rfl, loosens, .cons ⟨rfl, rfl, loosens.pushAll (same _)⟩ .nil⟩
  case popExcept =>
    split at flows
    · cases flows
    · next checked =>
      rw [leaves opcode _ checked]
      exact loosens.replace .nil flows
  case jumpIfNotExcMatch =>
    split at flows
    · cases flows
    · next checked =>
      rw [Flow.checkTriple, loosens.checkParts checked]
      exact loosens.branch flows
  case pushExcInfo =>
    split at flows
    · cases flows
    · next peeked =>
      obtain ⟨own, found, looser⟩ := loosens.peek peeked
      rw [found]
      refine loosens.replace (.cons ?_ (.cons looser .nil)) flows
      rw [looser.region]
      exact .refl _

end

end Lowering.Proofs

import Lowering.Machine.StandardHelper

/-! What heaps hold. The sentinel of unbound locals is no value that guest code can get hold of: what is
proper neither is nor holds it. An exception records the offset of an instruction. Objects are only added to a
heap, or changed in part. -/

namespace Lowering.Proofs
open Machine Host

mutual

/-- A value that neither is nor holds the sentinel. -/
def proper : Value → Bool
  | .unbound => false
  | .tuple items | .sequence items => allProper items
  | _ => true

def allProper : List Value → Bool
  | [] => true
  | v :: rest => proper v && allProper rest

end

theorem allProper_iff {items : List Value} : allProper items = true ↔ ∀ v ∈ items, proper v := by
  induction items with
  | nil => simp [allProper]
  | cons v rest ih => simp [allProper, ih]

theorem allProper_append {a b : List Value} (left : allProper a = true)
    (right : allProper b = true) : allProper (a ++ b) = true := by
  rw [allProper_iff] at *
  exact fun v member => (List.mem_append.mp member).elim (left v) (right v)

theorem allProper_sublist {a b : List Value} (within : a.Sublist b) (all : allProper b = true) :
    allProper a = true := by
  rw [allProper_iff] at *
  exact fun v member => all v (within.subset member)

/-- The constants of a routine are proper. -/
def ProperRoutine (r : Routine) : Prop := ∀ v, .const v ∈ r.ops → proper v = true

structure ProperHeap (h : Heap) : Prop where
  lists : ∀ items ∈ h.lists, allProper items.toList = true
  records : ∀ record ∈ h.records, ∀ entry ∈ record.attrs, proper entry.2 = true
  iterators : ∀ it ∈ h.iterators, allProper it.items.toList = true
  exceptions : ∀ e ∈ h.exceptions, allProper e.args = true
  routines : ∀ r ∈ h.routines, ProperRoutine r

theorem ProperHeap.empty : ProperHeap {} := by
  constructor <;> simp

variable {h : Heap}

theorem ProperHeap.list (valid : ProperHeap h) (ref : Nat) : allProper (h.list ref).toList = true := by
  unfold Heap.list
  rw [Array.getD_eq_getD_getElem?]
  cases found : h.lists[ref]? with
  | none => rfl
  | some items => exact valid.lists items (Array.mem_of_getElem? found)

theorem ProperHeap.exception (valid : ProperHeap h) (ref : Nat) :
    allProper (h.exception ref).args = true := by
  unfold Heap.exception
  rw [Array.getD_eq_getD_getElem?]
  cases found : h.exceptions[ref]? with
  | none => rfl
  | some e => exact valid.exceptions e (Array.mem_of_getElem? found)

theorem ProperHeap.record (valid : ProperHeap h) (ref : Nat) :
    ∀ entry ∈ (h.record ref).attrs, proper entry.2 = true := by
  unfold Heap.record
  rw [Array.getD_eq_getD_getElem?]
  cases found : h.records[ref]? with
  | none => exact fun entry member => absurd member List.not_mem_nil
  | some record => exact valid.records record (Array.mem_of_getElem? found)

theorem ProperHeap.iterator (valid : ProperHeap h) (ref : Nat) :
    allProper (h.iterator ref).items.toList = true := by
  unfold Heap.iterator
  rw [Array.getD_eq_getD_getElem?]
  cases found : h.iterators[ref]? with
  | none => rfl
  | some it => exact valid.iterators it (Array.mem_of_getElem? found)

theorem ProperHeap.functionRoutine (valid : ProperHeap h) (ref : Nat) :
    ProperRoutine (h.functionRoutine ref) := by
  unfold Heap.functionRoutine
  rw [Array.getD_eq_getD_getElem?]
  cases found : h.routines[h.functions.getD ref 0]? with
  | none => exact fun v member => absurd member (Array.not_mem_empty _)
  | some r => exact valid.routines r (Array.mem_of_getElem? found)

theorem ProperHeap.newException (valid : ProperHeap h) {e : ExceptionObject}
    (args : allProper e.args = true) : ProperHeap (h.newException e).2 :=
  { valid with
    exceptions := fun other member => by
      rcases Array.mem_push.mp member with old | rfl
      · exact valid.exceptions other old
      · exact args }

theorem ProperHeap.newError (valid : ProperHeap h) (cls : Standard) (message : String) :
    ProperHeap (h.newError cls message).2 :=
  valid.newException rfl

theorem ProperHeap.newList (valid : ProperHeap h) {items : Array Value}
    (all : allProper items.toList = true) : ProperHeap (h.newList items).2 :=
  { valid with
    lists := fun other member => by
      rcases Array.mem_push.mp member with old | rfl
      · exact valid.lists other old
      · exact all }

theorem ProperHeap.newIterator (valid : ProperHeap h) {items : Array Value}
    (all : allProper items.toList = true) : ProperHeap (h.newIterator items).2 :=
  { valid with
    iterators := fun other member => by
      rcases Array.mem_push.mp member with old | rfl
      · exact valid.iterators other old
      · exact all }

private theorem mem_modify {α : Type} {xs : Array α} {i : Nat} {f : α → α} {x : α}
    (member : x ∈ xs.modify i f) : x ∈ xs ∨ ∃ y ∈ xs, x = f y := by
  obtain ⟨j, inside, rfl⟩ := Array.mem_iff_getElem.mp member
  rw [Array.getElem_modify]
  split
  · exact .inr ⟨_, Array.getElem_mem _, rfl⟩
  · exact .inl (Array.getElem_mem _)

/-- Changing a list, a record, an iterator or an exception keeps a heap proper when it keeps every
object proper. -/
theorem ProperHeap.modifyList (valid : ProperHeap h) (ref : Nat) {added : Array Value}
    (all : allProper added.toList = true) :
    ProperHeap { h with lists := h.lists.modify ref (· ++ added) } :=
  { valid with
    lists := fun items member => by
      have changed : items ∈ h.lists.modify ref (· ++ added) := member
      rcases mem_modify changed with old | ⟨before, old, rfl⟩
      · exact valid.lists items old
      · rw [Array.toList_append]
        exact allProper_append (valid.lists before old) all }

theorem ProperHeap.modifyException (valid : ProperHeap h) (ref : Nat)
    {f : ExceptionObject → ExceptionObject} (args : ∀ e, (f e).args = e.args) :
    ProperHeap { h with exceptions := h.exceptions.modify ref f } :=
  { valid with
    exceptions := fun e member => by
      have changed : e ∈ h.exceptions.modify ref f := member
      rcases mem_modify changed with old | ⟨before, old, rfl⟩
      · exact valid.exceptions e old
      · rw [args]
        exact valid.exceptions before old }

theorem ProperHeap.modifyRecord (valid : ProperHeap h) (ref : Nat) {f : RecordObject → RecordObject}
    (holds : ∀ record, (∀ entry ∈ record.attrs, proper entry.2 = true) →
      ∀ entry ∈ (f record).attrs, proper entry.2 = true) :
    ProperHeap { h with records := h.records.modify ref f } :=
  { valid with
    records := fun record member => by
      have changed : record ∈ h.records.modify ref f := member
      rcases mem_modify changed with old | ⟨before, old, rfl⟩
      · exact valid.records record old
      · exact holds before (valid.records before old) }

theorem ProperHeap.modifyIterator (valid : ProperHeap h) (ref : Nat) {f : IteratorObject → IteratorObject}
    (items : ∀ it, (f it).items = it.items) :
    ProperHeap { h with iterators := h.iterators.modify ref f } :=
  { valid with
    iterators := fun it member => by
      have changed : it ∈ h.iterators.modify ref f := member
      rcases mem_modify changed with old | ⟨before, old, rfl⟩
      · exact valid.iterators it old
      · rw [items]
        exact valid.iterators before old }

mutual

theorem normalize_proper {h : Heap} (valid : ProperHeap h) :
    ∀ v, proper v = true → proper (h.normalize v).1 = true ∧ ProperHeap (h.normalize v).2
  | .sequence items, holds => by
    have all := normalizeAll_proper valid items holds
    exact all
  | .routine _, _ => ⟨rfl, { valid with }⟩
  | .word _, _ | .word32 _, _ | .single _, _ => ⟨rfl, valid⟩
  | .none, holds | .bool _, holds | .int _, holds | .float _, holds | .str _, holds
  | .tuple _, holds | .null, holds | .unbound, holds | .list _, holds | .record _, holds
  | .iterator _, holds | .exception _, holds | .cls _, holds | .builtin _, holds
  | .function _, holds | .natural _, holds | .foreign _ _, holds => ⟨holds, valid⟩

theorem normalizeAll_proper {h : Heap} (valid : ProperHeap h) :
    ∀ items, allProper items = true →
      allProper (h.normalizeAll items).1 = true ∧ ProperHeap (h.normalizeAll items).2
  | [], _ => ⟨rfl, valid⟩
  | v :: rest, holds => by
    simp only [allProper, Bool.and_eq_true] at holds
    obtain ⟨head, first⟩ := normalize_proper valid v holds.1
    obtain ⟨tail, second⟩ := normalizeAll_proper first rest holds.2
    exact ⟨by simp only [Heap.normalizeAll, allProper, head, tail, Bool.and_self], second⟩

end

theorem normalizeAll_length (items : List Value) (h : Heap) :
    (h.normalizeAll items).1.length = items.length := by
  induction items generalizing h with
  | nil => rfl
  | cons v rest ih => simp only [Heap.normalizeAll, List.length_cons, ih]

theorem items?_proper (valid : ProperHeap h) {v : Value} {items : Array Value}
    (holds : proper v = true) (found : h.items? v = some items) :
    allProper items.toList = true := by
  unfold Heap.items? at found
  split at found
  · cases found
    exact holds
  · cases found
    exact valid.list _
  · cases found
    rw [allProper_iff]
    intro v member
    simp only [List.mem_map] at member
    obtain ⟨_, _, rfl⟩ := member
    rfl
  · cases found

theorem insertEntry_proper {name : String} {v : Value} {entries : List (String × Value)}
    (holds : proper v = true) (all : ∀ e ∈ entries, proper e.2 = true) :
    ∀ e ∈ insertEntry name v entries, proper e.2 = true := by
  induction entries with
  | nil =>
    intro e member
    cases List.mem_singleton.mp member
    exact holds
  | cons first rest ih =>
    obtain ⟨key, old⟩ := first
    rw [insertEntry]
    split
    · intro e member
      rcases List.mem_cons.mp member with rfl | later
      · exact holds
      · exact all e (List.mem_cons_of_mem _ later)
    · intro e member
      rcases List.mem_cons.mp member with rfl | later
      · exact all _ List.mem_cons_self
      · exact ih (fun e inside => all e (List.mem_cons_of_mem _ inside)) e later

theorem asException_proper (valid : ProperHeap h) (v : Value) :
    ProperHeap (asException h v).2 := by
  unfold asException
  split
  · exact valid
  · exact valid.newException rfl
  · exact valid.newError _ _
  · exact valid.newError _ _

/-- The offset that an exception has recorded, negative while there is none. -/
def recorded (h : Heap) (exception : Nat) : Int64 :=
  (h.exceptions[exception]?).elim (-1) ExceptionObject.lasti

theorem recorded_congr {h h' : Heap} (same : h'.exceptions = h.exceptions) : recorded h' = recorded h := by
  funext exception
  rw [recorded, recorded, same]

theorem newException_recorded (h : Heap) {e : ExceptionObject} (fresh : e.lasti = -1) :
    recorded (h.newException e).2 = recorded h := by
  funext exception
  simp only [recorded, Heap.newException, Array.getElem?_push]
  split
  next last =>
    rw [last, Array.getElem?_eq_none (Nat.le_refl _)]
    exact fresh
  next => rfl

theorem newError_recorded (h : Heap) (cls : Standard) (message : String) :
    recorded (h.newError cls message).2 = recorded h :=
  newException_recorded h rfl

theorem modify_recorded (h : Heap) (ref : Nat) {f : ExceptionObject → ExceptionObject}
    (kept : ∀ e, (f e).lasti = e.lasti) :
    recorded { h with exceptions := h.exceptions.modify ref f } = recorded h := by
  funext exception
  simp only [recorded, Array.getElem?_modify]
  split
  next => cases h.exceptions[exception]? <;> simp [kept]
  next => rfl

mutual

theorem normalize_exceptions (h : Heap) : ∀ v, (h.normalize v).2.exceptions = h.exceptions
  | .sequence items => normalizeAll_exceptions h items
  | .routine _ | .word _ | .word32 _ | .single _ | .none | .bool _ | .int _ | .float _ | .str _
  | .tuple _ | .null | .unbound | .list _ | .record _ | .iterator _ | .exception _ | .cls _
  | .builtin _ | .function _ | .natural _ | .foreign _ _ => rfl

theorem normalizeAll_exceptions (h : Heap) :
    ∀ items, (h.normalizeAll items).2.exceptions = h.exceptions
  | [] => rfl
  | v :: rest => (normalizeAll_exceptions (h.normalize v).2 rest).trans (normalize_exceptions h v)

end

theorem asException_recorded (h : Heap) (v : Value) : recorded (asException h v).2 = recorded h := by
  unfold asException
  split
  · rfl
  · exact newException_recorded h rfl
  · exact newError_recorded h _ _
  · exact newError_recorded h _ _

end Lowering.Proofs

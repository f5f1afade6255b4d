import Lowering.Guest.Flow
import Lowering.Machine.State
import Lowering.Proofs.Conformance
import Lowering.Proofs.Heaps

/-! The answers of helpers and of built-in functions. What can be relied on about an answer is a promise; each
helper keeps one, and whatever is known of a helper elsewhere follows from the promise it keeps. -/

namespace Lowering.Proofs
open Machine Host Shape Guest

structure Promise where
  /-- What is given back conforms to these, the lowest first. Who calls is given one object. -/
  slots : List Slot
  /-- Under this condition no sentinel comes in. -/
  clean : Prop
  raises : Prop := True
  calls : Prop := False
  /-- The evaluation may not end. -/
  endless : Prop := False
  /-- Arguments may be missing. -/
  short : Prop := False
  /-- Under this condition exceptions keep what they recorded. -/
  quiet : Prop := True

def Promise.Allows (p : Promise) : Reply → Prop
  | .values values => List.Forall₂ Conforms values p.slots
  | .raised _ => p.raises
  | .call _ _ => p.calls ∧ p.slots = [.ofKind .object]
  | .failed .endless => p.endless
  | .failed _ => p.short

def ProperReply : Reply → Prop
  | .values results => allProper results = true
  | .raised _ | .failed _ => True
  | .call callee args => proper callee = true ∧ allProper args = true

/-- An answer, given on a heap, that is as promised. -/
structure Keeps (p : Promise) (h : Heap) (answer : Reply × Heap) : Prop where
  reply : p.Allows answer.1
  proper : p.clean → ProperHeap h → ProperReply answer.1 ∧ ProperHeap answer.2
  recorded : p.quiet → recorded answer.2 = recorded h

variable {p : Promise} {h h' : Heap} {given : Reply × Heap}

/-- An answer on a heap that was changed before. -/
theorem Keeps.after (keeps : Keeps p h' given) (proper : p.clean → ProperHeap h → ProperHeap h')
    (same : p.quiet → Proofs.recorded h' = Proofs.recorded h) : Keeps p h given where
  reply := keeps.reply
  proper clean valid := keeps.proper clean (proper clean valid)
  recorded quiet := (keeps.recorded quiet).trans (same quiet)

/-- What conforms to any slot is an object. -/
theorem Keeps.object {slot : Slot} (keeps : Keeps { p with slots := [slot] } h given)
    (slots : p.slots = [.ofKind .object]) : Keeps p h given := by
  obtain ⟨reply, heap⟩ := given
  refine ⟨?_, keeps.proper, keeps.recorded⟩
  have allowed := keeps.reply
  cases reply with
  | values values =>
    rw [Promise.Allows, slots]
    cases allowed with
    | cons first rest =>
      cases rest
      exact .cons (refines_object _ _ first) .nil
  | raised => exact allowed
  | failed failure => cases failure <;> exact allowed
  | call => exact ⟨allowed.1, slots⟩

theorem conforms_ofKind {v : Value} {kind : Kind} (holds : admits kind v = true) :
    Conforms v (.ofKind kind) :=
  ⟨holds, nofun⟩

/-- Whatever values are, they conform to objects. -/
theorem conforms_objects (values : List Value) :
    List.Forall₂ Conforms values (values.map fun _ => .ofKind .object) :=
  List.forall₂_map_right_iff.mpr (List.forall₂_same.mpr fun _ _ => conforms_ofKind rfl)

theorem give_keeps {v : Value} {kind : Kind} (slots : p.slots = [.ofKind kind])
    (holds : admits kind v = true) (free : p.clean → ProperHeap h → proper v = true) :
    Keeps p h (give h v) where
  reply := by
    simp only [give, Promise.Allows, slots]
    exact .cons (conforms_ofKind holds) .nil
  proper clean valid := ⟨by simp only [give, ProperReply, allProper, free clean valid, Bool.and_self], valid⟩
  recorded _ := rfl

theorem fail_keeps (raises : p.raises) {cls : Standard} {message : String} :
    Keeps p h (fail h cls message) where
  reply := raises
  proper _ valid := ⟨trivial, valid.newError cls message⟩
  recorded _ := newError_recorded h cls message

theorem endless_keeps (endless : p.endless) : Keeps p h (.failed .endless, h) where
  reply := endless
  proper _ valid := ⟨trivial, valid⟩
  recorded _ := rfl

/-- The number of arguments that a standard helper looks at, and the number of its results. -/
def signature? : Helper → Option (Nat × Int64)
  | .buildTuple | .buildList => some (0, 1)
  | .unaryNot | .unaryNegative | .isTrue | .call | .getAttr | .getIter | .exceptionType
  | .exceptionTraceback | .makeException | .excLasti => some (1, 1)
  | .getMethod | .iterNext => some (1, 2)
  | .binaryOp | .compare | .is | .contains | .callMethod | .excMatches | .makeExceptionFrom => some (2, 1)
  | .setAttr => some (2, 0)
  | .other _ => none

/-- A standard helper has the arguments that it looks at. -/
def Supplied (inv : Invocation) (args : List Value) : Prop :=
  ∃ needed results, signature? inv.helper = some (needed, results) ∧ needed ≤ args.length

/-- What the standard helpers give back, the lowest first, for arguments of the given slots. -/
def resultSlots (inv : Invocation) (args : List Slot) : List Slot :=
  match inv.helper with
  | .unaryNot | .compare | .is | .contains | .isTrue | .excMatches => [.ofKind .bool]
  | .unaryNegative =>
    match args with
    | a :: _ => [.ofKind (if a.kind == .int || a.kind == .float then a.kind else .object)]
    | [] => []
  | .binaryOp =>
    match args with
    | a :: b :: _ => [.ofKind (Flow.resultKind (Arithmetic.ofOperand? inv.arg) a.kind b.kind)]
    | _ => []
  | .buildTuple => [.ofKind .tuple]
  | .buildList => [.ofKind .list]
  | .call | .callMethod | .getAttr => [.ofKind .object]
  | .getMethod => [.ofKind .null, .ofKind .object]
  | .setAttr | .other _ => []
  | .getIter => [.ofKind .iterator]
  | .iterNext => [.ofKind .object, .ofKind .bool]
  | .exceptionType => [.ofKind .excType]
  | .exceptionTraceback => [.ofKind .excTraceback]
  | .makeException | .makeExceptionFrom => [.ofKind .exception]
  | .excLasti => [.ofKind .lasti]

theorem resultSlots_length {inv : Invocation} {needed : Nat} {results : Int64} {args : List Slot}
    (signature : signature? inv.helper = some (needed, results)) (enough : needed ≤ args.length) :
    results.toInt = (resultSlots inv args).length := by
  unfold resultSlots
  cases helper : inv.helper <;> rw [helper] at signature <;> cases signature
  case unaryNegative =>
    match args, enough with
    | _ :: _, _ => rfl
  case binaryOp =>
    match args, enough with
    | _ :: _ :: _, _ => rfl
  all_goals rfl

/-- Helpers that take any value for an exception never raise. -/
def raisingHelper : Helper → Bool
  | .exceptionType | .exceptionTraceback | .excLasti => false
  | _ => true

/-- Helpers that call a value. -/
def callingHelper : Helper → Bool
  | .call | .callMethod => true
  | _ => false

theorem raisingHelper_of_calling {helper : Helper} (calls : callingHelper helper = true) :
    raisingHelper helper = true := by
  cases helper <;> first | rfl | cases calls

/-- The values that a helper compares cannot be compared. -/
def Incomparable (h : Heap) (inv : Invocation) (args : List Value) : Prop :=
  match inv.helper, args with
  | .compare, a :: b :: _ => h.equal? a b = none
  | .contains, a :: b :: _ => ∃ items, h.items? b = some items ∧ holds? h a items.toList = none
  | _, _ => False

/-- What a standard helper promises when its arguments conform to the given slots. -/
def standardPromise (h : Heap) (inv : Invocation) (args : List Value) (slots : List Slot) : Promise where
  slots := resultSlots inv slots
  clean := allProper args = true
  raises := raisingHelper inv.helper = true
  calls := callingHelper inv.helper = true
  endless := Incomparable h inv args
  short := ¬ Supplied inv args

private theorem integerOperation_keeps (operator : Arithmetic) (x y : Int64) (raises : p.raises)
    (slots : p.slots = [.ofKind
      (if operator = .trueDivide then .float else if operator = .power then .object else .int)]) :
    Keeps p h (integerOperation h operator x y) := by
  cases operator <;> simp only [integerOperation]
  all_goals first
    | exact give_keeps slots rfl fun _ _ => rfl
    | split <;> first | exact fail_keeps raises | exact give_keeps slots rfl fun _ _ => rfl

private theorem floatOperation_keeps (code : Int64) (x y : Float) (raises : p.raises)
    (slots : p.slots = [.ofKind .float]) : Keeps p h (floatOperation h code x y) := by
  unfold floatOperation
  split
  all_goals first
    | exact give_keeps slots rfl fun _ _ => rfl
    | exact fail_keeps raises
    | split <;> first | exact fail_keeps raises | exact give_keeps slots rfl fun _ _ => rfl

private theorem binaryOperation_object (operand : Int64) {a b : Value} (raises : p.raises)
    (clean : p.clean → proper a = true ∧ proper b = true) (slots : p.slots = [.ofKind .object]) :
    Keeps p h (binaryOperation h operand a b) := by
  unfold binaryOperation
  dsimp only
  generalize (if decide (operand.toInt ≥ 13) = true then operand - Arithmetic.inPlace else operand) = code
  split
  · split
    · exact (integerOperation_keeps (p := { p with slots := [_] }) _ _ _ raises rfl).object slots
    · exact fail_keeps raises
  · exact (floatOperation_keeps (p := { p with slots := [_] }) _ _ _ raises rfl).object slots
  · exact (floatOperation_keeps (p := { p with slots := [_] }) _ _ _ raises rfl).object slots
  · exact (floatOperation_keeps (p := { p with slots := [_] }) _ _ _ raises rfl).object slots
  · split
    · exact give_keeps slots rfl fun _ _ => rfl
    · exact fail_keeps raises
  · split
    · exact give_keeps slots rfl fun _ _ => rfl
    · exact fail_keeps raises
  · split
    · exact give_keeps slots rfl fun holds _ => allProper_append (clean holds).1 (clean holds).2
    · exact fail_keeps raises
  · split
    · split
      · refine (give_keeps slots rfl fun _ _ => rfl).after (fun _ valid => ?_) fun _ => rfl
        exact valid.modifyList _ (valid.list _)
      · refine (give_keeps slots rfl fun _ _ => rfl).after (fun _ valid => valid.newList ?_) fun _ => rfl
        rw [Array.toList_append]
        exact allProper_append (valid.list _) (valid.list _)
    · exact fail_keeps raises
  · exact fail_keeps raises

private theorem int_of_kind {v : Value} {s : Slot} (conforms : Conforms v s)
    (kind : s.kind = .int) : ∃ n, v = .int n := by
  have holds := conforms.kind
  rw [kind] at holds
  cases v <;> first | exact ⟨_, rfl⟩ | cases holds

private theorem float_of_kind {v : Value} {s : Slot} (conforms : Conforms v s)
    (kind : s.kind = .float) : ∃ x, v = .float x := by
  have holds := conforms.kind
  rw [kind] at holds
  cases v <;> first | exact ⟨_, rfl⟩ | cases holds

private theorem str_of_kind {v : Value} {s : Slot} (conforms : Conforms v s)
    (kind : s.kind = .str) : ∃ x, v = .str x := by
  have holds := conforms.kind
  rw [kind] at holds
  cases v <;> first | exact ⟨_, rfl⟩ | cases holds

private theorem number_of_kind {v : Value} {s : Slot} (conforms : Conforms v s)
    (kind : (s.kind == .int || s.kind == .float) = true) :
    (∃ n, v = .int n) ∨ ∃ x, v = .float x := by
  simp only [Bool.or_eq_true, beq_iff_eq] at kind
  exact kind.imp (int_of_kind conforms) (float_of_kind conforms)

private theorem binaryOperation_keeps (operand : Int64) {a b : Value} {s t : Slot}
    (left : Conforms a s) (right : Conforms b t) (raises : p.raises)
    (clean : p.clean → proper a = true ∧ proper b = true)
    (slots : p.slots = [.ofKind (Flow.resultKind (Arithmetic.ofOperand? operand) s.kind t.kind)]) :
    Keeps p h (binaryOperation h operand a b) := by
  have any := binaryOperation_object (h := h) operand raises clean
  have operator : Arithmetic.ofCode? (if decide (operand.toInt ≥ 13) = true then
      operand - Arithmetic.inPlace else operand) = Arithmetic.ofOperand? operand := by
    simp only [Arithmetic.ofOperand?, decide_eq_true_eq]
  have integers : ∀ x y op, a = .int x → b = .int y → Arithmetic.ofOperand? operand = some op →
      binaryOperation h operand a b = integerOperation h op x y := by
    rintro x y op rfl rfl found
    simp only [binaryOperation, operator, found]
  have floats : ∀ x, a = .float x ∨ b = .float x →
      (∃ n, a = .int n) ∨ (∃ y, a = .float y) → (∃ n, b = .int n) ∨ (∃ y, b = .float y) →
      p.slots = [.ofKind .float] → Keeps p h (binaryOperation h operand a b) := by
    rintro x either (⟨m, rfl⟩ | ⟨y, rfl⟩) (⟨n, rfl⟩ | ⟨z, rfl⟩) slots
    · rcases either with same | same <;> cases same
    · exact floatOperation_keeps _ _ _ raises slots
    · exact floatOperation_keeps _ _ _ raises slots
    · exact floatOperation_keeps _ _ _ raises slots
  unfold Flow.resultKind at slots
  dsimp only at slots
  split at slots
  next divides =>
    have divides : Arithmetic.ofOperand? operand = some .trueDivide := by simpa using divides
    split at slots
    next numeric =>
      simp only [Bool.and_eq_true] at numeric
      have first := number_of_kind left numeric.1
      have second := number_of_kind right numeric.2
      rcases first with ⟨m, rfl⟩ | ⟨x, rfl⟩
      · rcases second with ⟨n, rfl⟩ | ⟨y, rfl⟩
        · rw [integers m n _ rfl rfl divides]
          exact integerOperation_keeps .trueDivide m n raises slots
        · exact floats y (.inr rfl) (.inl ⟨m, rfl⟩) (.inr ⟨y, rfl⟩) slots
      · exact floats x (.inl rfl) (.inr ⟨x, rfl⟩) second slots
    next => exact any slots
  next notDivides =>
    split at slots
    next both =>
      simp only [Bool.and_eq_true, beq_iff_eq] at both
      split at slots
      next => exact any slots
      next notPower =>
        obtain ⟨m, rfl⟩ := int_of_kind left both.1
        obtain ⟨n, rfl⟩ := int_of_kind right both.2
        cases found : Arithmetic.ofOperand? operand with
        | none =>
          simp only [binaryOperation, operator, found]
          exact fail_keeps raises
        | some op =>
          rw [integers m n op rfl rfl found]
          refine integerOperation_keeps op m n raises ?_
          rw [if_neg (by simpa [found] using notDivides), if_neg (by simpa [found] using notPower)]
          exact slots
    next notBoth =>
      split at slots
      next numeric =>
        simp only [Bool.and_eq_true, Bool.or_eq_true, beq_iff_eq] at numeric notBoth
        rcases numeric with ⟨int | float, second⟩
        · have other : t.kind = .float := second.resolve_left fun also => notBoth ⟨int, also⟩
          obtain ⟨y, rfl⟩ := float_of_kind right other
          exact floats y (.inr rfl) (.inl (int_of_kind left int)) (.inr ⟨y, rfl⟩) slots
        · obtain ⟨x, rfl⟩ := float_of_kind left float
          exact floats x (.inl rfl) (.inr ⟨x, rfl⟩)
            (second.imp (int_of_kind right) (float_of_kind right)) slots
      next =>
        split at slots
        next texts =>
          simp only [Bool.and_eq_true, beq_iff_eq] at texts
          obtain ⟨x, rfl⟩ := str_of_kind left texts.1.1
          obtain ⟨y, rfl⟩ := str_of_kind right texts.1.2
          simp only [binaryOperation, operator, texts.2, beq_self_eq_true, if_true]
          exact give_keeps slots rfl fun _ _ => rfl
        next => exact any slots

private theorem compare_keeps (operand : Int64) (a b : Value) (raises : p.raises)
    (endless : h.equal? a b = none → p.endless) (slots : p.slots = [.ofKind .bool]) :
    Keeps p h (Machine.compare h operand a b) := by
  unfold Machine.compare
  dsimp only
  repeat' split
  all_goals first
    | exact give_keeps slots rfl fun _ _ => rfl
    | exact fail_keeps raises
    | exact endless_keeps (endless ‹_›)

private theorem contains_keeps (negated : Bool) (needle container : Value) (raises : p.raises)
    (endless : ∀ items, h.items? container = some items → holds? h needle items.toList = none → p.endless)
    (slots : p.slots = [.ofKind .bool]) : Keeps p h (contains h negated needle container) := by
  unfold contains
  repeat' split
  all_goals first
    | exact give_keeps slots rfl fun _ _ => rfl
    | exact fail_keeps raises
    | exact endless_keeps (endless _ ‹_› ‹_›)

private theorem negative_keeps {v : Value} {s : Slot} (conforms : Conforms v s) (raises : p.raises)
    (slots : p.slots = [.ofKind (if s.kind == .int || s.kind == .float then s.kind else .object)]) :
    Keeps p h (negative h v) := by
  split at slots
  next numeric =>
    simp only [Bool.or_eq_true, beq_iff_eq] at numeric
    rcases numeric with int | float
    · obtain ⟨n, rfl⟩ := int_of_kind conforms int
      exact give_keeps slots (int ▸ rfl) fun _ _ => rfl
    · obtain ⟨x, rfl⟩ := float_of_kind conforms float
      exact give_keeps slots (float ▸ rfl) fun _ _ => rfl
  next =>
    unfold negative
    split <;> first | exact give_keeps slots rfl fun _ _ => rfl | exact fail_keeps raises

private theorem attribute?_keeps {obj v : Value} {name : String} {below : List Value} {kinds : List Slot}
    (found : attribute? h obj name = .ok (v, h')) (conforms : List.Forall₂ Conforms below kinds)
    (free : allProper below = true) (slots : p.slots = kinds ++ [Slot.ofKind .object]) :
    Keeps p h (.values (below ++ [v]), h') := by
  have proper : ProperHeap h → proper v = true ∧ ProperHeap h' := by
    unfold attribute? at found
    dsimp only at found
    split at found
    · split at found
      · next present =>
        cases found
        exact fun valid => ⟨valid.record _ _ (List.mem_of_find?_eq_some present), valid⟩
      · cases found
    · split at found
      · cases found
        exact fun valid => ⟨valid.exception _, valid⟩
      · split at found
        · split at found <;> (cases found; exact fun valid => ⟨rfl, valid⟩)
        · cases found
    · split at found
      · cases found
        exact fun valid => ⟨rfl, valid⟩
      · cases found
    · split at found
      · cases found
        exact fun valid => ⟨rfl, { valid with }⟩
      · cases found
    · cases found
  have same : recorded h' = recorded h := by
    unfold attribute? at found
    dsimp only at found
    repeat' split at found
    all_goals cases found <;> rfl
  refine ⟨?_, fun _ valid => ⟨allProper_append free ?_, (proper valid).2⟩, fun _ => same⟩
  · simp only [Promise.Allows, slots]
    exact List.rel_append conforms (.cons (conforms_ofKind rfl) .nil)
  · simp only [allProper, (proper valid).1, Bool.and_self]

private theorem setAttribute_keeps (name : String) {v obj : Value} (raises : p.raises)
    (clean : p.clean → proper v = true) (slots : p.slots = []) : Keeps p h (setAttribute h name v obj) := by
  unfold setAttribute
  split
  · refine ⟨by simp only [Promise.Allows, slots, List.Forall₂.nil], fun holds valid => ⟨rfl, valid.modifyRecord _ fun record all => ?_⟩, fun _ => rfl⟩
    exact insertEntry_proper (clean holds) all
  · exact fail_keeps raises

private theorem iterate_keeps {v : Value} (raises : p.raises) (clean : p.clean → proper v = true)
    (slots : p.slots = [.ofKind .iterator]) : Keeps p h (iterate h v) := by
  unfold iterate
  split
  · exact give_keeps slots rfl fun _ _ => rfl
  · split
    · next found =>
      refine (give_keeps slots rfl fun _ _ => rfl).after (fun holds valid => ?_) fun _ => rfl
      exact valid.newIterator (items?_proper valid (clean holds) found)
    · exact fail_keeps raises

private theorem advance_keeps (v : Value) (raises : p.raises)
    (slots : p.slots = [.ofKind .object, .ofKind .bool]) : Keeps p h (advance h v) := by
  have pair : ∀ (item : Value) (more : Bool), p.Allows (.values [item, .bool more]) := fun item more => by
    simp only [Promise.Allows, slots]
    exact .cons (conforms_ofKind rfl) (.cons (conforms_ofKind rfl) .nil)
  unfold advance
  split
  · dsimp only
    split
    · next item found =>
      refine ⟨pair _ _, fun _ valid => ⟨?_, valid.modifyIterator _ fun _ => rfl⟩, fun _ => rfl⟩
      have holds := allProper_iff.mp (valid.iterator _) item
        (Array.mem_toList_iff.mpr (Array.mem_of_getElem? found))
      simp [ProperReply, allProper, holds, proper]
    · exact ⟨pair _ _, fun _ valid => ⟨rfl, valid⟩, fun _ => rfl⟩
  · exact fail_keeps raises

private theorem exceptionMatches_keeps (v target : Value) (raises : p.raises)
    (slots : p.slots = [.ofKind .bool]) : Keeps p h (exceptionMatches h v target) := by
  unfold exceptionMatches
  dsimp only
  repeat' split
  all_goals first
    | exact give_keeps slots rfl fun _ _ => rfl
    | exact fail_keeps raises

private theorem asException_keeps {v given : Value} {kind : Kind} (slots : p.slots = [.ofKind kind])
    (holds : admits kind given = true) (free : proper given = true) :
    Keeps p h (give (asException h v).2 given) :=
  (give_keeps slots holds fun _ _ => free).after (fun _ valid => asException_proper valid v)
    fun _ => asException_recorded h v

private theorem makeFrom_keeps (v cause : Value) (slots : p.slots = [.ofKind .exception]) :
    Keeps p h (makeFrom h v cause) := by
  unfold makeFrom
  dsimp only
  split
  · exact asException_keeps slots rfl rfl
  · refine (give_keeps slots rfl fun _ _ => rfl).after (fun _ valid => ?_) fun _ => ?_
    · exact (asException_proper (asException_proper valid v) cause).modifyException _ fun _ => rfl
    · have caused := (asException_recorded (asException h v).2 cause).trans (asException_recorded h v)
      exact (modify_recorded _ (asException h v).1
        (f := fun e => { e with cause := some (asException (asException h v).2 cause).1 })
        fun _ => rfl).trans caused

private theorem methodCall_keeps (a b : Value) (rest : List Value) (calls : p.calls)
    (clean : p.clean → proper a = true ∧ proper b = true ∧ allProper rest = true)
    (slots : p.slots = [.ofKind .object]) : Keeps p h (methodCall a b rest, h) := by
  unfold methodCall
  split
  · exact ⟨⟨calls, slots⟩, fun holds valid => ⟨(clean holds).2, valid⟩, fun _ => rfl⟩
  · exact ⟨⟨calls, slots⟩, fun holds valid => ⟨⟨(clean holds).1, (clean holds).2.2⟩, valid⟩, fun _ => rfl⟩
  · refine ⟨⟨calls, slots⟩, fun holds valid => ⟨⟨(clean holds).1, ?_⟩, valid⟩, fun _ => rfl⟩
    simp [allProper, (clean holds).2.1, (clean holds).2.2]

/-- Every standard helper keeps what it promises. -/
theorem standardHelper_keeps (h : Heap) (inv : Invocation) {args : List Value} {slots : List Slot}
    (conforms : List.Forall₂ Conforms args slots) :
    Keeps (standardPromise h inv args slots) h (standardHelper h inv args) := by
  obtain ⟨helper, count, results, operand, name⟩ := inv
  unfold standardHelper
  dsimp only
  split
  case h_1 | h_5 | h_7 => exact give_keeps rfl rfl fun _ _ => rfl
  case h_2 =>
    cases conforms with
    | cons first _ => exact negative_keeps first rfl rfl
  case h_3 =>
    cases conforms with
    | cons first rest =>
      cases rest with
      | cons second _ =>
        refine binaryOperation_keeps operand first second rfl (fun clean => ?_) rfl
        have clean := allProper_iff.mp clean
        exact ⟨clean _ (by simp), clean _ (by simp)⟩
  case h_4 => exact compare_keeps _ _ _ rfl id rfl
  case h_6 => exact contains_keeps _ _ _ rfl (fun items listed sought => ⟨items, listed, sought⟩) rfl
  case h_8 => exact give_keeps rfl rfl fun clean _ => clean
  case h_9 =>
    exact (give_keeps rfl rfl fun _ _ => rfl).after (fun clean valid => valid.newList clean) fun _ => rfl
  case h_10 =>
    refine ⟨⟨rfl, rfl⟩, fun clean valid => ⟨?_, valid⟩, fun _ => rfl⟩
    simpa [standardPromise, ProperReply, allProper] using clean
  case h_11 =>
    refine methodCall_keeps _ _ _ rfl (fun clean => ?_) rfl
    simpa [standardPromise, allProper] using clean
  case h_12 =>
    split
    · next found => exact attribute?_keeps found .nil rfl rfl
    · exact fail_keeps rfl
  case h_13 =>
    split
    · next found => exact attribute?_keeps found (.cons (conforms_ofKind rfl) .nil) rfl rfl
    · exact fail_keeps rfl
  case h_14 => exact setAttribute_keeps _ rfl (fun clean => allProper_iff.mp clean _ (by simp)) rfl
  case h_15 => exact iterate_keeps rfl (fun clean => allProper_iff.mp clean _ (by simp)) rfl
  case h_16 => exact advance_keeps _ rfl rfl
  case h_17 | h_20 | h_22 => exact asException_keeps rfl rfl rfl
  case h_18 =>
    refine asException_keeps rfl rfl ?_
    rw [proper, allProper_iff]
    intro v member
    obtain ⟨_, _, rfl⟩ := List.mem_map.mp member
    rfl
  case h_19 => exact exceptionMatches_keeps _ _ rfl rfl
  case h_21 => exact makeFrom_keeps _ _ rfl
  case h_23 => exact ⟨nofun, fun _ valid => ⟨trivial, valid⟩, fun _ => rfl⟩
  case h_24 =>
    refine ⟨?_, fun _ valid => ⟨trivial, valid⟩, fun _ => rfl⟩
    rintro ⟨needed, given, signature, enough⟩
    match args, enough with
    | [], enough => cases helper <;> grind [signature?]
    | [_], enough => cases helper <;> grind [signature?]
    | _ :: _ :: _, _ => cases helper <;> grind [signature?]

theorem helper_standard {setup : Setup} (plain : setup.helpers = []) (helper : Helper) :
    setup.helper helper = ofHeap standardHelper := by
  simp only [Setup.helper, plain, List.find?_nil]

/-- The built-in functions from outside bring in no sentinel. -/
def Clean (custom : Nat → BuiltinFunction) : Prop :=
  ∀ id h args, ProperHeap h → allProper args = true →
    (∀ v, (custom id h args).1 = .value v → proper v = true) ∧ ProperHeap (custom id h args).2

/-- The built-in functions from outside change no record of an exception, and make none that has one. -/
def Quiet (custom : Nat → BuiltinFunction) : Prop :=
  ∀ id h args, recorded (custom id h args).2 = recorded h

/-- Without built-in functions from outside there is nothing to tell. -/
theorem clean_none : Clean fun _ h _ => (.value .none, h) :=
  fun _ _ _ valid _ => ⟨fun _ same => Outcome.value.inj same ▸ rfl, valid⟩

/-- What a built-in function promises. -/
def builtinPromise (custom : Nat → BuiltinFunction) (args : List Value) : Promise where
  slots := [.ofKind .object]
  clean := Clean custom ∧ allProper args = true
  endless := True
  quiet := Quiet custom

private theorem giveText_keeps (text : Option String) (endless : p.endless)
    (slots : p.slots = [.ofKind .object]) : Keeps p h (giveText h text) := by
  cases text with
  | none => exact endless_keeps endless
  | some => exact give_keeps slots rfl fun _ _ => rfl

private theorem progression_proper {fuel : Nat} {i stop step : Int64} {items all : Array Value}
    (holds : allProper items.toList = true)
    (ended : progressionWithin fuel i stop step items = some all) :
    allProper all.toList = true := by
  induction fuel generalizing i items with
  | zero => cases ended
  | succ fuel ih =>
    rw [progressionWithin] at ended
    split at ended
    · exact ih (by rw [Array.toList_push]; exact allProper_append holds rfl) ended
    · cases ended
      exact holds

private theorem range_keeps (args : List Value) (raises : p.raises) (endless : p.endless)
    (slots : p.slots = [.ofKind .object]) : Keeps p h (range h args) := by
  unfold range
  split
  · exact fail_keeps raises
  · dsimp only
    split
    case h_4 => exact fail_keeps raises
    -- However many bounds are given, the numbers in between are listed in the same way.
    all_goals
      split
      · exact fail_keeps raises
      · split
        · exact endless_keeps endless
        · next items found =>
          exact (give_keeps slots rfl fun _ _ => rfl).after
            (fun _ valid => valid.newList (progression_proper rfl found)) fun _ => rfl

private theorem answer_keeps {name : String} {outcome : Outcome} (raises : p.raises)
    (clean : p.clean → ProperHeap h → (∀ v, outcome = .value v → proper v = true) ∧ ProperHeap h')
    (quiet : p.quiet → recorded h' = recorded h) (slots : p.slots = [.ofKind .object]) :
    Keeps p h (answer h' name outcome) := by
  cases outcome with
  | value v =>
    have same : recorded (h'.normalize v).2 = recorded h' := recorded_congr (normalize_exceptions h' v)
    refine ⟨?_, fun holds valid => ?_, fun holds => same.trans (quiet holds)⟩
    · simp only [answer, give, Promise.Allows, slots]
      exact .cons (conforms_ofKind rfl) .nil
    · obtain ⟨free, heap⟩ := clean holds valid
      obtain ⟨normal, after⟩ := normalize_proper heap v (free v rfl)
      exact ⟨by simp only [answer, give, ProperReply, allProper, normal, Bool.and_self], after⟩
  | raised => exact ⟨raises, fun holds valid => ⟨trivial, (clean holds valid).2⟩, quiet⟩
  | error => exact (fail_keeps raises).after (fun holds valid => (clean holds valid).2) quiet

/-- Every built-in function keeps what it promises. -/
theorem act_keeps (custom : Nat → BuiltinFunction) (h : Heap) (name : String) (action : Action)
    (args : List Value) : Keeps (builtinPromise custom args) h (act custom h name action args) := by
  cases action with
  | len =>
    simp only [act, len]
    repeat' split
    all_goals first
      | exact give_keeps rfl rfl fun _ _ => rfl
      | exact fail_keeps trivial
  | range => exact range_keeps args trivial trivial rfl
  | str =>
    simp only [act, str]
    repeat' split
    all_goals first
      | exact giveText_keeps _ trivial rfl
      | exact give_keeps rfl rfl fun _ _ => rfl
      | exact fail_keeps trivial
  | repr =>
    simp only [act, Machine.repr]
    split
    · exact giveText_keeps _ trivial rfl
    · exact fail_keeps trivial
  | append ref =>
    refine (give_keeps rfl rfl fun _ _ => rfl).after (fun clean valid => ?_) fun _ => rfl
    exact valid.modifyList ref clean.2
  | custom id =>
    exact answer_keeps trivial (fun clean valid => clean.1 id h args valid clean.2)
      (fun quiet => quiet id h args) rfl

end Lowering.Proofs

import Lowering.Artifact.Format
import Lowering.Proofs.Items

/-! The binary form of documents. Every field of a structure is read back, those that were left out included,
and so is every document within the limits of reading, with its constants in the form that decoding gives
them. -/

namespace Lowering.Proofs
open Cbor Artifact Host

mutual

/-- A constant in the form in which an untyped field gives it back: a number that is not negative is unsigned. -/
def widened : Value → Value
  | .int n => if 0 ≤ n.toInt then .natural (UInt64.ofNat n.toInt.toNat) else .int n
  | .sequence items => .sequence (widenedAll items)
  | v => v

def widenedAll : List Value → List Value
  | [] => []
  | v :: rest => widened v :: widenedAll rest

end

def widenedOp (o : Op) : Op := { o with value := widened o.value }

def widenedRoutine (r : Artifact.Routine) : Artifact.Routine := { r with ops := r.ops.map widenedOp }

def widenedDocument (d : Document) : Document := ⟨d.routines.map widenedRoutine⟩

/-- What is assumed of a library for the binary form: a document within its limits is written, and what was
written is read as that document, with its constants in the form that untyped fields give them. -/
structure Faithful (codec : Codec) (limits : Document → Prop) : Prop where
  reads : ∀ d, limits d → ∃ bytes, codec.marshal d = some bytes ∧
    codec.unmarshal bytes = some (widenedDocument d)

/-- The entries of a structure whose parts are numbered from `n` on. A part that is missing is left out. -/
def numbered : Nat → List (Option Item) → List (Item × Item)
  | _, [] => []
  | n, part :: rest => (part.map fun item => (.natural n, item)).toList ++ numbered (n + 1) rest

private theorem mem_numbered {n : Nat} {parts : List (Option Item)} {key value : Item}
    (member : (key, value) ∈ numbered n parts) :
    ∃ k, key = .natural k ∧ n ≤ k ∧ k < n + parts.length ∧ some value ∈ parts := by
  induction parts generalizing n with
  | nil => cases member
  | cons part rest ih =>
    rw [numbered, List.mem_append] at member
    rw [List.length_cons]
    rcases member with here | later
    · cases part with
      | none => cases here
      | some item =>
        obtain ⟨rfl, rfl⟩ := Prod.mk.inj (List.mem_singleton.mp here)
        exact ⟨n, rfl, Nat.le_refl n, by omega, List.mem_cons_self⟩
    · obtain ⟨k, same, above, below, present⟩ := ih later
      exact ⟨k, same, by omega, by omega, .tail _ present⟩

private theorem numbered_length (n : Nat) (parts : List (Option Item)) :
    (numbered n parts).length ≤ parts.length := by
  induction parts generalizing n with
  | nil => exact Nat.le_refl _
  | cons part rest ih =>
    have tail := ih (n + 1)
    cases part <;> simp [numbered] <;> omega

private theorem find?_numbered (n k : Nat) (parts : List (Option Item)) :
    ((numbered n parts).find? fun e => keyIs (n + k) e.1).map Prod.snd = parts[k]?.join := by
  induction parts generalizing n k with
  | nil => rfl
  | cons part rest ih =>
    rw [numbered, List.find?_append]
    cases k with
    | zero =>
      cases part with
      | some item => simp [keyIs]
      | none =>
        -- Those that follow have greater numbers.
        have missing : (numbered (n + 1) rest).find? (fun e => keyIs (n + 0) e.1) = none := by
          refine List.find?_eq_none.mpr fun e member => ?_
          obtain ⟨k, same, above, _⟩ := mem_numbered member
          simp only [same, keyIs, beq_iff_eq]
          omega
        exact congrArg (Option.map Prod.snd) missing
    | succ k =>
      have next := ih (n + 1) k
      rw [Nat.succ_add_eq_add_succ] at next
      have other : ((part.map fun item => (Item.natural n, item)).toList.find?
          fun e => keyIs (n + (k + 1)) e.1) = none := by
        refine List.find?_eq_none.mpr fun e member => ?_
        cases part with
        | none => cases member
        | some item =>
          cases List.mem_singleton.mp member
          simp [keyIs]
      rw [other, Option.none_or, next, List.getElem?_cons_succ]

theorem entry_numbered (n k : Nat) (parts : List (Option Item)) :
    entry (numbered n parts) (n + k) = (parts[k]?.join).getD .null := by
  rw [← find?_numbered n k, entry]
  cases (numbered n parts).find? fun e => keyIs (n + k) e.1 <;> rfl

theorem structure?_numbered {α : Type} (parts : List (Option Item)) (read : (Nat → Item) → Option α) :
    structure? (.map (numbered 1 parts)) read = read (entry (numbered 1 parts)) := by
  have names : (numbered 1 parts).all (fun e => keyFits e.1) = true := by
    rw [List.all_eq_true]
    intro e member
    obtain ⟨k, same, _⟩ := mem_numbered member
    simp [same, keyFits]
  simp [structure?, entriesOf, bare?, names]

private theorem mem_encodeEntries {entries : List (Item × Item)} {e : List UInt8 × List UInt8}
    (member : e ∈ encodeEntries entries) : ∃ key value, (key, value) ∈ entries ∧ e.1 = key.encode := by
  induction entries with
  | nil => cases member
  | cons entry entries ih =>
    rw [encodeEntries, List.mem_cons] at member
    rcases member with rfl | member
    · exact ⟨_, _, List.mem_cons_self, rfl⟩
    · obtain ⟨key, value, listed, same⟩ := ih member
      exact ⟨key, value, .tail _ listed, same⟩

private theorem sorted_numbered {n : Nat} {parts : List (Option Item)} (few : n + parts.length ≤ 24) :
    (encodeEntries (numbered n parts)).Pairwise fun a b => keyBefore a.1 b.1 := by
  induction parts generalizing n with
  | nil => exact .nil
  | cons part rest ih =>
    rw [List.length_cons] at few
    have tail := ih (n := n + 1) (by omega)
    cases part with
    | none => exact tail
    | some item =>
      refine .cons ?_ tail
      have small : ∀ m < 24, (Item.natural m).encode = [UInt8.ofNat m] := by
        intro m less
        simp [Item.encode, head, less]
      intro e member
      obtain ⟨key, value, listed, same⟩ := mem_encodeEntries member
      obtain ⟨k, rfl, above, below, _⟩ := mem_numbered listed
      rw [same, small n (by omega), small k (by omega)]
      have less : UInt8.ofNat n < UInt8.ofNat k := by
        rw [UInt8.lt_iff_toNat_lt, UInt8.toNat_ofNat', UInt8.toNat_ofNat']
        omega
      simp [keyBefore, bytesBefore, less]

theorem readable_numbered {room : Nat} {parts : List (Option Item)} (few : parts.length ≤ 23)
    (each : ∀ item, some item ∈ parts → Readable room item) :
    Readable (room + 1) (.map (numbered 1 parts)) := by
  refine .map ?_ (sorted_numbered (by omega)) (fun e member => ?_) fun e member => ?_
  · have := numbered_length 1 parts
    unfold maxElements
    omega
  · obtain ⟨k, same, _, below, _⟩ := mem_numbered member
    rw [same]
    exact .natural (by omega)
  · obtain ⟨k, _, _, _, present⟩ := mem_numbered member
    exact each _ present

private theorem word?_toInt {n : Int64} {m : Int} (same : m = n.toInt) : word? m = some n := by
  have least := n.le_toInt
  have greatest := n.toInt_lt
  have inside : (leastWord ≤ m && m ≤ greatestWord) = true := by
    rw [Bool.and_eq_true, decide_eq_true_eq, decide_eq_true_eq, leastWord, greatestWord]
    omega
  rw [word?, if_pos inside, same, Int64.ofInt_toInt]

theorem number?_numberItem (n : Int64) : number? (numberItem n) = some n := by
  unfold numberItem Item.ofInt
  split
  · exact word?_toInt (by omega)
  · exact word?_toInt (by omega)

/-- A part that is left out while it holds nothing. -/
private def held (present : Prop) [Decidable present] (item : Item) : Option Item :=
  if present then some item else none

private theorem number?_held (n : Int64) : number? ((held (n ≠ 0) (numberItem n)).getD .null) = some n := by
  unfold held
  split
  · exact number?_numberItem n
  · next zero =>
    rw [not_not.mp zero]
    rfl

private theorem text?_held (s : String) : text? ((held (s ≠ "") (.text s)).getD .null) = some s := by
  unfold held
  split
  · rfl
  · next empty =>
    rw [not_not.mp empty]
    rfl

private theorem flag?_held (b : Bool) : flag? ((held (b = true) (.bool true)).getD .null) = some b := by
  cases b <;> rfl

private theorem elements?_held (items : List Item) :
    elements? ((held (items ≠ []) (.array items)).getD .null) = some items := by
  unfold held
  split
  · rfl
  · next empty =>
    rw [not_not.mp empty]
    rfl

private theorem optionalNumber_held (k : Nat) (n : Int64) :
    optionalNumber k n = ((held (n ≠ 0) (numberItem n)).map fun item => (.natural k, item)).toList := by
  by_cases zero : n = 0 <;> simp [optionalNumber, held, zero, numberField, field]

private theorem optionalText_held (k : Nat) (s : String) :
    optionalText k s = ((held (s ≠ "") (.text s)).map fun item => (.natural k, item)).toList := by
  by_cases empty : s = "" <;> simp [optionalText, held, empty, field]

private theorem optionalFlag_held (k : Nat) (b : Bool) :
    optionalFlag k b = ((held (b = true) (.bool true)).map fun item => (.natural k, item)).toList := by
  cases b <;> rfl

private theorem optionalList_held (k : Nat) (items : List Item) :
    optionalList k items = ((held (items ≠ []) (.array items)).map fun item => (.natural k, item)).toList := by
  cases items <;> rfl

/-- A constant that is a scalar, or a sequence of such constants. -/
inductive Plain : Value → Prop
  | none : Plain .none
  | bool (b : Bool) : Plain (.bool b)
  | int (n : Int64) : Plain (.int n)
  | float (x : Float) : Plain (.float x)
  | str (s : String) : Plain (.str s)
  | sequence {items : List Value} (each : ∀ item ∈ items, Plain item) : Plain (.sequence items)

private theorem Plain.restored {deep : Value → Item} {v : Value} (plain : Plain v) :
    value? true (valueItemWith deep v) = some (widened v) := by
  induction plain with
  | none | bool | float | str => rfl
  | int n =>
    rw [valueItemWith, numberItem, Item.ofInt, widened]
    split
    · next negative =>
      rw [if_neg (by omega), value?, scalar?, word?_toInt (n := n) (by omega)]
      all_goals nofun
    · next positive =>
      rw [if_pos (by omega)]
      rfl
  | @sequence items plain each =>
    clear plain
    have all : values? (valueItemsWith deep items) = some (widenedAll items) := by
      induction items with
      | nil => rfl
      | cons item items ih =>
        obtain ⟨first, others⟩ := List.forall_mem_cons.mp each
        rw [valueItemsWith, values?, first, ih others, widenedAll]
    rw [valueItemWith, value?, all]
    rfl

/-- The constant of an operation, which is left out when it is none. -/
private def constantPart (h : Heap) : Value → Option Item
  | .none => none
  | v => some (valueItem h (h.size + 1) v)

private theorem constantPart_restored {h : Heap} {v : Value} (plain : Plain v) :
    value? true ((constantPart h v).getD .null) = some (widened v) := by
  unfold constantPart
  split
  · rfl
  · exact plain.restored

/-- The parts of an operation. -/
private def opParts (h : Heap) (o : Op) : List (Option Item) :=
  [some (.text o.op), held (o.a ≠ 0) (numberItem o.a), held (o.b ≠ 0) (numberItem o.b),
    held (o.arg ≠ 0) (numberItem o.arg), held (o.helper ≠ "") (.text o.helper),
    held (o.name ≠ "") (.text o.name), constantPart h o.value, held (o.null = true) (.bool true),
    some (numberItem o.origin)]

private theorem item_opParts (h : Heap) (o : Op) : o.item h = .map (numbered 1 (opParts h o)) := by
  have value : (match o.value with
      | .none => []
      | v => field 7 (valueItem h (h.size + 1) v)) =
      ((constantPart h o.value).map fun item => (Item.natural 7, item)).toList := by
    unfold constantPart
    split <;> rfl
  calc o.item h
    _ = .map (field 1 (.text o.op) ++ optionalNumber 2 o.a ++ optionalNumber 3 o.b ++ optionalNumber 4 o.arg
        ++ optionalText 5 o.helper ++ optionalText 6 o.name
        ++ ((constantPart h o.value).map fun item => (Item.natural 7, item)).toList
        ++ optionalFlag 8 o.null ++ numberField 9 o.origin) := by rw [← value]; rfl
    _ = .map (numbered 1 (opParts h o)) := by
      simp only [optionalNumber_held, optionalText_held, optionalFlag_held, List.append_assoc]
      rfl

private theorem ofItem?_op {h : Heap} {o : Op} (plain : Plain o.value) :
    Op.ofItem? (o.item h) = some (widenedOp o) := by
  rw [item_opParts, Op.ofItem?, structure?_numbered]
  have get := fun k => entry_numbered 1 k (opParts h o)
  have op : text? (entry (numbered 1 (opParts h o)) 1) = some o.op := congrArg text? (get 0)
  have a : number? (entry _ 2) = some o.a := (congrArg number? (get 1)).trans (number?_held _)
  have b : number? (entry _ 3) = some o.b := (congrArg number? (get 2)).trans (number?_held _)
  have arg : number? (entry _ 4) = some o.arg := (congrArg number? (get 3)).trans (number?_held _)
  have helper : text? (entry _ 5) = some o.helper := (congrArg text? (get 4)).trans (text?_held _)
  have name : text? (entry _ 6) = some o.name := (congrArg text? (get 5)).trans (text?_held _)
  have value : value? true (entry _ 7) = some (widened o.value) :=
    (congrArg (value? true) (get 6)).trans (constantPart_restored plain)
  have null : flag? (entry _ 8) = some o.null := (congrArg flag? (get 7)).trans (flag?_held _)
  have origin : number? (entry _ 9) = some o.origin :=
    (congrArg number? (get 8)).trans (number?_numberItem _)
  rw [op, a, b, arg, helper, name, value, null, origin]
  rfl

private def regionParts (r : Protected) : List (Option Item) :=
  [some (numberItem r.start), some (numberItem r.stop), some (numberItem r.handler), some (numberItem r.depth)]

private theorem item_regionParts (r : Protected) : regionItem r = .map (numbered 1 (regionParts r)) := rfl

private theorem regionOfItem?_item (r : Protected) : regionOfItem? (regionItem r) = some r := by
  have get := fun k => entry_numbered 1 k (regionParts r)
  have start : number? (entry _ 1) = some r.start := (congrArg number? (get 0)).trans (number?_numberItem _)
  have stop : number? (entry _ 2) = some r.stop := (congrArg number? (get 1)).trans (number?_numberItem _)
  have handler : number? (entry _ 3) = some r.handler :=
    (congrArg number? (get 2)).trans (number?_numberItem _)
  have depth : number? (entry _ 4) = some r.depth := (congrArg number? (get 3)).trans (number?_numberItem _)
  rw [item_regionParts, regionOfItem?, structure?_numbered, start, stop, handler, depth]
  rfl

private def handlerParts (r : Handler) : List (Option Item) :=
  [some (numberItem r.id), some (.text r.dialect), some (numberItem r.start), some (numberItem r.stop),
    some (numberItem r.target), some (numberItem r.depth), some (numberItem r.entryDepth),
    held (r.lasti = true) (.bool true)]

private theorem item_handlerParts (r : Handler) : r.item = .map (numbered 1 (handlerParts r)) := by
  simp only [Handler.item, optionalFlag_held, handlerParts, numbered, List.append_assoc, List.append_nil]
  rfl

private theorem ofItem?_handler (r : Handler) : Handler.ofItem? r.item = some r := by
  have get := fun k => entry_numbered 1 k (handlerParts r)
  have id : number? (entry _ 1) = some r.id := (congrArg number? (get 0)).trans (number?_numberItem _)
  have dialect : text? (entry (numbered 1 (handlerParts r)) 2) = some r.dialect := congrArg text? (get 1)
  have start : number? (entry _ 3) = some r.start := (congrArg number? (get 2)).trans (number?_numberItem _)
  have stop : number? (entry _ 4) = some r.stop := (congrArg number? (get 3)).trans (number?_numberItem _)
  have target : number? (entry _ 5) = some r.target := (congrArg number? (get 4)).trans (number?_numberItem _)
  have depth : number? (entry _ 6) = some r.depth := (congrArg number? (get 5)).trans (number?_numberItem _)
  have entryDepth : number? (entry _ 7) = some r.entryDepth :=
    (congrArg number? (get 6)).trans (number?_numberItem _)
  have lasti : flag? (entry _ 8) = some r.lasti := (congrArg flag? (get 7)).trans (flag?_held _)
  rw [item_handlerParts, Handler.ofItem?, structure?_numbered, id, dialect, start, stop, target, depth,
    entryDepth, lasti]
  rfl

/-- The parts of a routine. Its operations are null when there are none. -/
private def routineParts (h : Heap) (r : Artifact.Routine) : List (Option Item) :=
  [some (.text r.name), held (r.filename ≠ "") (.text r.filename), some (.text r.version),
    some (numberItem r.localCount), some (numberItem r.maxDepth),
    some (if r.ops.isEmpty then .null else .array (r.ops.map (Op.item h))),
    held (r.regions.map regionItem ≠ []) (.array (r.regions.map regionItem)),
    held (r.handlers.map Handler.item ≠ []) (.array (r.handlers.map Handler.item))]

private theorem item_routineParts (h : Heap) (r : Artifact.Routine) :
    r.item h = .map (numbered 1 (routineParts h r)) := by
  simp only [Artifact.Routine.item, optionalText_held, optionalList_held, routineParts, numbered,
    List.append_assoc, List.append_nil]
  rfl

private theorem mapM_map {α β : Type} {write : α → β} {read : β → Option α} {change : α → α} {as : List α}
    (restored : ∀ a ∈ as, read (write a) = some (change a)) : (as.map write).mapM read = some (as.map change) := by
  induction as with
  | nil => rfl
  | cons a as ih =>
    obtain ⟨first, others⟩ := List.forall_mem_cons.mp restored
    rw [List.map_cons, List.mapM_cons, first, ih others]
    rfl

private theorem ofItem?_routine {h : Heap} {r : Artifact.Routine} (plain : ∀ o ∈ r.ops, Plain o.value) :
    Artifact.Routine.ofItem? (r.item h) = some (widenedRoutine r) := by
  have get := fun k => entry_numbered 1 k (routineParts h r)
  have listed : elements? (if r.ops.isEmpty then .null else .array (r.ops.map (Op.item h))) =
      some (r.ops.map (Op.item h)) := by
    cases r.ops <;> rfl
  have name : text? (entry (numbered 1 (routineParts h r)) 1) = some r.name := congrArg text? (get 0)
  have filename : text? (entry _ 2) = some r.filename := (congrArg text? (get 1)).trans (text?_held _)
  have version : text? (entry (numbered 1 (routineParts h r)) 3) = some r.version := congrArg text? (get 2)
  have localCount : number? (entry _ 4) = some r.localCount :=
    (congrArg number? (get 3)).trans (number?_numberItem _)
  have maxDepth : number? (entry _ 5) = some r.maxDepth :=
    (congrArg number? (get 4)).trans (number?_numberItem _)
  have operations : elements? (entry _ 6) = _ := (congrArg elements? (get 5)).trans listed
  have regions : elements? (entry _ 7) = _ := (congrArg elements? (get 6)).trans (elements?_held _)
  have handlers : elements? (entry _ 8) = _ := (congrArg elements? (get 7)).trans (elements?_held _)
  rw [item_routineParts, Artifact.Routine.ofItem?, structure?_numbered, name, filename, version, localCount,
    maxDepth, operations, regions, handlers]
  have ops : (r.ops.map (Op.item h)).mapM Op.ofItem? = some (r.ops.map widenedOp) :=
    mapM_map fun o member => ofItem?_op (plain o member)
  have areas : (r.regions.map regionItem).mapM regionOfItem? = some (r.regions.map id) :=
    mapM_map fun region _ => regionOfItem?_item region
  have handling : (r.handlers.map Handler.item).mapM Handler.ofItem? = some (r.handlers.map id) :=
    mapM_map fun handler _ => ofItem?_handler handler
  simp only [bind, Option.bind, ops, areas, handling, List.map_id]
  rfl

/-- The parts of a document: its routines. -/
private def documentParts (h : Heap) (d : Document) : List (Option Item) :=
  [some (.array (d.routines.map (Artifact.Routine.item h)))]

private theorem item_documentParts (h : Heap) (d : Document) :
    d.item h = .map (numbered 1 (documentParts h d)) := rfl

private theorem ofItem?_document {h : Heap} {d : Document} (plain : ∀ r ∈ d.routines, ∀ o ∈ r.ops, Plain o.value) :
    Document.ofItem? (d.item h) = some (widenedDocument d) := by
  have get := entry_numbered 1 0 (documentParts h d)
  have listed : elements? (entry (numbered 1 (documentParts h d)) 1) =
      some (d.routines.map (Artifact.Routine.item h)) := congrArg elements? get
  have routines : (d.routines.map (Artifact.Routine.item h)).mapM Artifact.Routine.ofItem? =
      some (d.routines.map widenedRoutine) := mapM_map fun r member => ofItem?_routine (plain r member)
  rw [item_documentParts, Document.ofItem?, structure?_numbered, listed]
  simp only [bind, Option.bind, routines]
  rfl

/-- How deep a constant may be nested: it stands in an operation of a list of a routine of a list of a
document. -/
def constantRoom : Nat := maxNesting - 5

/-- An operation within the limits of reading. -/
structure CompactOp (h : Heap) (o : Op) : Prop where
  texts : ∀ s ∈ [o.op, o.helper, o.name], Legible s
  plain : Plain o.value
  constant : o.value ≠ .none → Readable constantRoom (valueItem h (h.size + 1) o.value)

/-- A routine within the limits of reading. -/
structure CompactRoutine (h : Heap) (r : Artifact.Routine) : Prop where
  titles : ∀ s ∈ [r.name, r.filename, r.version], Legible s
  operations : r.ops.length ≤ maxElements
  regions : r.regions.length ≤ maxElements
  handlers : r.handlers.length ≤ maxElements
  each : ∀ o ∈ r.ops, CompactOp h o
  dialects : ∀ handler ∈ r.handlers, Legible handler.dialect

/-- A document within the limits of reading. -/
structure Compact (h : Heap) (d : Document) : Prop where
  few : d.routines.length ≤ maxElements
  each : ∀ r ∈ d.routines, CompactRoutine h r

private theorem readable_number {room : Nat} (n : Int64) : Readable room (numberItem n) := by
  have least := n.le_toInt
  have greatest := n.toInt_lt
  unfold numberItem Item.ofInt
  split
  · exact .negative (by omega)
  · exact .natural (by omega)

private theorem readable_held {room : Nat} {present : Prop} [Decidable present] {item other : Item}
    (readable : Readable room item) (here : some other = held present item) : Readable room other := by
  unfold held at here
  split at here
  · cases here
    exact readable
  · cases here

private theorem readable_array {α : Type} {room : Nat} {as : List α} {write : α → Item}
    (few : as.length ≤ maxElements) (each : ∀ a ∈ as, Readable room (write a)) :
    Readable (room + 1) (.array (as.map write)) := by
  refine .array (by simpa using few) fun item member => ?_
  obtain ⟨a, listed, rfl⟩ := List.mem_map.mp member
  exact each a listed

private theorem CompactOp.readable {h : Heap} {o : Op} (compact : CompactOp h o) :
    Readable (constantRoom + 1) (o.item h) := by
  rw [item_opParts]
  refine readable_numbered (by simp [opParts]) fun item member => ?_
  simp only [opParts, List.mem_cons, Option.some.injEq, List.not_mem_nil, or_false] at member
  rcases member with rfl | a | b | arg | helping | naming | value | null | rfl
  · exact .text (compact.texts _ (by simp))
  · exact readable_held (readable_number _) a
  · exact readable_held (readable_number _) b
  · exact readable_held (readable_number _) arg
  · exact readable_held (.text (compact.texts _ (by simp))) helping
  · exact readable_held (.text (compact.texts _ (by simp))) naming
  · unfold constantPart at value
    split at value
    · cases value
    · next present =>
      cases value
      exact compact.constant present
  · exact readable_held (.bool true) null
  · exact readable_number _

private theorem readable_region {room : Nat} (r : Protected) : Readable (room + 1) (regionItem r) := by
  rw [item_regionParts]
  refine readable_numbered (by simp [regionParts]) fun item member => ?_
  simp only [regionParts, List.mem_cons, Option.some.injEq, List.not_mem_nil, or_false] at member
  rcases member with rfl | rfl | rfl | rfl <;> exact readable_number _

private theorem readable_handler {room : Nat} {r : Handler} (dialect : Legible r.dialect) :
    Readable (room + 1) r.item := by
  rw [item_handlerParts]
  refine readable_numbered (by simp [handlerParts]) fun item member => ?_
  simp only [handlerParts, List.mem_cons, Option.some.injEq, List.not_mem_nil, or_false] at member
  rcases member with rfl | rfl | rfl | rfl | rfl | rfl | rfl | lasti
  · exact readable_number _
  · exact .text dialect
  · exact readable_number _
  · exact readable_number _
  · exact readable_number _
  · exact readable_number _
  · exact readable_number _
  · exact readable_held (.bool true) lasti

private theorem CompactRoutine.readable {h : Heap} {r : Artifact.Routine} (compact : CompactRoutine h r) :
    Readable (constantRoom + 3) (r.item h) := by
  have ops : Readable (constantRoom + 2) (.array (r.ops.map (Op.item h))) :=
    readable_array compact.operations fun o member => (compact.each o member).readable
  rw [item_routineParts]
  refine readable_numbered (by simp [routineParts]) fun item member => ?_
  simp only [routineParts, List.mem_cons, Option.some.injEq, List.not_mem_nil, or_false] at member
  rcases member with rfl | filename | rfl | rfl | rfl | rfl | regions | handlers
  · exact .text (compact.titles _ (by simp))
  · exact readable_held (.text (compact.titles _ (by simp))) filename
  · exact .text (compact.titles _ (by simp))
  · exact readable_number _
  · exact readable_number _
  · split
    · exact .null
    · exact ops
  · exact readable_held (readable_array compact.regions fun r _ => readable_region r) regions
  · exact readable_held (readable_array compact.handlers fun handler member =>
      readable_handler (compact.dialects handler member)) handlers

private theorem Compact.readable {h : Heap} {d : Document} (compact : Compact h d) :
    Readable maxNesting (d.item h) := by
  rw [item_documentParts]
  refine readable_numbered (by simp [documentParts]) fun item member => ?_
  cases Option.some.inj (List.mem_singleton.mp member)
  exact readable_array compact.few fun r member => (compact.each r member).readable

theorem binary_faithful (h : Heap) : Faithful (binary h) (Compact h) where
  reads d compact := by
    refine ⟨_, rfl, ?_⟩
    change Document.decode? (d.item h).encode = _
    rw [Document.decode?, compact.readable.decoded]
    exact ofItem?_document fun r member o listed => ((compact.each r member).each o listed).plain

end Lowering.Proofs

import Lowering.Cbor.Decode
import Lowering.Proofs.Precisions
import Lowering.Proofs.Runes

/-! Data items. What is written within the limits of reading is read back: numbers of 64 bits, texts of
characters, floating-point numbers of every precision, lists, and maps with their keys in order. -/

namespace Lowering.Proofs
open Cbor

/-- A text of characters, none of whose bytes is stray. -/
def OfCharacters (s : String) : Prop := ∃ t, Text.kept t = s

/-- A text of characters, of a length that can be written. -/
def Legible (s : String) : Prop := OfCharacters s ∧ (utf8 s).length < 2 ^ 64

theorem legible_plain {s : String} (plain : Text.hasStray s = false) (short : (utf8 s).length < 2 ^ 64) :
    Legible s :=
  ⟨⟨s, by rw [Text.kept, plain]; rfl⟩, short⟩

private theorem textItem_utf8 {s : String} (characters : OfCharacters s) : textItem [utf8 s] = .text s := by
  obtain ⟨t, rfl⟩ := characters
  rw [textItem, List.mapM_cons, utf8, fromUTF8?_kept]
  simp [String.join]

private theorem bigEndian_length (width n : Nat) : (bigEndian width n).length = width := by
  induction width generalizing n with
  | zero => rfl
  | succ width ih => rw [bigEndian, List.length_append, ih, List.length_singleton]

private theorem bigEndian_value (width n : Nat) :
    (bigEndian width n).foldl (fun n b => 256 * n + b.toNat) 0 = n % 256 ^ width := by
  induction width generalizing n with
  | zero => rw [Nat.pow_zero, Nat.mod_one]; rfl
  | succ width ih =>
    have split : n % (256 * 256 ^ width) = n % 256 + 256 * (n / 256 % 256 ^ width) := Nat.mod_mul
    rw [bigEndian, List.foldl_append, ih, List.foldl_cons, List.foldl_nil, UInt8.toNat_ofNat',
      Nat.pow_succ' (n := width), split, Nat.add_comm]

/-- The low bits that announce an argument of their own, and the number of its bytes. -/
def widths : List (Nat × Nat) := [(24, 1), (25, 2), (26, 4), (27, 8)]

theorem argument?_bigEndian {low width n : Nat} (announced : (low, width) ∈ widths) (fits : n < 256 ^ width)
    (rest : List UInt8) :
    argument? low (bigEndian width n ++ rest) = some (some n, rest) := by
  have number : (if (bigEndian width n ++ rest).length < width then none
      else some (some (((bigEndian width n ++ rest).take width).foldl (fun n b => 256 * n + b.toNat) 0),
        (bigEndian width n ++ rest).drop width)) = some (some n, rest) := by
    have enough : ¬ (bigEndian width n ++ rest).length < width := by
      rw [List.length_append, bigEndian_length]
      omega
    rw [if_neg enough, List.take_left' (bigEndian_length width n), List.drop_left' (bigEndian_length width n),
      bigEndian_value, Nat.mod_eq_of_lt fits]
  simp only [widths, List.mem_cons, Prod.mk.injEq, List.not_mem_nil, or_false] at announced
  rcases announced with ⟨rfl, rfl⟩ | ⟨rfl, rfl⟩ | ⟨rfl, rfl⟩ | ⟨rfl, rfl⟩ <;> exact number

theorem head_spec {major n : Nat} (known : major < 8) (fits : n < 2 ^ 64) :
    ∃ first more, head major n = first :: more ∧ first.toNat / 32 = major ∧
      ∀ rest, argument? (first.toNat % 32) (more ++ rest) = some (some n, rest) := by
  have first : ∀ low < 32, (UInt8.ofNat (major * 32 + low)).toNat / 32 = major ∧
      (UInt8.ofNat (major * 32 + low)).toNat % 32 = low := by
    intro low less
    rw [UInt8.toNat_ofNat']
    omega
  have wide : ∀ {low width : Nat}, (low, width) ∈ widths → n < 256 ^ width →
      ∃ first more, UInt8.ofNat (major * 32 + low) :: bigEndian width n = first :: more ∧
        first.toNat / 32 = major ∧
        ∀ rest, argument? (first.toNat % 32) (more ++ rest) = some (some n, rest) := by
    intro low width announced fits
    have less : low < 32 := by
      simp only [widths, List.mem_cons, Prod.mk.injEq, List.not_mem_nil, or_false] at announced
      omega
    refine ⟨_, _, rfl, (first low less).1, fun rest => ?_⟩
    rw [(first low less).2]
    exact argument?_bigEndian announced fits rest
  unfold head
  dsimp only
  split
  next tiny =>
    refine ⟨_, _, rfl, (first n (by omega)).1, fun rest => ?_⟩
    rw [(first n (by omega)).2, argument?, if_pos tiny, List.nil_append]
  next =>
    split
    · next small => exact wide (by decide) small
    · split
      · next small => exact wide (by decide) small
      · split
        · next small => exact wide (by decide) small
        · exact wide (by decide) fits

/-- An item that can be read back with so many levels of nesting to spare. -/
inductive Readable : Nat → Item → Prop
  | natural {room n : Nat} (fits : n < 2 ^ 64) : Readable room (.natural n)
  | negative {room n : Nat} (fits : n < 2 ^ 64) : Readable room (.negative n)
  | text {room : Nat} {s : String} (legible : Legible s) : Readable room (.text s)
  | bool {room : Nat} (b : Bool) : Readable room (.bool b)
  | null {room : Nat} : Readable room .null
  | float {room : Nat} (x : Float) : Readable room (.float x)
  | array {room : Nat} {items : List Item} (few : items.length ≤ maxElements)
      (each : ∀ item ∈ items, Readable room item) : Readable (room + 1) (.array items)
  | map {room : Nat} {entries : List (Item × Item)} (few : entries.length ≤ maxElements)
      (sorted : (encodeEntries entries).Pairwise fun a b => keyBefore a.1 b.1)
      (keys : ∀ entry ∈ entries, Readable room entry.1)
      (values : ∀ entry ∈ entries, Readable room entry.2) : Readable (room + 1) (.map entries)

/-- The bytes of an item are read as that item, whatever follows them. -/
def Restored (room : Nat) (item : Item) : Prop :=
  item.encode ≠ [] ∧ ∀ (fuel : Nat) (rest : List UInt8), 2 * item.encode.length ≤ fuel →
    item? fuel room (item.encode ++ rest) = some (item, rest)

private theorem Restored.headed {room major n : Nat} {item : Item} {body : List UInt8} (known : major < 8)
    (fits : n < 2 ^ 64) (encoded : item.encode = head major n ++ body)
    (read : ∀ (fuel : Nat) (first : UInt8) (more rest : List UInt8), 2 * body.length < fuel →
      first.toNat / 32 = major →
      argument? (first.toNat % 32) (more ++ (body ++ rest)) = some (some n, body ++ rest) →
      item? (fuel + 1) room (first :: (more ++ (body ++ rest))) = some (item, rest)) :
    Restored room item := by
  obtain ⟨first, more, made, type, argument⟩ := head_spec known fits
  rw [made] at encoded
  refine ⟨by simp [encoded], fun fuel rest enough => ?_⟩
  rw [encoded] at enough ⊢
  simp only [List.cons_append, List.length_cons, List.length_append] at enough
  obtain ⟨fuel, rfl⟩ : ∃ less, fuel = less + 1 := ⟨fuel - 1, by omega⟩
  rw [List.cons_append, List.cons_append, List.append_assoc]
  exact read fuel first more rest (by omega) type (argument (body ++ rest))

private theorem items?_restored {room : Nat} {items : List Item} (each : ∀ item ∈ items, Restored room item)
    {fuel : Nat} (rest : List UInt8) (enough : 2 * (encodeAll items).length < fuel) :
    items? fuel room (some items.length) (encodeAll items ++ rest) = some (items, rest) := by
  obtain ⟨fuel, rfl⟩ : ∃ less, fuel = less + 1 := ⟨fuel - 1, by omega⟩
  induction items generalizing fuel with
  | nil => rfl
  | cons item items ih =>
    obtain ⟨first, others⟩ := List.forall_mem_cons.mp each
    have some := List.length_pos_iff.mpr first.1
    rw [encodeAll, List.length_append] at enough
    obtain ⟨fuel, rfl⟩ : ∃ less, fuel = less + 1 := ⟨fuel - 1, by omega⟩
    have read := first.2 (fuel + 1) (encodeAll items ++ rest) (by omega)
    rw [encodeAll, List.append_assoc, List.length_cons, items?, read]
    simp only [Option.map_some, Nat.add_sub_cancel, ih others fuel (by omega)]
    · simp
    · simp

private theorem entries?_restored {room : Nat} {entries : List (Item × Item)}
    (keys : ∀ entry ∈ entries, Restored room entry.1) (values : ∀ entry ∈ entries, Restored room entry.2)
    {fuel : Nat} (rest : List UInt8)
    (enough : 2 * ((encodeEntries entries).flatMap fun (key, value) => key ++ value).length < fuel) :
    entries? fuel room (some entries.length)
      ((encodeEntries entries).flatMap (fun (key, value) => key ++ value) ++ rest) = some (entries, rest) := by
  obtain ⟨fuel, rfl⟩ : ∃ less, fuel = less + 1 := ⟨fuel - 1, by omega⟩
  induction entries generalizing fuel with
  | nil => rfl
  | cons entry entries ih =>
    obtain ⟨key, value⟩ := entry
    obtain ⟨(first : Restored room key), keys⟩ := List.forall_mem_cons.mp keys
    obtain ⟨(second : Restored room value), values⟩ := List.forall_mem_cons.mp values
    have some := List.length_pos_iff.mpr first.1
    rw [encodeEntries, List.flatMap_cons, List.length_append, List.length_append] at enough
    obtain ⟨fuel, rfl⟩ : ∃ less, fuel = less + 1 := ⟨fuel - 1, by omega⟩
    rw [encodeEntries, List.flatMap_cons, List.append_assoc, List.append_assoc, List.length_cons, entries?,
      first.2 (fuel + 1) _ (by omega)]
    dsimp only
    rw [second.2 (fuel + 1) _ (by omega)]
    simp only [Option.map_some, Nat.add_sub_cancel, ih keys values fuel (by omega)]
    · simp
    · simp

private theorem Restored.simple {room : Nat} {item : Item} {byte : UInt8} (encoded : item.encode = [byte])
    (read : ∀ (fuel : Nat) (rest : List UInt8),
      item? (fuel + 1) room (byte :: rest) = some (item, rest)) : Restored room item := by
  refine ⟨by simp [encoded], fun fuel rest enough => ?_⟩
  rw [encoded, List.length_singleton] at enough
  obtain ⟨fuel, rfl⟩ : ∃ less, fuel = less + 1 := ⟨fuel - 1, by omega⟩
  rw [encoded]
  exact read fuel rest

private theorem floatBytes_spec (x : Float) : ∃ first width bits, floatBytes x = first :: bigEndian width bits ∧
    (first.toNat % 32, width) ∈ widths ∧ first.toNat / 32 = 7 ∧ bits < 256 ^ width ∧
    simpleItem? (first.toNat % 32) (some bits) = some (.float x) := by
  unfold floatBytes
  split
  next nan =>
    refine ⟨0xf9, 2, 0x7e00, rfl, by decide, rfl, by decide, ?_⟩
    rw [nan_unique nan]
    rfl
  next =>
    split
    next infinite =>
      have same := infinite_unique infinite
      by_cases below : x < 0
      · rw [if_pos below] at same ⊢
        refine ⟨0xf9, 2, 0xfc00, rfl, by decide, rfl, by decide, ?_⟩
        rw [same]
        rfl
      · rw [if_neg below] at same ⊢
        refine ⟨0xf9, 2, 0x7c00, rfl, by decide, rfl, by decide, ?_⟩
        rw [same]
        rfl
    next =>
      split
      · next bits half =>
        obtain ⟨fits, same⟩ := narrow?_spec half (by decide) (by decide)
        exact ⟨0xf9, 2, bits, rfl, by decide, rfl, fits, congrArg (some <| Item.float ·) same⟩
      · split
        · next bits single =>
          obtain ⟨fits, same⟩ := narrow?_spec single (by decide) (by decide)
          exact ⟨0xfa, 4, bits, rfl, by decide, rfl, fits, congrArg (some <| Item.float ·) same⟩
        · have same : Float.ofBits (UInt64.ofNat x.toBits.toNat) = x := by
            rw [UInt64.ofNat_toNat, ofBits_toBits]
          exact ⟨0xfb, 8, _, rfl, by decide, rfl, x.toBits.toNat_lt, congrArg (some <| Item.float ·) same⟩

private theorem Restored.float {room : Nat} (x : Float) : Restored room (.float x) := by
  obtain ⟨first, width, bits, encoded, announced, type, fits, value⟩ := floatBytes_spec x
  have same : (Item.float x).encode = first :: bigEndian width bits := by rw [Item.encode, encoded]
  refine ⟨by simp [same], fun fuel rest enough => ?_⟩
  rw [same] at enough ⊢
  rw [List.length_cons] at enough
  obtain ⟨fuel, rfl⟩ : ∃ less, fuel = less + 1 := ⟨fuel - 1, by omega⟩
  rw [List.cons_append, item?, argument?_bigEndian announced fits rest]
  simp only [type, value, Option.map_some]

theorem Readable.restored {room : Nat} {item : Item} (readable : Readable room item) : Restored room item := by
  induction readable with
  | natural fits =>
    refine .headed (by decide : 0 < 8) fits (by rw [Item.encode, List.append_nil]) ?_
    intro fuel first more rest enough type argument
    rw [item?, argument]
    simp only [type, List.nil_append]
  | negative fits =>
    refine .headed (by decide : 1 < 8) fits (by rw [Item.encode, List.append_nil]) ?_
    intro fuel first more rest enough type argument
    rw [item?, argument]
    simp only [type, List.nil_append]
  | @text _ s legible =>
    refine .headed (by decide : 3 < 8) legible.2 (by rw [Item.encode]) ?_
    intro fuel first more rest enough type argument
    have kept : ¬ (utf8 s ++ rest).length < (utf8 s).length := by simp
    rw [item?, argument]
    simp only [type, if_neg kept, List.take_left, List.drop_left, textItem_utf8 legible.1]
  | bool b => cases b <;> exact .simple rfl fun _ _ => rfl
  | null => exact .simple rfl fun _ _ => rfl
  | float x => exact .float x
  | @array room items few _ each =>
    have small : items.length < 2 ^ 64 := Nat.lt_of_le_of_lt few (by decide)
    refine .headed (by decide : 4 < 8) small (by rw [Item.encode]) ?_
    intro fuel first more rest enough type argument
    rw [item?, argument]
    simp only [type, Option.getD_some, if_neg (Nat.not_lt.mpr few), items?_restored each rest enough]
  | @map room entries few sorted _ _ keys values =>
    have small : entries.length < 2 ^ 64 := Nat.lt_of_le_of_lt few (by decide)
    refine .headed (by decide : 5 < 8) small (by rw [Item.encode, List.mergeSort_of_pairwise sorted]) ?_
    intro fuel first more rest enough type argument
    rw [item?, argument]
    simp only [type, Option.getD_some, if_neg (Nat.not_lt.mpr few), entries?_restored keys values rest enough]

theorem Readable.decoded {item : Item} (readable : Readable maxNesting item) :
    decode? item.encode = some item := by
  have read := readable.restored.2 (2 * item.encode.length + 2) [] (by omega)
  rw [List.append_nil] at read
  rw [decode?, read]

end Lowering.Proofs
